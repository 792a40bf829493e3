import Mathlib.Data.List.GetD
import ModbusSlave.Proofs.Wire.Positions

/-!
# Packing undone

Packed bits come back unpacked, and unpacked bytes come back packed as far as the bits reach that
were taken from them. Both follow from where a bit lies: strings of as many bytes are equal if they
are so bit by bit.
-/
namespace ModbusSlave.Bits

theorem ext_bit {bytes others : Bytes} (hlength : bytes.length = others.length)
    (h : ∀ k, bit bytes k = bit others k) : bytes = others := by
  apply List.ext_getElem hlength
  intro j hj hj'
  apply UInt8.toNat_inj.mp
  apply Nat.eq_of_testBit_eq
  intro i
  by_cases hi : i < 8
  · have hdiv : (8 * j + i) / 8 = j := by omega
    have hmod : (8 * j + i) % 8 = i := by omega
    have hbit := h (8 * j + i)
    rwa [bit, bit, hdiv, hmod, List.getD_eq_getElem _ _ hj, List.getD_eq_getElem _ _ hj'] at hbit
  · have hle := Nat.not_lt.mp hi
    rw [testBit_of_le _ hle, testBit_of_le _ hle]

theorem bit_modify {bytes : Bytes} {j : Nat} (h : j < bytes.length) (f : UInt8 → UInt8) (k : Nat) :
    bit (bytes.modify j f) k =
      if k / 8 = j then (f (bytes.getD j 0)).toNat.testBit (k % 8) else bit bytes k := by
  rw [bit, List.getD_eq_getElem?_getD]
  split
  · next hj =>
    rw [hj, List.getElem?_modify_eq, List.getElem?_eq_getElem h, List.getD_eq_getElem _ _ h]
    rfl
  · next hj =>
    rw [List.getElem?_modify_ne _ _ (Ne.symm hj), ← List.getD_eq_getElem?_getD, bit]

def mark (bytes : Bytes) (position : Nat) : Bytes :=
  bytes.modify (position / 8) fun byte => byte ||| 1 <<< UInt8.ofNat (position % 8)

theorem testBit_or_shiftLeft (byte : UInt8) {i : Nat} (hi : i < 8) (j : Nat) :
    (byte ||| 1 <<< UInt8.ofNat i).toNat.testBit j = (byte.toNat.testBit j || decide (i = j)) := by
  have hshift : ∀ i : Fin 8, ((1 : UInt8) <<< UInt8.ofNat i.val).toNat = 2 ^ i.val := by decide
  rw [UInt8.toNat_or, Nat.testBit_or, hshift ⟨i, hi⟩, Nat.testBit_two_pow]

theorem bit_mark {bytes : Bytes} {position : Nat} (h : position < 8 * bytes.length) (k : Nat) :
    bit (mark bytes position) k = (bit bytes k || decide (position = k)) := by
  rw [mark, bit_modify (by omega)]
  split
  · next hbyte =>
    have hsame : position % 8 = k % 8 ↔ position = k := by omega
    rw [testBit_or_shiftLeft _ (Nat.mod_lt _ (by decide)), bit, hbyte, decide_eq_decide.mpr hsame]
  · next hbyte =>
    have hne : position ≠ k := fun h => hbyte (congrArg (· / 8) h.symm)
    simp [hne]

/-- Zeros in which the first `n` bits of a run have been set, one after the other. -/
def marked (bits : List Bool) : Nat → Bytes
  | 0 => List.replicate (byteCount bits.length) 0
  | n + 1 => if bits.getD n false then mark (marked bits n) n else marked bits n

theorem length_marked (bits : List Bool) (n : Nat) :
    (marked bits n).length = byteCount bits.length := by
  induction n with
  | zero => rw [marked, List.length_replicate]
  | succ n ih =>
    rw [marked]
    split
    · simpa [mark] using ih
    · exact ih

theorem bit_zeros (n k : Nat) : bit (List.replicate n 0) k = false := by
  rw [bit, List.getD_eq_getElem?_getD, List.getElem?_getD_replicate_default_eq]
  exact Nat.zero_testBit _

theorem bit_marked (bits : List Bool) {n : Nat} (h : n ≤ bits.length) (k : Nat) :
    bit (marked bits n) k = (decide (k < n) && bits.getD k false) := by
  induction n with
  | zero => simp [marked, bit_zeros]
  | succ n ih =>
    have hroom : n < 8 * (marked bits n).length := by
      rw [length_marked, byteCount]
      omega
    have hset : bit (marked bits (n + 1)) k =
        (bit (marked bits n) k || (decide (n = k) && bits.getD n false)) := by
      rw [marked]
      cases bits.getD n false with
      | true => simp [bit_mark hroom]
      | false => simp
    rw [hset, ih (Nat.le_of_succ_le h)]
    by_cases hnk : n = k
    · subst hnk
      simp
    · have hlt : k < n + 1 ↔ k < n := by omega
      simp [hnk, hlt]

/-- Packing a run comes to setting its bits one after the other. -/
theorem pack_eq_marked (bits : List Bool) : pack bits = marked bits bits.length := by
  apply ext_bit
  · rw [length_pack, length_marked]
  · intro k
    rw [bit_pack, bit_marked bits (Nat.le_refl _)]
    by_cases hk : k < bits.length
    · simp [hk]
    · rw [List.getD_eq_default _ _ (Nat.not_lt.mp hk), Bool.and_false]

/-- The first `n` bytes of a string, with zeros where it is too short. -/
def pad (bytes : Bytes) (n : Nat) : Bytes := (bytes ++ List.replicate n 0).take n

@[simp] theorem length_pad (bytes : Bytes) (n : Nat) : (pad bytes n).length = n := by
  simp [pad]

theorem bit_pad (bytes : Bytes) {n k : Nat} (h : k < 8 * n) :
    bit (pad bytes n) k = bit bytes k := by
  have hbyte : k / 8 < n := by omega
  rw [bit, bit, pad, List.getD_eq_getElem?_getD, List.getElem?_take_of_lt hbyte,
    ← List.getD_eq_getElem?_getD]
  by_cases hk : k / 8 < bytes.length
  · rw [List.getD_append _ _ _ _ hk]
  · have hle := Nat.not_lt.mp hk
    rw [List.getD_append_right _ _ _ _ hle, List.getD_eq_default _ _ hle,
      List.getD_eq_getElem?_getD, List.getElem?_getD_replicate_default_eq]

/-- As many bytes of a string as `count` bits occupy, with the bits from position `count` on
cleared. -/
def crop (bytes : Bytes) (count : Nat) : Bytes :=
  (pad bytes (byteCount count)).modify (count / 8) fun last =>
    last &&& (1 <<< UInt8.ofNat (count % 8) - 1)

@[simp] theorem length_crop (bytes : Bytes) (count : Nat) :
    (crop bytes count).length = byteCount count := by
  simp [crop]

theorem testBit_and_mask (byte : UInt8) {i : Nat} (hi : i < 8) (j : Nat) :
    (byte &&& (1 <<< UInt8.ofNat i - 1)).toNat.testBit j =
      (decide (j < i) && byte.toNat.testBit j) := by
  have hmask : ∀ i : Fin 8, ((1 : UInt8) <<< UInt8.ofNat i.val - 1).toNat = 2 ^ i.val - 1 := by
    decide
  rw [UInt8.toNat_and, Nat.testBit_and, hmask ⟨i, hi⟩, Nat.testBit_two_pow_sub_one, Bool.and_comm]

theorem bit_crop (bytes : Bytes) (count k : Nat) :
    bit (crop bytes count) k = (decide (k < count) && bit bytes k) := by
  have hcount : byteCount count = (count + 7) / 8 := rfl
  have hlength := length_pad bytes (byteCount count)
  by_cases hk : k < 8 * byteCount count
  · rw [crop, ← bit_pad bytes hk]
    by_cases hwhole : count % 8 = 0
    · -- The last bit is the last of its byte, and behind it there is no byte to be cut.
      have hlt : k < count := by omega
      rw [List.modify_eq_self (by omega)]
      simp [hlt]
    · rw [bit_modify (by omega)]
      split
      · next hlast =>
        have hlt : k % 8 < count % 8 ↔ k < count := by omega
        rw [testBit_and_mask _ (Nat.mod_lt _ (by decide)), decide_eq_decide.mpr hlt, bit, hlast]
      · next hlast =>
        have hlt : k < count := by omega
        simp [hlt]
  · have hbehind : 8 * (crop bytes count).length ≤ k := by
      rw [length_crop]
      exact Nat.not_lt.mp hk
    have hle : ¬ k < count := by omega
    simp [bit_of_length_le hbehind, hle]

theorem pack_unpack (bytes : Bytes) (count : Nat) :
    pack (unpack bytes count) = crop bytes count := by
  apply ext_bit
  · rw [length_pack, length_unpack, length_crop]
  · intro k
    rw [bit_pack, getD_unpack, bit_crop]

theorem unpack_pack (bits : List Bool) : unpack (pack bits) bits.length = bits := by
  apply List.ext_getElem?
  intro k
  by_cases hk : k < bits.length
  · rw [getElem?_unpack _ hk, bit_pack, List.getD_eq_getElem _ _ hk, List.getElem?_eq_getElem hk]
  · have hle := Nat.not_lt.mp hk
    rw [List.getElem?_eq_none hle, List.getElem?_eq_none (by rwa [length_unpack])]

theorem unpack_eq_iff {bytes others : Bytes} {count : Nat} :
    unpack bytes count = unpack others count ↔ ∀ k < count, bit bytes k = bit others k := by
  rw [unpack_eq_map, unpack_eq_map, List.map_inj_left]
  simp only [List.mem_range]

/-- Packing sets the bits of a run one after the other in as many zero bytes as they need, and
unpacking brings them back. Unpacking gives as many bits as are asked for, each from its position
and zeros from behind the bytes, and packing brings back the bytes as far as these bits reach.
Strings unpack alike if and only if they have the same bits so far. -/
theorem packing_inverse (bits : List Bool) (bytes others : Bytes) (count : Nat) :
    pack bits = marked bits bits.length ∧
    unpack (pack bits) bits.length = bits ∧
    (pack bits).length = byteCount bits.length ∧
    (∀ k, bits.length ≤ k → bit (pack bits) k = false) ∧
    (unpack bytes count).length = count ∧
    (∀ k < count, (unpack bytes count)[k]? = some (bit bytes k)) ∧
    (∀ k < count, 8 * bytes.length ≤ k → (unpack bytes count)[k]? = some false) ∧
    pack (unpack bytes count) = crop bytes count ∧
    (∀ k, bit (crop bytes count) k = (decide (k < count) && bit bytes k)) ∧
    (unpack bytes count = unpack others count ↔ ∀ k < count, bit bytes k = bit others k) := by
  refine ⟨pack_eq_marked bits, unpack_pack bits, length_pack bits, ?_, length_unpack bytes count,
    fun k hk => getElem?_unpack bytes hk, ?_, pack_unpack bytes count, bit_crop bytes count,
    unpack_eq_iff⟩
  · intro k hk
    rw [bit_pack, List.getD_eq_default _ _ hk]
  · intro k hk hbehind
    rw [getElem?_unpack bytes hk, bit_of_length_le hbehind]

/-- Eleven bits in two bytes, and ten bits of a string that is too short. -/
theorem packing_inverse_ragged :
    let bits := [true, false, true, true, false, false, true, true, true, false, true]
    bits.length ≤ 11 ∧ bit (pack bits) 11 = false ∧ 9 < 10 ∧ 8 * [0x12].length ≤ 9 ∧
      (unpack [0x12] 10)[9]? = some false ∧ pack (unpack [0x12] 10) = [0x12, 0x00] ∧
      (∀ k < 10, bit [0x12] k = bit [0x12, 0xFC] k) ∧
      unpack [0x12] 10 = unpack [0x12, 0xFC] 10 := by
  intro bits
  obtain ⟨-, -, -, hzero, -, -, hbehind, hpack, -, hiff⟩ :=
    packing_inverse bits [0x12] [0x12, 0xFC] 10
  have hsame : ∀ k < 10, bit [0x12] k = bit [0x12, 0xFC] k := by decide
  exact ⟨by decide, hzero 11 (by decide), by decide, by decide, hbehind 9 (by decide) (by decide),
    hpack.trans (by decide), hsame, hiff.mpr hsame⟩

end ModbusSlave.Bits
