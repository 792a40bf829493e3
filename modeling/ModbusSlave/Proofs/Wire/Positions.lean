import Mathlib.Tactic.SplitIfs
import ModbusSlave.Wire.Bits

/-!
# Bits and words by their position

Where the bits of a run lie in the bytes that carry them, and where the words do. A position behind
the bytes holds a zero, so that both directions of the packing agree everywhere.
-/
namespace ModbusSlave

/-- The bit at a position, counted from the least significant bit of the first byte. -/
def Bits.bit (bytes : Bytes) (position : Nat) : Bool :=
  (bytes.getD (position / 8) 0).toNat.testBit (position % 8)

/-- The word at a position, counted in words. -/
def Word.word (bytes : Bytes) (position : Nat) : UInt16 :=
  Word.join (bytes.getD (2 * position) 0) (bytes.getD (2 * position + 1) 0)

namespace Bits

theorem testBit_value (bits : List Bool) (k : Nat) :
    (value bits).testBit k = bits.getD k false := by
  induction bits generalizing k with
  | nil => simp [value]
  | cons b bits ih =>
    have hb := Bool.toNat_lt b
    cases k with
    | zero =>
      rw [value, Nat.testBit_zero, List.getD_cons_zero, Nat.add_mul_mod_self_left]
      cases b <;> rfl
    | succ k =>
      have hhalf : (b.toNat + 2 * value bits) / 2 = value bits := by omega
      rw [value, Nat.testBit_succ, hhalf, ih, List.getD_cons_succ]

theorem testBit_of_le (x : UInt8) {k : Nat} (h : 8 ≤ k) : x.toNat.testBit k = false := by
  apply Nat.testBit_lt_two_pow
  exact Nat.lt_of_lt_of_le x.toNat_lt (Nat.pow_le_pow_right (by decide) h)

theorem bit_cons_of_lt (x : UInt8) (bytes : Bytes) {k : Nat} (h : k < 8) :
    bit (x :: bytes) k = x.toNat.testBit k := by
  rw [bit, Nat.div_eq_of_lt h, Nat.mod_eq_of_lt h, List.getD_cons_zero]

theorem bit_cons_add (x : UInt8) (bytes : Bytes) (k : Nat) :
    bit (x :: bytes) (8 + k) = bit bytes k := by
  have hdiv : (8 + k) / 8 = k / 8 + 1 := by omega
  have hmod : (8 + k) % 8 = k % 8 := by omega
  rw [bit, hdiv, hmod, List.getD_cons_succ, bit]

theorem bit_of_length_le {bytes : Bytes} {k : Nat} (h : 8 * bytes.length ≤ k) :
    bit bytes k = false := by
  have hout : bytes.length ≤ k / 8 := by omega
  simp [bit, List.getElem?_eq_none hout]

/-- Packing puts every bit at its position and zeros behind the last one. -/
theorem bit_pack (bits : List Bool) (k : Nat) : bit (pack bits) k = bits.getD k false := by
  fun_induction pack bits generalizing k with
  | case1 => simp [bit]
  | case2 b rest ih =>
    by_cases hk : k < 8
    · have hlt : value ((b :: rest).take 8) < 2 ^ 8 := by
        apply Nat.lt_of_lt_of_le (value_lt _)
        exact Nat.pow_le_pow_right (by decide) (List.length_take_le 8 _)
      rw [bit_cons_of_lt _ _ hk, UInt8.toNat_ofNat', Nat.mod_eq_of_lt hlt, testBit_value,
        List.getD_eq_getElem?_getD, List.getElem?_take_of_lt hk, ← List.getD_eq_getElem?_getD]
    · obtain ⟨j, rfl⟩ := Nat.exists_eq_add_of_le (Nat.not_lt.mp hk)
      rw [bit_cons_add, ih, List.getD_eq_getElem?_getD, List.getElem?_drop,
        ← List.getD_eq_getElem?_getD]

theorem getElem?_ofByte (x : UInt8) {k : Nat} (h : k < 8) :
    (ofByte x)[k]? = some (x.toNat.testBit k) := by
  rw [ofByte, List.getElem?_map, List.getElem?_range h, Option.map_some]

theorem getD_flatMap_ofByte (bytes : Bytes) (k : Nat) :
    (bytes.flatMap ofByte).getD k false = bit bytes k := by
  induction bytes generalizing k with
  | nil => simp [bit]
  | cons x bytes ih =>
    rw [List.flatMap_cons, List.getD_eq_getElem?_getD]
    by_cases hk : k < 8
    · rw [List.getElem?_append_left (by rwa [length_ofByte]), getElem?_ofByte x hk,
        bit_cons_of_lt x bytes hk, Option.getD_some]
    · obtain ⟨j, rfl⟩ := Nat.exists_eq_add_of_le (Nat.not_lt.mp hk)
      rw [List.getElem?_append_right (by rw [length_ofByte]; omega), length_ofByte,
        Nat.add_sub_cancel_left, ← List.getD_eq_getElem?_getD, ih, bit_cons_add]

theorem getElem?_unpack (bytes : Bytes) {count k : Nat} (h : k < count) :
    (unpack bytes count)[k]? = some (bit bytes k) := by
  rw [unpack, List.getElem?_take_of_lt h, ← getD_flatMap_ofByte, List.getD_eq_getElem?_getD]
  by_cases hk : k < (bytes.flatMap ofByte).length
  · rw [List.getElem?_append_left hk, List.getElem?_eq_getElem hk, Option.getD_some]
  · have hle := Nat.not_lt.mp hk
    have hreplicate : k - (bytes.flatMap ofByte).length < count := by omega
    rw [List.getElem?_append_right hle, List.getElem?_replicate_of_lt hreplicate,
      List.getElem?_eq_none hle, Option.getD_none]

theorem unpack_eq_map (bytes : Bytes) (count : Nat) :
    unpack bytes count = (List.range count).map (bit bytes) := by
  apply List.ext_getElem?
  intro k
  by_cases hk : k < count
  · rw [getElem?_unpack bytes hk, List.getElem?_map, List.getElem?_range hk, Option.map_some]
  · have hle := Nat.not_lt.mp hk
    rw [List.getElem?_eq_none (by rwa [length_unpack]),
      List.getElem?_eq_none (by rwa [List.length_map, List.length_range])]

theorem getD_unpack (bytes : Bytes) (count k : Nat) :
    (unpack bytes count).getD k false = (decide (k < count) && bit bytes k) := by
  rw [List.getD_eq_getElem?_getD]
  by_cases hk : k < count
  · rw [getElem?_unpack bytes hk, Option.getD_some, decide_eq_true hk, Bool.true_and]
  · have hle := Nat.not_lt.mp hk
    rw [List.getElem?_eq_none (by rwa [length_unpack]), Option.getD_none, decide_eq_false hk,
      Bool.false_and]

end Bits

namespace Word

theorem getElem?_list (bytes : Bytes) {count k : Nat} (hlength : bytes.length = 2 * count)
    (h : k < count) : (list bytes)[k]? = some (word bytes k) := by
  induction count generalizing bytes k with
  | zero => exact absurd h (Nat.not_lt_zero k)
  | succ count ih =>
    match bytes with
    | [] | [_] => simp only [List.length_cons, List.length_nil] at hlength; omega
    | x :: y :: rest =>
      cases k with
      | zero => rfl
      | succ k =>
        have hrest : rest.length = 2 * count := by
          simp only [List.length_cons] at hlength
          omega
        rw [list, List.getElem?_cons_succ, ih rest hrest (Nat.lt_of_succ_lt_succ h)]
        rfl

theorem length_list (bytes : Bytes) {count : Nat} (h : bytes.length = 2 * count) :
    (list bytes).length = count := by
  induction count generalizing bytes with
  | zero =>
    rw [List.eq_nil_of_length_eq_zero h]
    rfl
  | succ count ih =>
    match bytes with
    | [] | [_] => simp only [List.length_cons, List.length_nil] at h; omega
    | x :: y :: rest =>
      have hrest : rest.length = 2 * count := by
        simp only [List.length_cons] at h
        omega
      rw [list, List.length_cons, ih rest hrest]

theorem list_eq_map {bytes : Bytes} {count : Nat} (h : bytes.length = 2 * count) :
    list bytes = (List.range count).map (word bytes) := by
  apply List.ext_getElem?
  intro k
  by_cases hk : k < count
  · rw [getElem?_list bytes h hk, List.getElem?_map, List.getElem?_range hk, Option.map_some]
  · have hle := Nat.not_lt.mp hk
    rw [List.getElem?_eq_none (by rwa [length_list bytes h]),
      List.getElem?_eq_none (by rwa [List.length_map, List.length_range])]

theorem length_flatMap_big (words : List UInt16) :
    (words.flatMap big).length = 2 * words.length := by
  induction words with
  | nil => rfl
  | cons w words ih =>
    rw [List.flatMap_cons, List.length_append, ih, List.length_cons]
    simp only [big, List.length_cons, List.length_nil]
    omega

theorem word_flatMap_big (words : List UInt16) {k : Nat} (h : k < words.length) :
    some (word (words.flatMap big) k) = words[k]? := by
  rw [← getElem?_list _ (length_flatMap_big words) h, list_flatMap_big]

end Word

end ModbusSlave
