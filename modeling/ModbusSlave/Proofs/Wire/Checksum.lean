import Mathlib.Tactic.Ring
import ModbusSlave.Proofs.Wire.Positions
import ModbusSlave.Wire.Checksum

/-!
# The checksum is linear

The register takes in bits one by one, and what it holds is linear in them. Two strings of bytes
that carry the same checksum therefore differ by bits that leave nothing in a register of zeros. Of
those there are none within sixteen consecutive bits, since no shift loses a register that is not
zero.
-/
namespace ModbusSlave

namespace Bits

theorem value_append (bits others : List Bool) :
    value (bits ++ others) = value bits + 2 ^ bits.length * value others := by
  induction bits with
  | nil => simp [value]
  | cons bit bits ih =>
    simp only [List.cons_append, value, ih, List.length_cons, Nat.pow_succ]
    ring

theorem value_ofByte (b : UInt8) : value (ofByte b) = b.toNat := by
  apply Nat.eq_of_testBit_eq
  intro k
  rw [testBit_value, List.getD_eq_getElem?_getD]
  by_cases hk : k < 8
  · rw [getElem?_ofByte b hk, Option.getD_some]
  · have hle := Nat.not_lt.mp hk
    rw [List.getElem?_eq_none (by rwa [length_ofByte]), Option.getD_none, testBit_of_le b hle]

theorem length_flatMap_ofByte (bytes : Bytes) :
    (bytes.flatMap ofByte).length = 8 * bytes.length := by
  induction bytes with
  | nil => rfl
  | cons b bytes ih =>
    simp only [List.flatMap_cons, List.length_append, ih, length_ofByte, List.length_cons]
    ring

theorem getD_zipWith_ofByte {bytes others : Bytes} (h : bytes.length = others.length) (k : Nat) :
    (List.zipWith xor (bytes.flatMap ofByte) (others.flatMap ofByte)).getD k false =
      xor (bit bytes k) (bit others k) := by
  rw [← getD_flatMap_ofByte, ← getD_flatMap_ofByte]
  simp only [List.getD_eq_getElem?_getD, List.getElem?_zipWith]
  have hlength := length_flatMap_ofByte bytes
  rw [h, ← length_flatMap_ofByte others] at hlength
  by_cases hk : k < (others.flatMap ofByte).length
  · rw [List.getElem?_eq_getElem hk, List.getElem?_eq_getElem (hlength ▸ hk)]
    rfl
  · rw [List.getElem?_eq_none (Nat.not_lt.mp hk),
      List.getElem?_eq_none (hlength ▸ Nat.not_lt.mp hk)]
    rfl

theorem value_little (w : UInt16) : value ((Word.little w).flatMap ofByte) = w.toNat := by
  have hbytes : (Word.little w).flatMap ofByte = ofByte (Word.low w) ++ ofByte (Word.high w) := by
    simp [Word.little]
  rw [hbytes, value_append, value_ofByte, value_ofByte, length_ofByte, Word.toNat_low,
    Word.toNat_high]
  omega

end Bits

namespace Checksum

/-- What a shift takes off a register. -/
def feedback (x : UInt16) : UInt16 := if x.toNat.testBit 0 then generator else 0

theorem shift_eq (x : UInt16) : shift x = (x >>> 1) ^^^ feedback x := by
  have hodd : x &&& 1 = 1 ↔ x.toNat.testBit 0 = true := by
    rw [← UInt16.toNat_inj, UInt16.toNat_and, Nat.testBit_zero, decide_eq_true_iff]
    simp
  simp only [shift, feedback, hodd]
  split <;> simp

theorem feedback_xor (x y : UInt16) : feedback (x ^^^ y) = feedback x ^^^ feedback y := by
  simp only [feedback, UInt16.toNat_xor, Nat.testBit_xor]
  cases x.toNat.testBit 0 <;> cases y.toNat.testBit 0 <;> simp

@[simp] theorem shift_zero : shift 0 = 0 := rfl

theorem shift_xor (x y : UInt16) : shift (x ^^^ y) = shift x ^^^ shift y := by
  rw [shift_eq, shift_eq, shift_eq, UInt16.shiftRight_xor, feedback_xor]
  ac_rfl

/-- No shift loses a register that is not zero: the generator has the highest bit, and what has been
moved down has not. -/
theorem shift_eq_zero {x : UInt16} (h : shift x = 0) : x = 0 := by
  have hlt := x.toNat_lt
  have hmoved : x.toNat / 2 = (feedback x).toNat := by
    rw [shift_eq, UInt16.xor_eq_zero_iff, ← UInt16.toNat_inj] at h
    simpa [Nat.shiftRight_eq_div_pow] using h
  apply UInt16.toNat_inj.mp
  rw [UInt16.toNat_zero]
  cases hodd : x.toNat.testBit 0 with
  | true =>
    rw [feedback, if_pos hodd] at hmoved
    have hhigh : generator.toNat = 40961 := rfl
    omega
  | false =>
    simp only [feedback, hodd, Bool.false_eq_true, if_false, UInt16.toNat_zero] at hmoved
    simp only [Nat.testBit_zero, decide_eq_false_iff_not] at hodd
    omega

@[simp] theorem shifts_zero_right (n : Nat) : shifts n 0 = 0 := by
  induction n with
  | zero => rfl
  | succ n ih => simpa [shifts] using ih

theorem shifts_eq_zero {n : Nat} {x : UInt16} (h : shifts n x = 0) : x = 0 := by
  induction n generalizing x with
  | zero => exact h
  | succ n ih => exact shift_eq_zero (ih h)

def takeBit (register : UInt16) (bit : Bool) : UInt16 := shift (register ^^^ bit.toUInt16)

theorem foldl_takeBit_of_zeros {bits : List Bool} (h : ∀ bit ∈ bits, bit = false) (x : UInt16) :
    bits.foldl takeBit x = shifts bits.length x := by
  induction bits generalizing x with
  | nil => rfl
  | cons bit bits ih =>
    obtain rfl := h bit List.mem_cons_self
    have hbit : takeBit x false = shift x := by simp [takeBit, Bool.toUInt16]
    rw [List.foldl_cons, hbit, ih (fun b hb => h b (List.mem_cons_of_mem _ hb))]
    rfl

theorem toNat_value {bits : List Bool} (h : bits.length ≤ 16) :
    (UInt16.ofNat (Bits.value bits)).toNat = Bits.value bits := by
  apply UInt16.toNat_ofNat_of_lt'
  apply Nat.lt_of_lt_of_le (Bits.value_lt _)
  exact Nat.pow_le_pow_right (by decide) h

theorem shift_value {bit : Bool} {bits : List Bool} (h : bits.length ≤ 15) :
    shift (UInt16.ofNat (Bits.value (bit :: bits))) =
      shift bit.toUInt16 ^^^ UInt16.ofNat (Bits.value bits) := by
  have hword : (UInt16.ofNat (Bits.value (bit :: bits))).toNat = Bits.value (bit :: bits) :=
    toNat_value (Nat.succ_le_succ h)
  have hmoved : UInt16.ofNat (Bits.value (bit :: bits)) >>> 1 = UInt16.ofNat (Bits.value bits) := by
    have hhalf : Bits.value (bit :: bits) / 2 = Bits.value bits := by
      have := Bool.toNat_lt bit
      simp only [Bits.value]
      omega
    rw [← hhalf, ← hword]
    apply UInt16.toNat_inj.mp
    simp [Nat.shiftRight_eq_div_pow]
    omega
  have hfeedback : feedback (UInt16.ofNat (Bits.value (bit :: bits))) = shift bit.toUInt16 := by
    rw [feedback, hword, Bits.testBit_value]
    cases bit <;> rfl
  rw [shift_eq, hmoved, hfeedback, UInt16.xor_comm]

theorem foldl_takeBit {bits : List Bool} (h : bits.length ≤ 16) (x : UInt16) :
    bits.foldl takeBit x = shifts bits.length (x ^^^ UInt16.ofNat (Bits.value bits)) := by
  induction bits generalizing x with
  | nil => simp [Bits.value, shifts]
  | cons bit bits ih =>
    rw [List.length_cons] at h
    rw [List.foldl_cons, ih (by omega), takeBit, List.length_cons, shifts, shift_xor, shift_xor,
      shift_value (by omega), UInt16.xor_assoc]

/-- Taking in bits is linear. -/
theorem foldl_takeBit_xor {bits others : List Bool} (h : bits.length = others.length)
    (x y : UInt16) :
    (List.zipWith xor bits others).foldl takeBit (x ^^^ y) =
      bits.foldl takeBit x ^^^ others.foldl takeBit y := by
  induction bits generalizing others x y with
  | nil =>
    obtain rfl := List.eq_nil_of_length_eq_zero h.symm
    rfl
  | cons bit bits ih =>
    cases others with
    | nil => simp at h
    | cons other others =>
      have hbit : takeBit (x ^^^ y) (xor bit other) = takeBit x bit ^^^ takeBit y other := by
        have hxor : (xor bit other).toUInt16 = bit.toUInt16 ^^^ other.toUInt16 := by
          cases bit <;> cases other <;> rfl
        rw [takeBit, takeBit, takeBit, ← shift_xor, hxor]
        congr 1
        ac_rfl
      simp only [List.zipWith_cons_cons, List.foldl_cons, hbit]
      exact ih (by simpa using h) _ _

theorem absorb_eq (x : UInt16) (b : UInt8) : absorb x b = (Bits.ofByte b).foldl takeBit x := by
  rw [foldl_takeBit (by simp), Bits.value_ofByte, Bits.length_ofByte, absorb]
  simp

theorem foldl_absorb (bytes : Bytes) (x : UInt16) :
    bytes.foldl absorb x = (bytes.flatMap Bits.ofByte).foldl takeBit x := by
  induction bytes generalizing x with
  | nil => rfl
  | cons b bytes ih => rw [List.foldl_cons, List.flatMap_cons, List.foldl_append, ih, absorb_eq]

/-- A string of bytes leaves nothing in the register exactly if it ends with its checksum. -/
theorem foldl_absorb_little (bytes : Bytes) (w : UInt16) :
    (bytes ++ Word.little w).foldl absorb start = 0 ↔ w = ofBytes bytes := by
  have hbits : (Word.little w).foldl absorb (ofBytes bytes) = shifts 16 (ofBytes bytes ^^^ w) := by
    rw [foldl_absorb, foldl_takeBit (by simp [Word.little]), Bits.value_little]
    simp [Word.little]
  rw [List.foldl_append, ← ofBytes, hbits]
  constructor
  · intro h
    exact (UInt16.xor_eq_zero_iff.mp (shifts_eq_zero h)).symm
  · rintro rfl
    simp

section

variable {bits : List Bool} {k : Nat} (set : bits.getD k false = true)
include set

/-- A burst within the first sixteen bits leaves itself in the register, and the zeros behind it
only shift it. -/
theorem foldl_takeBit_of_front (within : ∀ k, bits.getD k false = true → k < 16) :
    bits.foldl takeBit 0 ≠ 0 := by
  have hzeros : ∀ bit ∈ bits.drop 16, bit = false := by
    intro bit hbit
    obtain ⟨j, hj⟩ := List.mem_iff_getElem?.mp hbit
    rw [List.getElem?_drop] at hj
    cases bit with
    | false => rfl
    | true =>
      have := within (16 + j) (by rw [List.getD_eq_getElem?_getD, hj, Option.getD_some])
      omega
  have hk := within k set
  have hvalue : (Bits.value (bits.take 16)).testBit k = true := by
    rw [Bits.testBit_value, List.getD_eq_getElem?_getD, List.getElem?_take_of_lt hk,
      ← List.getD_eq_getElem?_getD, set]
  intro h
  rw [← List.take_append_drop 16 bits, List.foldl_append, foldl_takeBit_of_zeros hzeros,
    foldl_takeBit (List.length_take_le 16 bits), UInt16.zero_xor] at h
  have hword := congrArg UInt16.toNat (shifts_eq_zero (shifts_eq_zero h))
  rw [toNat_value (List.length_take_le 16 bits), UInt16.toNat_zero] at hword
  simp [hword] at hvalue

/-- Zeros in front of a burst do not change the register at all. -/
theorem foldl_takeBit_ne_zero {first : Nat}
    (within : ∀ k, bits.getD k false = true → first ≤ k ∧ k < first + 16) :
    bits.foldl takeBit 0 ≠ 0 := by
  induction first generalizing bits k with
  | zero => exact foldl_takeBit_of_front set fun j hj => by simpa using (within j hj).2
  | succ first ih =>
    cases bits with
    | nil => simp at set
    | cons bit bits =>
      have hbit : bit = false := by
        cases bit with
        | false => rfl
        | true => simpa using within 0 rfl
      have hk := (within k set).1
      obtain ⟨j, rfl⟩ : ∃ j, k = j + 1 := ⟨k - 1, by omega⟩
      have hzero : takeBit 0 bit = 0 := by rw [hbit]; rfl
      rw [List.foldl_cons, hzero]
      refine ih set fun i hi => ?_
      have := within (i + 1) hi
      omega

end

end Checksum

/-- Strings of as many bytes that differ, but only within sixteen consecutive bits. -/
structure Burst (sent received : Bytes) : Prop where
  length : received.length = sent.length
  differs : ∃ k, Bits.bit received k ≠ Bits.bit sent k
  within : ∃ first, ∀ k, Bits.bit received k ≠ Bits.bit sent k → first ≤ k ∧ k < first + 16

namespace Burst

open Checksum

variable {sent received : Bytes}

theorem of_bits {first : Nat} (length : received.length = sent.length)
    (differs : ∃ k, Bits.bit received k ≠ Bits.bit sent k)
    (within : ∀ k < 8 * sent.length, Bits.bit received k ≠ Bits.bit sent k →
      first ≤ k ∧ k < first + 16) : Burst sent received := by
  refine ⟨length, differs, first, ?_⟩
  intro k hk
  refine within k (Nat.lt_of_not_le fun hlong => hk ?_) hk
  rw [Bits.bit_of_length_le hlong, Bits.bit_of_length_le (length ▸ hlong)]

theorem foldl_absorb_ne (h : Burst sent received) (x : UInt16) :
    received.foldl absorb x ≠ sent.foldl absorb x := by
  have hlength : (received.flatMap Bits.ofByte).length = (sent.flatMap Bits.ofByte).length := by
    rw [Bits.length_flatMap_ofByte, Bits.length_flatMap_ofByte, h.length]
  have hbits : ∀ k, (List.zipWith xor (received.flatMap Bits.ofByte)
      (sent.flatMap Bits.ofByte)).getD k false = true ↔
        Bits.bit received k ≠ Bits.bit sent k := by
    intro k
    rw [Bits.getD_zipWith_ofByte h.length]
    exact bne_iff_ne
  obtain ⟨k, hk⟩ := h.differs
  obtain ⟨first, hwithin⟩ := h.within
  have hne := foldl_takeBit_ne_zero ((hbits k).mpr hk) fun j hj => hwithin j ((hbits j).mp hj)
  have hlinear := foldl_takeBit_xor hlength x x
  rw [UInt16.xor_self, ← foldl_absorb, ← foldl_absorb] at hlinear
  rw [hlinear] at hne
  intro heq
  exact hne (UInt16.xor_eq_zero_iff.mpr heq)

theorem checksum_ne {bytes others : Bytes} {w : UInt16}
    (h : Burst (bytes ++ Word.little (ofBytes bytes)) (others ++ Word.little w)) :
    w ≠ ofBytes others := by
  have hsent := (foldl_absorb_little bytes (ofBytes bytes)).mpr rfl
  have hreceived := h.foldl_absorb_ne start
  rw [hsent] at hreceived
  exact fun hw => hreceived ((foldl_absorb_little others w).mpr hw)

end Burst

end ModbusSlave
