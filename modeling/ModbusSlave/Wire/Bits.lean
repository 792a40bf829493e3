import ModbusSlave.Wire.Word

/-!
# Packed bits

Coils and discrete inputs travel eight to a byte, the first of them in the least significant bit.
The last byte of a run is filled up with zeros, and a run that is longer than the bytes it is read
from continues with zeros.
-/
namespace ModbusSlave.Bits

def byteCount (count : Nat) : Nat := (count + 7) / 8

/-- The number whose binary digits, least significant first, are `bits`. -/
def value : List Bool → Nat
  | [] => 0
  | b :: bits => b.toNat + 2 * value bits

theorem value_lt (bits : List Bool) : value bits < Nat.pow 2 bits.length := by
  induction bits with
  | nil => simp [value]
  | cons b bits ih =>
    have : b.toNat ≤ 1 := Bool.toNat_le b
    simp only [value, List.length_cons, Nat.pow_eq, Nat.pow_succ] at ih ⊢
    omega

/-- Eight bits to a byte, the first in the least significant place. -/
def pack (bits : List Bool) : Bytes :=
  match bits with
  | [] => []
  | b :: rest => UInt8.ofNat (value ((b :: rest).take 8)) :: pack ((b :: rest).drop 8)
termination_by bits.length

theorem length_pack (bits : List Bool) : (pack bits).length = byteCount bits.length := by
  fun_induction pack bits with
  | case1 => rfl
  | case2 b rest ih =>
    simp only [List.length_cons, ih, List.length_drop, byteCount]
    omega

def ofByte (b : UInt8) : List Bool := (List.range 8).map b.toNat.testBit

@[simp] theorem length_ofByte (b : UInt8) : (ofByte b).length = 8 := by simp [ofByte]

/-- The first `count` bits of a byte string, zero where the string is too short. -/
def unpack (bytes : Bytes) (count : Nat) : List Bool :=
  (bytes.flatMap ofByte ++ List.replicate count false).take count

@[simp] theorem length_unpack (bytes : Bytes) (count : Nat) :
    (unpack bytes count).length = count := by
  simp [unpack]

end ModbusSlave.Bits
