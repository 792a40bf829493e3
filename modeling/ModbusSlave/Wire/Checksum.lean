import ModbusSlave.Wire.Word

/-!
# The checksum of a serial frame

The sixteen-bit cyclic redundancy check of serial lines, computed bit by bit with the generator in
reflected form. The register starts with all ones, takes in each byte least significant bit first,
and is not inverted at the end.
-/
namespace ModbusSlave.Checksum

/-- The generator `x^16 + x^15 + x^2 + 1`, least significant coefficient in the highest bit. -/
def generator : UInt16 := 0xA001

/-- One bit leaves the register; the generator is taken off when that bit is set. -/
def shift (register : UInt16) : UInt16 :=
  if register &&& 1 = 1 then (register >>> 1) ^^^ generator else register >>> 1

def shifts : Nat → UInt16 → UInt16
  | 0, register => register
  | n + 1, register => shifts n (shift register)

def absorb (register : UInt16) (b : UInt8) : UInt16 := shifts 8 (register ^^^ b.toUInt16)

def start : UInt16 := 0xFFFF

/-- The checksum of the bytes of a frame that stand before it. -/
def ofBytes (bytes : Bytes) : UInt16 := bytes.foldl absorb start

/-- The check value of CRC-16/MODBUS, which is the checksum of the digits from 1 to 9. -/
example : ofBytes [0x31, 0x32, 0x33, 0x34, 0x35, 0x36, 0x37, 0x38, 0x39] = 0x4B37 := by cbv

theorem ofBytes_append (front back : Bytes) :
    ofBytes (front ++ back) = back.foldl absorb (ofBytes front) := by
  simp [ofBytes]

end ModbusSlave.Checksum
