import ModbusSlave.Text.Hex

/-!
# Unit identifiers

A frame names the unit it is meant for. Zero is the broadcast address of serial lines, and the
addresses from 248 on are reserved there.
-/
namespace ModbusSlave

structure UnitId where
  value : UInt8
deriving DecidableEq, Repr

namespace UnitId

instance : Inhabited UnitId := ⟨⟨1⟩⟩

def broadcast : UnitId := ⟨0⟩

def isReserved (u : UnitId) : Bool := 248 ≤ u.value

def text (u : UnitId) : String := Hex.byte u.value

end UnitId

end ModbusSlave
