import ModbusSlave.Memory
import ModbusSlave.Protocol.Address
import ModbusSlave.Protocol.Function
import ModbusSlave.Wire.Bits

/-!
# The standard functions

What a standard request does to the memory and what data its response carries. A function may be
refused at any point and then leaves the memory as it is at that point; every write is checked as a
whole before the first cell changes.
-/
namespace ModbusSlave

/-- The range of a request to read, which carries nothing else. -/
def readRange (limit : Nat) (data : Bytes) : Except ExceptionCode AddressRange := do
  let (range, rest) ← AddressRange.take limit data
  finished rest
  return range

def singleWrite (data : Bytes) : Except ExceptionCode (Indexed UInt16) := do
  let (index, rest) ← takeWord data
  let (value, rest) ← takeWord rest
  finished rest
  return ⟨index, value⟩

/-- A byte that counts the bytes behind it. There have to be as many as `expected`. -/
def countedBytes (expected : Nat) (data : Bytes) : Except ExceptionCode Bytes := do
  let (count, rest) ← takeByte data
  if count.toNat ≠ expected then .error .illegalDataValue
  else
    let (values, rest) ← takeBytes count.toNat rest
    finished rest
    return values

/-- A byte that counts the bytes behind it. -/
def withCount (bytes : Bytes) : Bytes := UInt8.ofNat bytes.length :: bytes

def readBits (bank : Bank Bool) (data : Bytes) : Except ExceptionCode Bytes := do
  let range ← readRange limits.readBits data
  let bits ← bank.cells range
  return withCount (Bits.pack bits)

def readRegisters (bank : Bank UInt16) (data : Bytes) : Except ExceptionCode Bytes := do
  let range ← readRange limits.readRegisters data
  let words ← bank.cells range
  return withCount (words.flatMap Word.big)

def echo (first second : UInt16) : Bytes := Word.big first ++ Word.big second

/-- A computation on a store that may be refused. What it has changed by then stays changed. -/
abbrev Refusable (α β : Type) := ExceptT ExceptionCode (StateM α) β

def writeCoil (data : Bytes) : Refusable (Bank Bool) Bytes := do
  let request ← singleWrite data
  let value ← Coil.ofWord request.value
  set (← (← get).replaceCell request.index value)
  return echo request.index request.value

def writeRegister (data : Bytes) : Refusable (Bank UInt16) Bytes := do
  let request ← singleWrite data
  set (← (← get).replaceCell request.index request.value)
  return echo request.index request.value

/-- New values for a range of cells; `width` says how many bytes carry so many values. -/
def writeRange {α : Type} (limit : Nat) (width : Nat → Nat) (values : Bytes → Nat → List α)
    (data : Bytes) : Refusable (Bank α) Bytes := do
  let (range, rest) ← AddressRange.take limit data
  let bytes ← countedBytes (width range.count.toNat) rest
  set (← (← get).replace range (values bytes range.count.toNat))
  return echo range.start range.count

def writeCoils (data : Bytes) : Refusable (Bank Bool) Bytes :=
  writeRange limits.writeBits Bits.byteCount Bits.unpack data

def writeRegisters (data : Bytes) : Refusable (Bank UInt16) Bytes :=
  writeRange limits.writeRegisters (2 * ·) (fun bytes _ => Word.list bytes) data

def onCoils (x : Refusable (Bank Bool) Bytes) : Refusable Memory Bytes := fun m =>
  let (result, coils) := x m.coils
  (result, { m with coils })

def onHoldingRegisters (x : Refusable (Bank UInt16) Bytes) : Refusable Memory Bytes := fun m =>
  let (result, holdingRegisters) := x m.holdingRegisters
  (result, { m with holdingRegisters })

/-- What a request does to the memory, and the data of its response. -/
def StandardFunction.run (f : StandardFunction) (data : Bytes) : Refusable Memory Bytes :=
  match f with
  | .readCoils => do readBits (← get).coils data
  | .readDiscreteInputs => do readBits (← get).discreteInputs data
  | .readHoldingRegisters => do readRegisters (← get).holdingRegisters data
  | .readInputRegisters => do readRegisters (← get).inputRegisters data
  | .writeSingleCoil => onCoils (writeCoil data)
  | .writeSingleRegister => onHoldingRegisters (writeRegister data)
  | .writeMultipleCoils => onCoils (writeCoils data)
  | .writeMultipleRegisters => onHoldingRegisters (writeRegisters data)

end ModbusSlave
