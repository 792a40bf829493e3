import ModbusSlave.Frame
import ModbusSlave.Protocol.Fault
import ModbusSlave.Stream.ReadBuffer

/-!
# Frames on a serial line

Nothing marks where a frame ends; its length follows from its function code. Standard requests have
a fixed length or carry a byte count, and any other frame is taken to be all that has arrived. The
unit is consumed as soon as the function code behind it is known, the rest when it is complete.
-/
namespace ModbusSlave.Rtu

/-- How the length of a request is found. -/
inductive Layout
  /-- So many bytes of data. -/
  | fixed (length : Nat)
  /-- So many bytes of data, the last of which counts the bytes behind it. -/
  | counted (length : Nat)
  /-- Up to the end of what has arrived. -/
  | unbounded
deriving DecidableEq, Repr

def Layout.ofCode (code : UInt8) : Layout :=
  match StandardFunction.ofCode? code with
  | some .writeMultipleCoils | some .writeMultipleRegisters => .counted 5
  | some _ => .fixed 4
  | none => .unbounded

inductive State
  | start
  | body (unit : UnitId) (dataLength : Nat)
  | count (unit : UnitId) (dataLength : Nat)
deriving DecidableEq, Repr

/-- Unit, function code and checksum. -/
def minFrame : Nat := 4

def maxFrame : Nat := 1 + Frame.maxPdu + 2

def parseBody (unit : UnitId) (dataLength : Nat) (b : ReadBuffer) :
    Except RequestFault (Option Frame) × State × ReadBuffer :=
  if Frame.maxPdu < 1 + dataLength then
    (.error (.badFrame (.frameTooLong (1 + dataLength) Frame.maxPdu)), .start, b)
  else if b.length < 1 + dataLength + 2 then (.ok none, .body unit dataLength, b)
  else
    match b.read (1 + dataLength) with
    | (.error shortage, b) => (.error (.internal shortage), .body unit dataLength, b)
    | (.ok [], b) => (.error (.badFrame (.frameTooShort 1)), .start, b)
    | (.ok (function :: data), b) =>
      match b.readLittle with
      | (.error shortage, b) => (.error (.internal shortage), .body unit dataLength, b)
      | (.ok received, b) =>
        let frame : Frame := ⟨.rtu, unit, function, data⟩
        if received = frame.checksum then (.ok (some frame), .start, b)
        else (.error (.badFrame (.checksumMismatch received frame.checksum)), .start, b)

def parseCount (unit : UnitId) (dataLength : Nat) (b : ReadBuffer) :
    Except RequestFault (Option Frame) × State × ReadBuffer :=
  if b.length < 1 + dataLength then (.ok none, .count unit dataLength, b)
  else
    match b.peek (1 + dataLength - 1) with
    | .error shortage => (.error (.internal shortage), .count unit dataLength, b)
    | .ok more => parseBody unit (dataLength + more.toNat) b

def parseLayout (layout : Layout) (unit : UnitId) (b : ReadBuffer) :
    Except RequestFault (Option Frame) × State × ReadBuffer :=
  match layout with
  | .fixed length => parseBody unit length b
  | .counted length => parseCount unit length b
  | .unbounded => parseBody unit (b.length - 1 - 2) b

/-- The unit and the layout of the next frame, once both are known. -/
def readUnit (b : ReadBuffer) : Except RequestFault (Option (Layout × UnitId)) × ReadBuffer :=
  if b.length < 2 then (.ok none, b)
  else
    match b.peek 1 with
    | .error shortage => (.error (.internal shortage), b)
    | .ok code =>
      if Layout.ofCode code = .unbounded ∧ b.length < minFrame then (.ok none, b)
      else
        match b.readByte with
        | (.error shortage, b) => (.error (.internal shortage), b)
        | (.ok unit, b) => (.ok (some (Layout.ofCode code, ⟨unit⟩)), b)

/-- The last component is the unit, if it is consumed here. -/
def parse (s : State) (b : ReadBuffer) :
    Except RequestFault (Option Frame) × State × ReadBuffer × Option UnitId :=
  match s with
  | .body unit dataLength =>
    let (outcome, s, b) := parseBody unit dataLength b
    (outcome, s, b, none)
  | .count unit dataLength =>
    let (outcome, s, b) := parseCount unit dataLength b
    (outcome, s, b, none)
  | .start =>
    match readUnit b with
    | (.error fault, b) => (.error fault, .start, b, none)
    | (.ok none, b) => (.ok none, .start, b, none)
    | (.ok (some (layout, unit)), b) =>
      let (outcome, s, b) := parseLayout layout unit b
      (outcome, s, b, some unit)

end ModbusSlave.Rtu
