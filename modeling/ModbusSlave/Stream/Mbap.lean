import ModbusSlave.Frame
import ModbusSlave.Protocol.Fault
import ModbusSlave.Stream.ReadBuffer

/-!
# Frames on a network stream

Seven bytes of header tell how many bytes follow. A header that makes no sense is reported and its
bytes are gone; a header that does is remembered until the rest of its frame has arrived.
-/
namespace ModbusSlave.Mbap

structure Header where
  transaction : UInt16
  unit : UnitId
  pduLength : Nat
deriving DecidableEq, Repr

inductive State
  | start
  | body (header : Header)
deriving DecidableEq, Repr

def headerLength : Nat := 7

def maxFrame : Nat := headerLength + Frame.maxPdu

def maxLengthField : Nat := Frame.maxPdu + 1

/-- The fields of a header, judged in the order of their fault: protocol, too long, nothing, no
function code. -/
def Header.of? (transaction protocol length : UInt16) (unit : UInt8) : Except FrameFault Header :=
  if protocol ≠ 0 then .error (.unknownProtocolId protocol)
  else if maxLengthField < length.toNat then
    .error (.mbapLengthTooBig length.toNat maxLengthField)
  else if length.toNat = 0 then .error .mbapLengthZero
  else if length.toNat = 1 then .error .missingFunctionCode
  else .ok ⟨transaction, ⟨unit⟩, length.toNat - 1⟩

def readHeader (b : ReadBuffer) : Except RequestFault Header × ReadBuffer :=
  match b.readBig with
  | (.error shortage, b) => (.error (.internal shortage), b)
  | (.ok transaction, b) =>
    match b.readBig with
    | (.error shortage, b) => (.error (.internal shortage), b)
    | (.ok protocol, b) =>
      match b.readBig with
      | (.error shortage, b) => (.error (.internal shortage), b)
      | (.ok length, b) =>
        match b.readByte with
        | (.error shortage, b) => (.error (.internal shortage), b)
        | (.ok unit, b) =>
          ((Header.of? transaction protocol length unit).mapError .badFrame, b)

def readBody (header : Header) (b : ReadBuffer) : Except RequestFault Frame × ReadBuffer :=
  match b.read header.pduLength with
  | (.error shortage, b) => (.error (.internal shortage), b)
  | (.ok [], b) => (.error (.badFrame .missingFunctionCode), b)
  | (.ok (function :: data), b) =>
    (.ok ⟨.mbap header.transaction, header.unit, function, data⟩, b)

/-- Go on behind a header: no frame yet means that more bytes are needed. -/
def parseBody (header : Header) (b : ReadBuffer) :
    Except RequestFault (Option Frame) × State × ReadBuffer :=
  if b.length < header.pduLength then (.ok none, .body header, b)
  else
    match readBody header b with
    | (.error fault, b) => (.error fault, .body header, b)
    | (.ok frame, b) => (.ok (some frame), .start, b)

def parse (s : State) (b : ReadBuffer) :
    Except RequestFault (Option Frame) × State × ReadBuffer :=
  match s with
  | .body header => parseBody header b
  | .start =>
    if b.length < headerLength then (.ok none, .start, b)
    else
      match readHeader b with
      | (.error fault, b) => (.error fault, .start, b)
      | (.ok header, b) => parseBody header b

end ModbusSlave.Mbap
