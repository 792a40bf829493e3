import ModbusSlave.Protocol.DecodeLevel
import ModbusSlave.Protocol.Exception
import ModbusSlave.Protocol.Function
import ModbusSlave.Protocol.Unit
import ModbusSlave.Text.Hex
import ModbusSlave.Wire.Checksum
import ModbusSlave.Wire.Word

/-!
# Frames

A request and its response are frames: a unit, a function code and data, in one of two framings. On
a network a header with a transaction number and a length goes in front; on a serial line a checksum
goes behind. The response to a frame keeps everything but the data and, for an exception, the mark
in the function code.
-/
namespace ModbusSlave

inductive Framing
  | mbap (transaction : UInt16)
  | rtu
deriving DecidableEq, Repr

structure Frame where
  framing : Framing
  unit : UnitId
  function : UInt8
  data : Bytes
deriving DecidableEq, Repr

namespace Frame

/-- The function code and its data may take this many bytes. -/
def maxPdu : Nat := 253

/-- The part of a frame that does not depend on the framing. -/
def pdu (f : Frame) : Bytes := f.function :: f.data

@[simp] theorem length_pdu (f : Frame) : f.pdu.length = f.data.length + 1 := rfl

/-- What the length field of a network header counts: the unit and the pdu. -/
def lengthField (f : Frame) : Nat := f.data.length + 2

def checksum (f : Frame) : UInt16 := Checksum.ofBytes (f.unit.value :: f.pdu)

/-- The bytes on the wire; a length that does not fit its field loses its upper bits. -/
def encode (f : Frame) : Bytes :=
  match f.framing with
  | .mbap transaction =>
    Word.big transaction ++ Word.big 0 ++ Word.big (UInt16.ofNat f.lengthField) ++
      f.unit.value :: f.pdu
  | .rtu => f.unit.value :: f.pdu ++ Word.little f.checksum

theorem length_encode (f : Frame) :
    f.encode.length = match f.framing with
      | .mbap _ => f.data.length + 8
      | .rtu => f.data.length + 4 := by
  cases h : f.framing <;> simp [encode, h, Word.big, Word.little]

def withData (f : Frame) (data : Bytes) : Frame := { f with data }

def withException (f : Frame) (e : ExceptionCode) : Frame :=
  { f with function := f.function ||| exceptionMark, data := [e.code] }

def answer (f : Frame) : Except ExceptionCode Bytes → Frame
  | .ok data => f.withData data
  | .error e => f.withException e

@[simp] theorem framing_answer (f : Frame) (r : Except ExceptionCode Bytes) :
    (f.answer r).framing = f.framing := by
  cases r <;> rfl

@[simp] theorem unit_answer (f : Frame) (r : Except ExceptionCode Bytes) :
    (f.answer r).unit = f.unit := by
  cases r <;> rfl

def headerText (f : Frame) : String :=
  match f.framing with
  | .mbap transaction =>
    "MBAP tx_id: " ++ Hex.word transaction ++ " unit: " ++ f.unit.text ++ " len: " ++
      toString f.lengthField
  | .rtu =>
    "RTU dest: " ++ f.unit.text ++ " crc: " ++ Hex.word f.checksum ++ " (payload len = " ++
      toString (f.data.length + 1) ++ ")"

/-- The framing, followed by the bytes on the wire if the level shows them. -/
def text (f : Frame) (level : FrameLevel) : String :=
  if level.showsPayload then f.headerText ++ Hex.dump f.encode else f.headerText

/-- The function, followed by as much of the data as the level shows. -/
def pduText (f : Frame) (level : AppLevel) : String :=
  functionText f.function ++
    (if level.showsHeaders then " (data len = " ++ toString f.data.length ++ ")" else "") ++
    (if level.showsValues then Hex.dump f.data else "")

end Frame

end ModbusSlave
