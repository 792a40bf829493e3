import ModbusSlave.Event
import ModbusSlave.Stream.Mbap
import ModbusSlave.Stream.ReadBuffer
import ModbusSlave.Stream.Rtu
import ModbusSlave.Stream.Script

/-!
# Reading frames

A reader joins a parser with the buffer it parses. It is asked for the next frame again and again:
it parses what is there and takes in more when that is not enough. The parser and the buffer keep
what belongs to an unfinished frame between reads, and an error on the stream costs nothing that has
been received.
-/
namespace ModbusSlave

/-- How far the parsing of the current frame has come, for each framing. -/
inductive Parser
  | mbap (state : Mbap.State)
  | rtu (state : Rtu.State)
deriving DecidableEq, Repr

/-- What a parser makes of a buffer; no frame means that more bytes are needed. -/
structure Parsed where
  outcome : Except RequestFault (Option Frame)
  parser : Parser
  buffer : ReadBuffer
  events : List Event

namespace Parser

def maxFrame : Parser → Nat
  | mbap _ => Mbap.maxFrame
  | rtu _ => Rtu.maxFrame

def reset : Parser → Parser
  | mbap _ => .mbap .start
  | rtu _ => .rtu .start

/-- A frame is logged when it is complete, a reserved unit when it is consumed. -/
def parse (p : Parser) (b : ReadBuffer) (level : FrameLevel) : Parsed :=
  let received (outcome : Except RequestFault (Option Frame)) : List Event :=
    match outcome with
    | .ok (some frame) => if level.showsHeader then [.frameReceived level frame] else []
    | _ => []
  match p with
  | mbap state =>
    let (outcome, state, b) := Mbap.parse state b
    ⟨outcome, .mbap state, b, received outcome⟩
  | rtu state =>
    let (outcome, state, b, unit?) := Rtu.parse state b
    let reserved := (unit?.filter (·.isReserved)).toList.map Event.reservedUnit
    ⟨outcome, .rtu state, b, reserved ++ received outcome⟩

end Parser

structure Reader where
  parser : Parser
  buffer : ReadBuffer

structure Received where
  outcome : Except IoKind Nat
  reader : Reader
  events : List Event

structure Next where
  outcome : Except RequestFault Frame
  reader : Reader
  script : Script
  events : List Event

namespace Reader

def ofParser (p : Parser) : Reader := ⟨p, .ofCapacity p.maxFrame⟩

/-- Forget an unfinished frame and everything that waits. -/
def reset (r : Reader) : Reader := ⟨r.parser.reset, r.buffer.clear⟩

def room (r : Reader) : Nat := r.buffer.prepare.room

/-- Take in what one read delivered, `room` bytes at most. Every read that does not fail is logged,
the one that finds the end of the stream as well. -/
def receive (r : Reader) (level : PhysicalLevel) (got : Except IoKind Bytes) : Received :=
  let (outcome, buffer) := r.buffer.prepare.receive got
  let events := match got with
    | .ok bytes => if level.showsLength then [.bytesReceived level bytes] else []
    | .error _ => []
  ⟨outcome, { r with buffer }, events⟩

theorem ne_nil_of_receive {r : Reader} {level : PhysicalLevel} {got : Except IoKind Bytes}
    {n : Nat} (h : (r.receive level got).outcome = .ok n) : ∃ x bytes, got = .ok (x :: bytes) := by
  match got with
  | .error kind => simp [receive, ReadBuffer.receive] at h
  | .ok [] => simp [receive, ReadBuffer.receive] at h
  | .ok (x :: bytes) => exact ⟨x, bytes, rfl⟩

/-- Parse and read in turn until a frame is complete or something fails. Each further round has
taken bytes off the script. -/
def nextFrame (r : Reader) (level : DecodeLevel) (script : Script) : Next :=
  let parsed := r.parser.parse r.buffer level.frame
  let r : Reader := ⟨parsed.parser, parsed.buffer⟩
  match parsed.outcome with
  | .error fault => ⟨.error fault, r, script, parsed.events⟩
  | .ok (some frame) => ⟨.ok frame, r, script, parsed.events⟩
  | .ok none =>
    let got := script.read r.room
    let received := r.receive level.physical got.1
    match h : received.outcome with
    | .error kind =>
      ⟨.error (.io kind), received.reader, got.2, parsed.events ++ received.events⟩
    | .ok _ =>
      have : got.2.content.length < script.content.length := by
        obtain ⟨x, bytes, hx⟩ := ne_nil_of_receive h
        have hread : script.read r.room = (.ok (x :: bytes), got.2) := Prod.ext hx rfl
        rw [Script.content_read hread, List.length_append, List.length_cons]
        omega
      let next := received.reader.nextFrame level got.2
      { next with events := parsed.events ++ received.events ++ next.events }
termination_by script.content.length

end Reader

end ModbusSlave
