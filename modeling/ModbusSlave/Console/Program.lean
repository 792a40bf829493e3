import ModbusSlave.Bench.Step
import ModbusSlave.Console.Arguments
import ModbusSlave.Console.Command
import ModbusSlave.Console.Lines

/-!
# The program

A slave with one more function, which returns the data of its request, and the commands that are
typed while it serves. The program ends with its input or when it is told to; a line that is no text
ends it with a failure.
-/
namespace ModbusSlave

namespace Program

/-- The function that returns the data of its request. -/
def echoCode : UInt8 := 0x41

def start (a : Arguments) (reachable : Bool) : Trial Memory :=
  let settings : ServerSettings :=
    { (default : ServerSettings) with unit := ⟨a.unit⟩, maxSessions := a.maxSessions }
  let t : Trial Memory := .ofSettings settings reachable
  (t.enqueue (.register echoCode Behaviour.echo.handler)).1

def change (t : Trial Memory) (f : Memory → Memory) : Trial Memory × Option Memory :=
  match t.access (fun m => (f m, f m)) true with
  | (t, .answered m) => (t, some m)
  | (t, _) => (t, none)

/-- The lines that a command prints. -/
def obey (t : Trial Memory) : Command → Trial Memory × List String
  | .quit => (t, [])
  | .decode everything =>
    let level : DecodeLevel := if everything then .everything else .nothing
    ({ t with station := { t.station with level } }, [])
  | .change f => ((change t f).1, [])
  | .look =>
    let (t, m) := change t id
    (t, (m.map Command.view).getD [])
  | .unknown => (t, ["unknown command"])

/-- The lines printed in answer to a line of input. Without an answer the program ends, with the
status that is given instead. -/
def respond (t : Trial Memory) (line : Bytes) : Except Nat (Trial Memory × List String) :=
  match Lines.text? line with
  | none => .error 1
  | some s =>
    match Command.ofText s with
    | .quit => .error 0
    | command => .ok (obey t command)

def converse (t : Trial Memory) : List Bytes → List String × Nat
  | [] => ([], 0)
  | line :: rest =>
    match respond t line with
    | .error status => ([], status)
    | .ok (t, printed) =>
      let (more, status) := converse t rest
      (printed ++ more, status)

end Program

/-- What a run of the program shows. -/
structure Sitting where
  printed : List String
  responses : List Bytes
  status : Nat

abbrev Exchange := Bytes × Nat

namespace Sitting

def exchange (t : Trial Memory) : List Exchange → Option (Trial Memory × List Bytes)
  | [] => some (t, [])
  | (bytes, expected) :: rest =>
    match t.perform (.request "far end" bytes expected) with
    | .ok (t, .bytes data) => (exchange t rest).map fun (t, more) => (t, data :: more)
    | _ => none

def serveRequests (t : Trial Memory) (requests : List Exchange) :
    Option (Trial Memory × List Bytes) :=
  if requests.isEmpty then some (t, [])
  else
    match t.perform (.listen "listener") with
    | .ok (t, .done) =>
      match t.perform (.connectTo "far end" "listener") with
      | .ok (t, .done) => exchange t requests
      | _ => none
    | _ => none

/-- The program is started with `args`, asked to show its memory, sent the requests, and then given
its input. Nothing is shown of a sitting whose requests are not answered. No serial device can be
opened. -/
def run (args : List String) (requests : List Exchange) (input : Bytes) (reachable : Bool) :
    Option Sitting :=
  match Arguments.read args with
  | .refused => some ⟨[], [], 2⟩
  | .help => some ⟨[], [], 0⟩
  | .run a =>
    if !a.canListen ∨ a.serial.isSome then some ⟨[], [], 1⟩
    else
      let (t, first) := Program.obey (Program.start a reachable) .look
      match serveRequests t requests with
      | none => none
      | some (t, responses) =>
        let (printed, status) := Program.converse t (Lines.split input)
        some ⟨first ++ printed, responses, status⟩

end Sitting

end ModbusSlave
