import ModbusSlave.Dispatch
import ModbusSlave.Protocol.DecodeLevel

/-!
# The service

The unit, its memory and its handlers, and what becomes of each message that reaches them. Messages
are handled one after the other; what a message asks of the world outside the service is its effect.
`σ` is the type of the states of handlers and `ρ` that of the answers to memory accesses.
-/
namespace ModbusSlave

inductive Message (σ ρ : Type)
  | request (link : Nat) (frame : Frame)
  | register (code : UInt8) (handler : Handler σ)
  | unregister (code : UInt8)
  /-- The answer is meant for the call of that number. -/
  | access (call : Nat) (run : Memory → Memory × ρ)
  /-- Shut a link down behind everything that is queued before. -/
  | release (link : Nat)
  | stop

inductive Effect (ρ : Type)
  | nothing
  | respond (link : Nat) (response : Frame)
  | answer (call : Nat) (result : ρ)
  | release (link : Nat)
  | stop

structure Service (σ : Type) where
  unit : UnitId
  memory : Memory
  table : DispatchTable σ

namespace Service

variable {σ ρ : Type}

def respond (s : Service σ) (request : Frame) : Service σ × Frame × List Event :=
  let (reply, events) := s.table.serve s.memory request
  ({ s with memory := reply.memory, table := reply.state }, request.answer reply.result, events)

/-- Requests for other units are ignored, the broadcast among them. -/
def handle (s : Service σ) (level : DecodeLevel) :
    Message σ ρ → Service σ × Effect ρ × List Event
  | .request link frame =>
    if frame.unit = s.unit then
      let (after, response, events) := s.respond frame
      let shown (event : Event) (enabled : Bool) : List Event := if enabled then [event] else []
      (after, .respond link response,
        shown (.requestReceived level.app frame) level.app.showsCode ++ events ++
          shown (.responseSent level.app response) level.app.showsCode ++
          shown (.frameSent level.frame response) level.frame.showsHeader)
    else (s, .nothing, [.foreignUnit frame.unit s.unit])
  | .register code handler =>
    ({ s with table := s.table.register code handler }, .nothing, [.registered code])
  | .unregister code => ({ s with table := s.table.unregister code }, .nothing, [.removed code])
  | .access call run =>
    let (memory, result) := run s.memory
    ({ s with memory }, .answer call result, [])
  | .release link => (s, .release link, [])
  | .stop => (s, .stop, [.workerStopped])

end Service

end ModbusSlave
