import ModbusSlave.Stream.Reader
import ModbusSlave.Station.Link

/-!
# Sessions

A session reads one link frame by frame. It parses what its reader holds, asks the link for more
when that is not enough, and hands over every frame. The decode level is looked at once for each
frame, before it is parsed for the first time. Bytes that are no frame end the session of a network
stream and are thrown away on a serial line.
-/
namespace ModbusSlave

inductive FaultPolicy
  | close
  | discard
deriving DecidableEq, Repr

/-- What a session belongs to, and so what it does when it ends. -/
inductive Role
  /-- Nothing but the reading end of the link is given up. -/
  | bare
  | port (name : String)
  /-- The link is released behind the requests that are still queued. -/
  | accepted (listener id : Nat)
deriving DecidableEq, Repr

inductive SessionPhase
  /-- About to parse; the level is missing if this is a new frame. -/
  | parsing (level : Option DecodeLevel)
  | reading (level : DecodeLevel)
  /-- Over, except for the shutdown of the link. -/
  | departing (fault : RequestFault) (stage : ShutdownStage)
  | over (fault : RequestFault)
deriving DecidableEq, Repr

structure Session where
  link : Nat
  reader : Reader
  policy : FaultPolicy
  role : Role
  phase : SessionPhase

/-- What a session wants done after a step. -/
inductive Demand
  | nothing
  | submit (frame : Frame)
  | leave (fault : RequestFault)

namespace Session

def start (link : Nat) (p : Parser) (policy : FaultPolicy) (role : Role) : Session :=
  ⟨link, .ofParser p, policy, role, .parsing none⟩

def fault? (s : Session) : Option RequestFault :=
  match s.phase with
  | .parsing _ | .reading _ => none
  | .departing fault _ | .over fault => some fault

def live (s : Session) : Bool := s.fault?.isNone

/-- Nothing is left to be done, not even the shutdown of the link. -/
def isOver (s : Session) : Bool :=
  match s.phase with
  | .over _ => true
  | _ => false

def parse (s : Session) (level : DecodeLevel) : Session × Demand × List Event :=
  let parsed := s.reader.parser.parse s.reader.buffer level.frame
  let s := { s with reader := ⟨parsed.parser, parsed.buffer⟩ }
  match parsed.outcome with
  | .ok none => ({ s with phase := .reading level }, .nothing, parsed.events)
  | .ok (some frame) => ({ s with phase := .parsing none }, .submit frame, parsed.events)
  | .error fault =>
    match fault, s.policy with
    | .badFrame frameFault, .discard =>
      ({ s with reader := s.reader.reset, phase := .parsing none }, .nothing,
        parsed.events ++ [.discarded frameFault])
    | _, _ => (s, .leave fault, parsed.events)

def receive (s : Session) (level : DecodeLevel) (got : Except IoKind Bytes) :
    Session × Demand × List Event :=
  let received := s.reader.receive level.physical got
  let s := { s with reader := received.reader }
  match received.outcome with
  | .ok _ => ({ s with phase := .parsing (some level) }, .nothing, received.events)
  | .error kind => (s, .leave (.io kind), received.events)

end Session

end ModbusSlave
