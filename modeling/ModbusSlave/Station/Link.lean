import ModbusSlave.Event
import ModbusSlave.Station.Lock
import ModbusSlave.Station.Pipe

/-!
# Connections

A link joins the slave with a far end by two pipes. Everything that is sent goes through its lock: a
write first finds the link open, waits for the lock, keeps the silence that a serial line asks for,
then pushes its bytes as far as there is room, and flushes them. Closing a link stops its session
and every write that has not begun; shutting it down also ends the outgoing pipe.
-/
namespace ModbusSlave

structure Link where
  incoming : Pipe
  outgoing : Pipe
  closed : Bool
  /-- A failed write leaves the link open. -/
  persistent : Bool
  /-- What has to pass between the lock and the first byte. -/
  silence : Option Duration
  lock : Lock
  /-- Everything the far end has taken out of the outgoing pipe. -/
  received : Bytes
deriving DecidableEq, Repr

namespace Link

def fresh (incoming outgoing : Nat) (persistent : Bool) (silence : Option Duration) : Link where
  incoming := .ofCapacity incoming
  outgoing := .ofCapacity outgoing
  closed := false
  persistent
  silence
  lock := .free
  received := []

def sent (l : Link) : Bytes := l.received ++ l.outgoing.content

def close (l : Link) : Link := { l with closed := true }

def release (l : Link) (p : Party) : Link := { l with lock := l.lock.leave p }

end Link

/-- How far a write has come. -/
inductive WriteStage
  | entering
  | locking
  /-- Nothing is sent before this tick. -/
  | silent (tick : Nat)
  | pushing (rest : Bytes)
deriving DecidableEq, Repr

structure Write where
  link : Nat
  bytes : Bytes
  level : PhysicalLevel
  stage : WriteStage
deriving DecidableEq, Repr

/-- What one step of a write leaves behind: the next stage or the result. -/
structure WriteStep where
  link : Link
  next : WriteStage ⊕ Except IoKind Unit
  events : List Event

namespace Write

/-- The bytes are logged when the first of them may go out. -/
def begin (w : Write) (l : Link) : WriteStep :=
  ⟨l, .inl (.pushing w.bytes), if w.level.showsLength then [.bytesSent w.level w.bytes] else []⟩

/-- The next step of a write for `party`, unless it has to wait. A write that ends gives the lock
back. -/
def step? (w : Write) (party : Party) (now : Nat) (l : Link) : Option WriteStep :=
  match w.stage with
  | .entering =>
    if l.closed then some ⟨l, .inr (.error .notConnected), []⟩
    else some ⟨{ l with lock := l.lock.request party }, .inl .locking, []⟩
  | .locking =>
    if l.lock.holder = some party then
      match l.silence with
      | none => some (w.begin l)
      | some d => some ⟨l, .inl (.silent (now + d.ticks)), []⟩
    else none
  | .silent tick => if tick ≤ now then some (w.begin l) else none
  | .pushing [] => some ⟨l.release party, .inr l.outgoing.flush, []⟩
  | .pushing (b :: rest) =>
    match l.outgoing.write? (b :: rest) with
    | none => none
    | some (.error kind) => some ⟨l.release party, .inr (.error kind), []⟩
    | some (.ok (outgoing, rest)) => some ⟨{ l with outgoing }, .inl (.pushing rest), []⟩

end Write

inductive ShutdownStage
  | entering
  | locking
deriving DecidableEq, Repr

/-- The next step of a shutdown for `party`, unless it has to wait; there is no stage behind the
last. -/
def ShutdownStage.step? (stage : ShutdownStage) (party : Party) (l : Link) :
    Option (Link × Option ShutdownStage) :=
  match stage with
  | .entering => some ({ l.close with lock := l.lock.request party }, some .locking)
  | .locking =>
    if l.lock.holder = some party then
      some ({ l.release party with outgoing := l.outgoing.close }, none)
    else none

end ModbusSlave
