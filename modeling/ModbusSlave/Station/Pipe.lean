import ModbusSlave.Protocol.Fault
import ModbusSlave.Wire.Word

/-!
# Pipes

One direction of a connection: bytes that have been written and not yet read, up to a capacity. A
closed pipe takes nothing in and still gives out what it holds. A broken pipe fails on both ends
with the fault of the medium. Where an end has to wait for the other one, there is no result.
-/
namespace ModbusSlave

structure Pipe where
  capacity : Nat
  content : Bytes
  closed : Bool
  broken : Option IoKind
deriving DecidableEq, Repr

namespace Pipe

def ofCapacity (capacity : Nat) : Pipe := ⟨capacity, [], false, none⟩

def room (p : Pipe) : Nat := p.capacity - p.content.length

def close (p : Pipe) : Pipe := { p with closed := true }

/-- Put in as much as there is room for; the second component is what did not fit. -/
def write? (p : Pipe) (bytes : Bytes) : Option (Except IoKind (Pipe × Bytes)) :=
  match p.broken with
  | some kind => some (.error kind)
  | none =>
    if p.closed then some (.error .brokenPipe)
    else if p.room = 0 then none
    else
      some (.ok ({ p with content := p.content ++ bytes.take p.room }, bytes.drop p.room))

/-- See to it that all that has been put in is on its way. -/
def flush (p : Pipe) : Except IoKind Unit :=
  match p.broken with
  | some kind => .error kind
  | none => .ok ()

/-- Take out `room` bytes at most; none at all mean that nothing will come any more. -/
def read? (p : Pipe) (room : Nat) : Option (Except IoKind Bytes × Pipe) :=
  match p.broken, p.content with
  | some kind, _ => some (.error kind, p)
  | none, [] => if p.closed then some (.ok [], p) else none
  | none, x :: content =>
    some (.ok ((x :: content).take room), { p with content := (x :: content).drop room })

theorem content_write? {p q : Pipe} {bytes rest : Bytes}
    (h : p.write? bytes = some (.ok (q, rest))) :
    q.content ++ rest = p.content ++ bytes := by
  unfold write? at h
  split at h
  · simp at h
  · split at h
    · simp at h
    · split at h
      · simp at h
      · simp only [Option.some.injEq, Except.ok.injEq, Prod.mk.injEq] at h
        obtain ⟨rfl, rfl⟩ := h
        simp

theorem content_read? {p q : Pipe} {room : Nat} {bytes : Bytes}
    (h : p.read? room = some (.ok bytes, q)) : bytes ++ q.content = p.content := by
  unfold read? at h
  split at h
  · simp at h
  · next hc =>
    split at h
    · simp only [Option.some.injEq, Prod.mk.injEq, Except.ok.injEq] at h
      obtain ⟨rfl, rfl⟩ := h
      simp
    · simp at h
  · next hc =>
    simp only [Option.some.injEq, Prod.mk.injEq, Except.ok.injEq] at h
    obtain ⟨rfl, rfl⟩ := h
    rw [hc]
    exact List.take_append_drop _ _

end Pipe

end ModbusSlave
