import ModbusSlave.Protocol.Fault
import ModbusSlave.Wire.Word

/-!
# Scripted streams

A stream whose reads are laid down in advance: it delivers its chunks one after the other and has
ended when none is left. A chunk that does not fit the room of a read stays in front with the rest
of its bytes, and a chunk without bytes reads like the end.
-/
namespace ModbusSlave

inductive Chunk
  | bytes (content : Bytes)
  | failure (kind : IoKind)
deriving DecidableEq, Repr

abbrev Script := List Chunk

namespace Script

def read (room : Nat) : Script → Except IoKind Bytes × Script
  | [] => (.ok [], [])
  | .failure kind :: rest => (.error kind, rest)
  | .bytes content :: rest =>
    if content.length ≤ room then (.ok content, rest)
    else (.ok (content.take room), .bytes (content.drop room) :: rest)

/-- All the bytes that a script delivers. -/
def content : Script → Bytes
  | [] => []
  | .failure _ :: rest => content rest
  | .bytes bytes :: rest => bytes ++ content rest

theorem content_read {room : Nat} {s rest : Script} {bytes : Bytes}
    (h : s.read room = (.ok bytes, rest)) : s.content = bytes ++ rest.content := by
  match s with
  | [] =>
    simp only [read, Prod.mk.injEq, Except.ok.injEq] at h
    obtain ⟨rfl, rfl⟩ := h
    rfl
  | .failure kind :: s => simp [read] at h
  | .bytes c :: s =>
    simp only [read] at h
    split at h
    · simp only [Prod.mk.injEq, Except.ok.injEq] at h
      obtain ⟨rfl, rfl⟩ := h
      rfl
    · simp only [Prod.mk.injEq, Except.ok.injEq] at h
      obtain ⟨rfl, rfl⟩ := h
      simp only [content]
      rw [← List.append_assoc, List.take_append_drop]

end Script

end ModbusSlave
