/-!
# The limit of sessions

A listener remembers the links it has accepted, oldest first, under numbers that are never used
again. Links that are closed no longer count. When a link comes in and there is no place for it, the
oldest ones have to go; the newcomer itself always stays.
-/
namespace ModbusSlave

structure Tracker where
  limit : Option Nat
  nextId : Nat
  /-- Number and link of each session. -/
  sessions : List (Nat × Nat)
deriving DecidableEq, Repr

namespace Tracker

def ofLimit (limit : Option Nat) : Tracker := ⟨limit, 0, []⟩

def length (t : Tracker) : Nat := t.sessions.length

/-- Those that have to go before one more fits under the limit, and those that stay. -/
def makeRoom (limit : Nat) : List (Nat × Nat) → List (Nat × Nat) × List (Nat × Nat)
  | [] => ([], [])
  | oldest :: rest =>
    if limit ≤ rest.length + 1 then
      let (gone, kept) := makeRoom limit rest
      (oldest :: gone, kept)
    else ([], oldest :: rest)

theorem makeRoom_append (limit : Nat) (sessions : List (Nat × Nat)) :
    (makeRoom limit sessions).1 ++ (makeRoom limit sessions).2 = sessions := by
  induction sessions with
  | nil => rfl
  | cons oldest rest ih =>
    unfold makeRoom
    split
    · simpa using ih
    · rfl

/-- The number of a new link, and the sessions that have to be closed for it. -/
def add (t : Tracker) (isClosed : Nat → Bool) (link : Nat) : Tracker × Nat × List (Nat × Nat) :=
  let alive := t.sessions.filter fun (_, link) => !isClosed link
  let (gone, kept) := match t.limit with
    | none => ([], alive)
    | some limit => makeRoom limit alive
  ({ t with nextId := t.nextId + 1, sessions := kept ++ [(t.nextId, link)] }, t.nextId, gone)

def clear (t : Tracker) : Tracker := { t with sessions := [] }

end Tracker

end ModbusSlave
