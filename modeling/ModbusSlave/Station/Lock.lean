/-!
# Locks

At most one party holds a lock; the others wait in the order in which they asked for it. A party
that gives up, whether it holds the lock or still waits, leaves its place to the next.
-/
namespace ModbusSlave

/-- Those who write to a connection or shut it down. -/
inductive Party
  | worker
  | writer (index : Nat)
  | session (index : Nat)
  | closer
deriving DecidableEq, Repr

structure Lock where
  holder : Option Party
  waiting : List Party
deriving DecidableEq, Repr

namespace Lock

def free : Lock := ⟨none, []⟩

def request (l : Lock) (p : Party) : Lock :=
  match l.holder with
  | none => { l with holder := some p }
  | some _ => { l with waiting := l.waiting ++ [p] }

def leave (l : Lock) (p : Party) : Lock :=
  if l.holder = some p then ⟨l.waiting.head?, l.waiting.tail⟩
  else { l with waiting := l.waiting.filter (· ≠ p) }

end Lock

end ModbusSlave
