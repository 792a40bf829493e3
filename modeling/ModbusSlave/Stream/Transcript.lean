import ModbusSlave.Stream.Reader

/-!
# Transcripts

Reading a script frame by frame and noting down every result. What happens after a fault is a
matter of choice: give up, start afresh, or go on where the reader is. A stream that has failed with
nothing left on its script is at its end.
-/
namespace ModbusSlave

inductive Recovery
  | stop
  | reset
  | resume
deriving DecidableEq, Repr

structure Entry where
  outcome : Except RequestFault Frame
  events : List Event

/-- At most `limit` results. -/
def Reader.transcript (limit : Nat) (r : Reader) (level : DecodeLevel) (recovery : Recovery)
    (script : Script) : List Entry :=
  match limit with
  | 0 => []
  | limit + 1 =>
    let next := r.nextFrame level script
    let entry : Entry := ⟨next.outcome, next.events⟩
    let more (r : Reader) : List Entry := r.transcript limit level recovery next.script
    match next.outcome with
    | .ok _ => entry :: more next.reader
    | .error fault =>
      let ended := match fault with
        | .io _ => next.script.isEmpty
        | _ => false
      if ended then [entry]
      else
        match recovery with
        | .stop => [entry]
        | .reset => entry :: more next.reader.reset
        | .resume => entry :: more next.reader

end ModbusSlave
