import ModbusSlave.Station.Action

/-!
# The schedule

One way to give the parts of a station their turns. Whoever can go on lines up; the part at the head
of the line goes on until it has to wait, and those whom it has set free line up behind the others.
So a session takes in all that has arrived before the first of its requests is served, and a worker
that gives a lock up serves on until it has to wait itself. Time passes only while every part waits.
-/
namespace ModbusSlave.Station

variable {σ ρ : Type}

/-- The step that a part takes in its turn. A session whose link is closed stops. -/
def turn? (s : Station σ ρ) : Part → Option (Station σ ρ)
  | .session i => s.sessionStop? i <|> s.sessionStep? i
  | part => s.partStep? part

def parts (s : Station σ ρ) : List Part :=
  (List.range s.sessions.size).map .session ++ (List.range s.writers.size).map .writer ++
    (List.range s.listeners.size).map .listener ++ [.closing, .worker]

/-- Behind the line come those who can go on and have not lined up yet. -/
def lineUp (s : Station σ ρ) (line : List Part) : List Part :=
  line ++ s.parts.filter fun part => part ∉ line ∧ (s.turn? part).isSome

def advance? (s : Station σ ρ) : List Part → Option (List Part × Station σ ρ)
  | [] => none
  | part :: line =>
    match s.turn? part with
    | none => s.advance? line
    | some after => some (after.lineUp (part :: line), after)

def settleWithin : Nat → List Part → Station σ ρ → Station σ ρ
  | 0, _, s => s
  | fuel + 1, line, s =>
    match s.advance? line with
    | none => s
    | some (line, after) => settleWithin fuel line after

def unread (s : Station σ ρ) : Nat :=
  s.links.foldl (fun n l => n + l.incoming.content.length) 0 +
    s.sessions.foldl (fun n session => n + session.reader.buffer.length) 0

/-- More steps than can be taken before every part waits: a byte is read once and belongs to one
message, and neither a message nor a part takes more than a few steps of its own. -/
def settleFuel (s : Station σ ρ) : Nat :=
  16 * (s.unread + s.worker.queue.length + s.links.size + s.sessions.size + s.writers.size +
    s.listeners.size + s.ports.length + 8)

def settleFrom (s : Station σ ρ) (line : List Part) : Station σ ρ :=
  settleWithin s.settleFuel line s

def settle (s : Station σ ρ) : Station σ ρ := s.settleFrom (s.lineUp [])

def writeTimer (w : Write) : List Nat :=
  match w.stage with
  | .silent tick => [tick]
  | _ => []

def timers (s : Station σ ρ) : List Nat :=
  (match s.worker.job with
    | .writing w deadline => deadline :: writeTimer w
    | .releasing _ _ deadline => [deadline]
    | .idle | .stopped => []) ++
  (s.writers.toList.filter (·.result.isNone)).flatMap fun writer => writeTimer writer.write

def untilTimer? (s : Station σ ρ) : Option Nat :=
  (s.timers.min?).map fun tick => max 1 (tick - s.now)

/-- Let `ticks` pass, every part taking its turns whenever something happens in between. -/
def pass (ticks : Nat) (s : Station σ ρ) : Station σ ρ :=
  let s := s.settle
  match s.untilTimer? with
  | none => { s with now := s.now + ticks }
  | some n =>
    if _ : n ≤ ticks ∧ 0 < n then pass (ticks - n) { s with now := s.now + n }
    else { s with now := s.now + ticks }
termination_by ticks

def passUntil (finished : Station σ ρ → Bool) : Nat → Station σ ρ → Station σ ρ
  | 0, s => s.settle
  | fuel + 1, s =>
    let s := s.settle
    if finished s then s
    else
      match s.untilTimer? with
      | none => s
      | some n => passUntil finished fuel { s with now := s.now + n }

/-- A message waits for two timers at most, its silence and its deadline. -/
def timerFuel (s : Station σ ρ) : Nat :=
  2 * (s.unread + s.worker.queue.length + s.writers.size + 2)

end ModbusSlave.Station
