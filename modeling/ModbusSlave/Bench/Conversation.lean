import ModbusSlave.Bench.Trial

/-!
# Conversations

Far ends that send all they have to say and wait for what comes back. A pipe takes and gives only so
much at once, so both go piece by piece, and the parts of the station take their turns in between.
-/
namespace ModbusSlave

/-- What an operation of a far end comes to, unless it waits for something that never happens. -/
abbrev Attempt (α : Type) := Option (Except IoKind α)

namespace Trial

variable {ρ : Type}

def send (t : Trial ρ) (i : Nat) (bytes : Bytes) : Trial ρ × Attempt Nat :=
  match t.station.arrive? i bytes with
  | none => (t, none)
  | some (.error kind) => (t, some (.error kind))
  | some (.ok (station, n)) => ({ t with station }, some (.ok n))

/-- Send in so many pieces at most. -/
def sendWithin (t : Trial ρ) (i : Nat) : Nat → Bytes → Trial ρ × Attempt Unit
  | _, [] => (t, some (.ok ()))
  | 0, _ :: _ => (t, none)
  | pieces + 1, bytes =>
    match t.send i bytes with
    | (t, none) => (t, none)
    | (t, some (.error kind)) => (t, some (.error kind))
    | (t, some (.ok n)) =>
      sendWithin { t with station := t.station.settle } i pieces (bytes.drop n)

/-- Send everything. Every piece is a byte at least, and sending nothing always succeeds. -/
def sendAll (t : Trial ρ) (i : Nat) (bytes : Bytes) : Trial ρ × Attempt Unit :=
  t.sendWithin i bytes.length bytes

/-- Wait until something can be read, if only the end, and read `most` bytes at most. -/
def readNext (t : Trial ρ) (i most : Nat) : Trial ρ × Attempt Bytes :=
  let ready (s : Station Nat ρ) : Bool := (s.collect? i most).isSome
  let station := t.station.passUntil ready t.station.timerFuel
  match station.collect? i most with
  | none => ({ t with station }, none)
  | some (station, got) => ({ t with station }, some got)

/-- Read `missing` bytes behind those that have been read, in so many pieces at most. -/
def readWithin (t : Trial ρ) (i : Nat) : Nat → Nat → Bytes → Trial ρ × Attempt Bytes
  | _, 0, got => (t, some (.ok got))
  | 0, _ + 1, _ => (t, none)
  | pieces + 1, missing, got =>
    match t.readNext i missing with
    | (t, some (.ok [])) => (t, some (.error .unexpectedEof))
    | (t, some (.ok piece)) => readWithin t i pieces (missing - piece.length) (got ++ piece)
    | (t, failure) => (t, failure)

def readExactly (t : Trial ρ) (i expected : Nat) : Trial ρ × Attempt Bytes :=
  t.readWithin i expected expected []

def readOn (t : Trial ρ) (i : Nat) : Nat → Bytes → Trial ρ × Attempt Bytes
  | 0, _ => (t, none)
  | pieces + 1, got =>
    match t.readNext i t.outstanding with
    | (t, some (.ok [])) => (t, some (.ok got))
    | (t, some (.ok piece)) => readOn t i pieces (got ++ piece)
    | (t, failure) => (t, failure)

def readToEnd (t : Trial ρ) (i : Nat) : Trial ρ × Attempt Bytes :=
  t.readOn i (t.outstanding + 1) []

def inquire (t : Trial ρ) (i : Nat) (bytes : Bytes) (expected : Nat) : Trial ρ × Attempt Bytes :=
  match t.sendAll i bytes with
  | (t, none) => (t, none)
  | (t, some (.error kind)) => (t, some (.error kind))
  | (t, some (.ok ())) => t.readExactly i expected

end Trial

end ModbusSlave
