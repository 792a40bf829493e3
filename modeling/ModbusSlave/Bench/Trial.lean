import ModbusSlave.Station.Schedule

/-!
# Trials

A station together with the far ends of its links. When a far end reads, the parts of the station
may get their turns again, and so on until nothing more comes. What has changed is listed for each
far end once.
-/
namespace ModbusSlave

/-- The far end of a link. -/
structure FarEnd where
  link : Nat
  session : Nat
  /-- It reads only when it is told to. -/
  manual : Bool
  /-- It belongs to a device, which fails as a whole once the other end is gone. -/
  device : Bool
  /-- It cannot read any more. -/
  deaf : Bool
  sawEnd : Bool
  /-- Bytes that have been read and not been listed yet. -/
  fresh : Bytes
  /-- The state it was listed with last: closed, fault of the session, end seen. -/
  listed : Bool × Option RequestFault × Bool

def FarEnd.ofLink (link session : Nat) (manual : Bool) : FarEnd where
  link
  session
  manual
  device := false
  deaf := false
  sawEnd := false
  fresh := []
  listed := (false, none, false)

/-- What a far end has to show since it was listed last. -/
structure Change where
  bytes : Bytes
  closed : Bool
  ended : Option RequestFault
  sawEnd : Bool
  /-- The end has been seen since then. -/
  newEnd : Bool
deriving DecidableEq, Repr

/-- Something came over the link, if only its end. -/
def Change.heard (c : Change) : Bool := !c.bytes.isEmpty || c.newEnd

structure Trial (ρ : Type) where
  station : Station Nat ρ
  /-- By their names, in the order of these. -/
  farEnds : List (String × FarEnd)
  /-- The links of those who have connected to a listener, by names of their own. -/
  callers : List (String × Nat)
  /-- The names of the listeners, by their position in the station. -/
  listeners : List (String × Nat)
  /-- There is a route from the far ends to the listeners. -/
  reachable : Bool

namespace Trial

variable {ρ : Type}

def ofSettings (s : ServerSettings) (reachable : Bool) : Trial ρ :=
  ⟨.ofSettings s, [], [], [], reachable⟩

def modify (t : Trial ρ) (name : String) (f : FarEnd → FarEnd) : Trial ρ :=
  { t with farEnds := t.farEnds.map fun (n, e) => (n, if n = name then f e else e) }

/-- The far end of a link goes away. -/
def abandon (t : Trial ρ) (i : Nat) : Trial ρ :=
  { t with station := (t.station.finish i).deafen i }

def drop (t : Trial ρ) (name : String) : Trial ρ :=
  match t.farEnds.lookup name with
  | some e => { t.abandon e.link with farEnds := t.farEnds.filter (·.1 ≠ name) }
  | none => t

def hangUp (t : Trial ρ) (name : String) : Trial ρ :=
  match t.callers.lookup name with
  | some i => { t.abandon i with callers := t.callers.filter (·.1 ≠ name) }
  | none => t

/-- Add a far end; one of the same name goes away. -/
def put (t : Trial ρ) (name : String) (e : FarEnd) : Trial ρ :=
  let t := t.drop name
  let before := t.farEnds.takeWhile (·.1 < name)
  { t with farEnds := before ++ (name, e) :: t.farEnds.dropWhile (·.1 < name) }

def stateOf (t : Trial ρ) (e : FarEnd) : Bool × Option RequestFault × Bool :=
  (t.station.isClosed e.link, (t.station.sessions[e.session]?).bind (·.fault?), e.sawEnd)

def readOnce? (t : Trial ρ) (name : String) (e : FarEnd) : Option (Trial ρ) := do
  if e.deaf ∨ e.sawEnd then none
  else
    let link ← t.station.links[e.link]?
    let (station, got) ← t.station.collect? e.link link.outgoing.content.length
    let t := { t with station }
    match got with
    | .ok [] => some (t.modify name fun e => { e with sawEnd := true })
    | .ok bytes => some (t.modify name fun e => { e with fresh := e.fresh ++ bytes })
    | .error _ => some (t.modify name fun e => { e with deaf := true })

/-- One read for every far end of the list, unless nothing has arrived for any of them. Those whom
the reads set free line up one after the other. -/
def readRound? (t : Trial ρ) (names : List String) : Option (Trial ρ × List Part) :=
  names.foldl (fun round? name =>
    let (t, line) := round?.getD (t, [])
    match (t.farEnds.lookup name).bind (t.readOnce? name) with
    | none => round?
    | some t => some (t, t.station.lineUp line)) none

/-- Bytes that may still be sent, at most. -/
def outstanding (t : Trial ρ) : Nat :=
  let s := t.station
  s.links.foldl (fun n l => n + l.outgoing.content.length) 0 +
    s.writers.foldl (fun n w => n + w.write.bytes.length) 0 +
    300 * (s.worker.queue.length + s.unread + 1)

/-- Let every part take its turns and the far ends of the list read, until nothing more comes; each
round but the last brings a byte or an end. -/
def exchange (t : Trial ρ) (names : List String) (line : List Part) : Nat → Trial ρ
  | 0 => { t with station := t.station.settleFrom line }
  | fuel + 1 =>
    let t := { t with station := t.station.settleFrom line }
    match t.readRound? names with
    | none => t
    | some (after, line) => after.exchange names line fuel

def observe (t : Trial ρ) (also : Option String) : Trial ρ :=
  let readers := t.farEnds.filter fun (name, e) => !e.manual || some name == also
  t.exchange (readers.map (·.1)) (t.station.lineUp []) (t.outstanding + 2 * t.farEnds.length + 1)

def changes (t : Trial ρ) : Trial ρ × List (String × Change) :=
  let listed := t.farEnds.map fun (name, e) =>
    let state := t.stateOf e
    let changed := !e.fresh.isEmpty || state != e.listed
    ((name, { e with fresh := [], listed := state }),
      if changed then
        let change : Change :=
          ⟨e.fresh, state.1, state.2.1, state.2.2, state.2.2 && !e.listed.2.2⟩
        [(name, change)]
      else [])
  ({ t with farEnds := listed.map (·.1) }, listed.flatMap (·.2))

end Trial

end ModbusSlave
