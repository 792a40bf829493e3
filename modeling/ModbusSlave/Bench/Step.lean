import ModbusSlave.Bench.Behaviour
import ModbusSlave.Bench.Conversation

/-!
# The steps of a trial

Far ends connect, send and read, and users register handlers, look at the memory and shut the
station down. A step does one such thing, lets all parts take their turns, and lets the far ends
read. Where a step has to wait for its result, time passes.
-/
namespace ModbusSlave

/-- How a far end of a bare link is connected. -/
structure Attachment where
  parser : Parser
  policy : FaultPolicy
  persistent : Bool
  silence : Option Duration
  capacity : Nat
  manual : Bool

inductive Step (ρ : Type)
  | connect (name : String) (attachment : Attachment)
  /-- A port whose far end is forgotten if it is refused. -/
  | addPort (name : String) (capacity : Nat)
  /-- A port whose far end remains if it is refused, and finds nobody at the other end. -/
  | plugIn (name : String)
  /-- A serial line whose device exists. -/
  | openLine (name : String) (silence : Duration)
  /-- A serial line whose device does not exist. -/
  | openNothing
  | listen (listener : String)
  /-- Listen once more where a listener already is. -/
  | listenAgain (listener : String)
  | connectTo (caller listener : String)
  /-- A caller sends. -/
  | post (caller : String) (bytes : Bytes)
  /-- A caller sends, and reads so many bytes. -/
  | request (caller : String) (bytes : Bytes) (expected : Nat)
  /-- A caller sends, possibly for the last time, and reads up to the end. -/
  | conclude (caller : String) (bytes : Bytes) (finish : Bool)
  | hangUp (caller : String)
  /-- Send as much as there is room for. -/
  | send (name : String) (bytes : Bytes)
  /-- Send, and read so many bytes. -/
  | query (name : String) (bytes : Bytes) (expected : Nat)
  | submit (name : String) (frame : Frame)
  | finish (name : String)
  | deafen (name : String)
  /-- A far end goes away, if there is one of that name. -/
  | drop (name : String)
  | close (name : String)
  | release (name : String)
  | read (name : String)
  | describe (name : String)
  | write (name : String) (bytes : Bytes) (level : PhysicalLevel) (background : Bool)
  | register (code : UInt8) (behaviour : Behaviour)
  | unregister (code : UInt8)
  | stop
  | setLevel (level : DecodeLevel)
  | wait (ticks : Nat)
  /-- Whoever is patient waits for the answer. -/
  | access (run : Memory → Memory × ρ) (patient : Bool)
  | unit
  | describeServer
  | shutDown

/-- What a step comes back with. -/
inductive Outcome (ρ : Type)
  | done
  | number (n : Nat)
  | text (s : String)
  | bytes (data : Bytes)
  | failed (kind : IoKind)
  | refused (fault : ListenFault)
  | shutdown
  | pending
  | answered (result : ρ)

def Outcome.ofCount {ρ : Type} : Attempt Nat → Outcome ρ
  | none => .number 0
  | some (.error kind) => .failed kind
  | some (.ok n) => .number n

/-- What has come of reading. A device does not tell the causes of a failure apart. -/
def Outcome.ofRead {ρ : Type} (device : Bool) : Attempt Bytes → Outcome ρ
  | none => .pending
  | some (.error kind) => .failed (if device then .uncategorized else kind)
  | some (.ok data) => .bytes data

/-- A step that speaks of something unknown is void. -/
inductive Missing
  | farEnd
  | listener
deriving DecidableEq, Repr

namespace Trial

variable {ρ : Type}

def enqueue (t : Trial ρ) (message : Message Nat ρ) : Trial ρ × Outcome ρ :=
  if t.station.stopped then (t, .shutdown)
  else ({ t with station := t.station.enqueue message }, .done)

def accessOutcome (s : Station Nat ρ) (call : Nat) : Outcome ρ :=
  match s.calls[call]? with
  | some (.answered result) => .answered result
  | some .pending => .pending
  | some .dropped | none => .shutdown

def access (t : Trial ρ) (run : Memory → Memory × ρ) (patient : Bool) : Trial ρ × Outcome ρ :=
  let call := t.station.calls.size
  let answered (s : Station Nat ρ) : Bool :=
    match s.calls[call]? with
    | some .pending => false
    | _ => true
  let station := t.station.call run
  let station := if patient then station.passUntil answered station.timerFuel else station.settle
  ({ t with station }, accessOutcome station call)

/-- Write past the queue, in the background or until it is done. -/
def write (t : Trial ρ) (link : Nat) (bytes : Bytes) (level : PhysicalLevel) (background : Bool) :
    Trial ρ × Outcome ρ :=
  let writer := t.station.writers.size
  let result (s : Station Nat ρ) : Option (Except IoKind Unit) :=
    (s.writers[writer]?).bind (·.result)
  let station := t.station.write link bytes level
  if background then ({ t with station }, .done)
  else
    let station := station.passUntil (fun s => (result s).isSome) station.timerFuel
    ({ t with station },
      match result station with
      | some (.error kind) => .failed kind
      | some (.ok ()) => .done
      | none => .pending)

/-- The capacity of a link whose far end is elsewhere. -/
def roomy : Nat := 65536

def nameLast (t : Trial ρ) (name : String) (manual : Bool) : Trial ρ :=
  t.put name (.ofLink (t.station.links.size - 1) (t.station.sessions.size - 1) manual)

def serve (t : Trial ρ) (name : String) (capacity : Nat) (silence : Option Duration)
    (manual : Bool) : Trial ρ :=
  let station := t.station.addPort name (.fresh capacity capacity true silence)
  ({ t with station }).nameLast name manual

/-- A far end whose link leads nowhere, and which no session belongs to. -/
def strand (t : Trial ρ) (name : String) : Trial ρ :=
  let link := Link.fresh roomy roomy true none
  let link := { link.close with incoming := link.incoming.close, outgoing := link.outgoing.close }
  let station := { t.station with links := t.station.links.push link }
  ({ t with station }).put name (.ofLink t.station.links.size t.station.sessions.size true)

def markDevice (t : Trial ρ) (name : String) : Trial ρ :=
  t.modify name fun e => { e with device := true }

def boolText (b : Bool) : String := if b then "true" else "false"

def linkText (l : Link) : String :=
  "Connection \x7b closed: " ++ boolText l.closed ++ ", persistent: " ++ boolText l.persistent ++
    " \x7d"

def serverText (s : Station Nat ρ) : String :=
  let sessions := match s.maxSessions with
    | none => "None"
    | some n => "Some(" ++ toString n ++ ")"
  "Server \x7b unit_id: UnitId \x7b value: " ++ toString s.worker.service.unit.value.toNat ++
    " \x7d, max_sessions: " ++ sessions ++ " \x7d"

def farEnd (t : Trial ρ) (name : String) : Except Missing FarEnd :=
  match t.farEnds.lookup name with
  | some e => .ok e
  | none => .error .farEnd

def caller (t : Trial ρ) (name : String) : Except Missing Nat :=
  match t.callers.lookup name with
  | some i => .ok i
  | none => .error .farEnd

def listenerOf (t : Trial ρ) (name : String) : Except Missing Nat :=
  match t.listeners.lookup name with
  | some i => .ok i
  | none => .error .listener

/-- What a step does and what it comes back with, before all that follows from it. -/
def begin (t : Trial ρ) (step : Step ρ) : Except Missing (Trial ρ × Outcome ρ) :=
  let done (station : Station Nat ρ) : Except Missing (Trial ρ × Outcome ρ) :=
    .ok ({ t with station }, .done)
  match step with
  | .connect name a =>
    let link := Link.fresh roomy a.capacity a.persistent a.silence
    let t := { t with station := t.station.attach link a.parser a.policy .bare }
    .ok (t.nameLast name a.manual, .done)
  | .addPort name capacity =>
    .ok (if t.station.isOpen then (t.serve name capacity none false, .done) else (t, .shutdown))
  | .plugIn name =>
    .ok (if t.station.isOpen then (t.serve name roomy none true, .done)
      else (t.strand name, .shutdown))
  | .openLine name silence =>
    let t := { t with station := t.station.note [.portOpened name] }
    .ok (if t.station.isOpen then
        ((t.serve name roomy (some silence) true).markDevice name, .done)
      else ((t.strand name).markDevice name, .refused .shutdown))
  | .openNothing => .ok (t, .refused (.serial "No such file or directory"))
  | .listen name =>
    .ok (if t.station.isOpen then
        let listeners := (name, t.station.listeners.size) :: t.listeners
        ({ t with station := t.station.listen name, listeners }, .done)
      else (t, .refused .shutdown))
  | .listenAgain name => do
    let i ← t.listenerOf name
    let running := (t.station.listeners[i]?.map (·.running)).getD false
    return (t, .refused
      (if running then .io .addrInUse "Address already in use (os error 98)" else .shutdown))
  | .connectTo name listener => do
    let i ← t.listenerOf listener
    if !t.reachable then return (t, .failed .networkUnreachable)
    else if !(t.station.listeners[i]?.map (·.running)).getD false then
      return (t, .failed .connectionRefused)
    else
      let t := t.hangUp name
      let callers := (name, t.station.links.size) :: t.callers
      let station := t.station.accept i name (.fresh roomy roomy false none)
      return ({ t with station, callers }, .done)
  | .post name bytes => do
    let i ← t.caller name
    return ((t.sendAll i bytes).1, .done)
  | .request name bytes expected => do
    let i ← t.caller name
    let (t, got) := t.inquire i bytes expected
    return (t, .ofRead false got)
  | .conclude name bytes finish => do
    let i ← t.caller name
    let (t, _) := t.sendAll i bytes
    let t := if finish then { t with station := t.station.finish i } else t
    let (t, got) := t.readToEnd i
    return (t, .ofRead false got)
  | .hangUp name => .ok (t.hangUp name, .done)
  | .send name bytes => do
    let e ← t.farEnd name
    let (t, count) := t.send e.link bytes
    return (t, .ofCount count)
  | .query name bytes expected => do
    let e ← t.farEnd name
    let (t, got) := t.inquire e.link bytes expected
    return (t, .ofRead e.device got)
  | .submit name frame => do
    let e ← t.farEnd name
    return t.enqueue (.request e.link frame)
  | .finish name => do
    let e ← t.farEnd name
    done (t.station.finish e.link)
  | .deafen name => do
    let e ← t.farEnd name
    let t := { t with station := t.station.deafen e.link }
    return (t.modify name fun e => { e with deaf := true }, .done)
  | .drop name => .ok (t.drop name, .done)
  | .close name => do
    let e ← t.farEnd name
    done (t.station.closeLink e.link)
  | .release name => do
    let e ← t.farEnd name
    return t.enqueue (.release e.link)
  | .read name => do
    let _ ← t.farEnd name
    return (t, .done)
  | .describe name => do
    let e ← t.farEnd name
    return (t, .text ((t.station.links[e.link]?.map linkText).getD ""))
  | .write name bytes level background => do
    let e ← t.farEnd name
    return t.write e.link bytes level background
  | .register code behaviour => .ok (t.enqueue (.register code behaviour.handler))
  | .unregister code => .ok (t.enqueue (.unregister code))
  | .stop => .ok (t.enqueue .stop)
  | .setLevel level => done { t.station with level }
  | .wait ticks => done (t.station.pass ticks)
  | .access run patient => .ok (t.access run patient)
  | .unit => .ok (t, .number t.station.worker.service.unit.value.toNat)
  | .describeServer => .ok (t, .text (serverText t.station))
  | .shutDown =>
    let station := t.station.shutDown
    done (station.passUntil (fun s => s.closing = .done) station.timerFuel)

/-- One step with all that follows from it. The log starts anew with every step. -/
def perform (t : Trial ρ) (step : Step ρ) : Except Missing (Trial ρ × Outcome ρ) := do
  let (t, outcome) ← { t with station := { t.station with log := #[] } }.begin step
  let also := match step with
    | .read name => some name
    | _ => none
  return (t.observe also, outcome)

end Trial

end ModbusSlave
