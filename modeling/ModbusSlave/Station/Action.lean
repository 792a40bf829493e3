import ModbusSlave.Station.Progress

/-!
# Actions

Everything that can happen to a station: what the far ends of its links do, what its users ask of
it, the passing of time, and the steps of its own parts. A list of actions is a history, in whatever
order the parts are given their turns; an action that is not possible leaves the station as it is.
-/
namespace ModbusSlave

inductive Action (σ ρ : Type)
  /-- The far end sends. -/
  | arrive (link : Nat) (bytes : Bytes)
  /-- The far end will send no more. -/
  | finish (link : Nat)
  /-- The far end reads at most so many bytes. -/
  | collect (link count : Nat)
  /-- The far end will read no more. -/
  | deafen (link : Nat)
  /-- The medium fails. -/
  | breakDown (link : Nat) (kind : IoKind)
  /-- A link of its own, with a session that belongs to nothing. -/
  | attach (link : Link) (parser : Parser) (policy : FaultPolicy)
  | listen (address : String)
  | accept (listener : Nat) (peer : String) (link : Link)
  | failAccept (listener : Nat) (kind : IoKind)
  | addPort (name : String) (link : Link)
  | submit (message : Message σ ρ)
  | call (run : Memory → Memory × ρ)
  | close (link : Nat)
  /-- A write past the queue. -/
  | write (link : Nat) (bytes : Bytes) (level : PhysicalLevel)
  | setLevel (level : DecodeLevel)
  | shutDown
  | tick
  /-- The session notices that its link is closed. -/
  | sessionStop (index : Nat)
  | step (part : Part)

namespace Station

variable {σ ρ : Type}

def isOpen (s : Station σ ρ) : Bool := s.closing = .notYet

/-- The far end sends as much as there is room for. Without an answer it has to wait. -/
def arrive? (s : Station σ ρ) (i : Nat) (bytes : Bytes) :
    Option (Except IoKind (Station σ ρ × Nat)) := do
  let link ← s.links[i]?
  return (← link.incoming.write? bytes).map fun (incoming, rest) =>
    (s.setLink i { link with incoming }, bytes.length - rest.length)

/-- The far end reads what has arrived; no bytes at all are the end. -/
def collect? (s : Station σ ρ) (i count : Nat) :
    Option (Station σ ρ × Except IoKind Bytes) := do
  let link ← s.links[i]?
  let (got, outgoing) ← link.outgoing.read? count
  let taken := match got with
    | .ok bytes => bytes
    | .error _ => []
  return (s.setLink i { link with outgoing, received := link.received ++ taken }, got)

def modifyLink (s : Station σ ρ) (i : Nat) (f : Link → Link) : Station σ ρ :=
  { s with links := s.links.modify i f }

def finish (s : Station σ ρ) (i : Nat) : Station σ ρ :=
  s.modifyLink i fun l => { l with incoming := l.incoming.close }

def deafen (s : Station σ ρ) (i : Nat) : Station σ ρ :=
  s.modifyLink i fun l => { l with outgoing := l.outgoing.close }

def breakDown (s : Station σ ρ) (i : Nat) (kind : IoKind) : Station σ ρ :=
  s.modifyLink i fun l => { l with
    incoming := { l.incoming with broken := some kind }
    outgoing := { l.outgoing with broken := some kind } }

def attach (s : Station σ ρ) (link : Link) (parser : Parser) (policy : FaultPolicy)
    (role : Role) : Station σ ρ :=
  { s with
    links := s.links.push link
    sessions := s.sessions.push (.start s.links.size parser policy role) }

def listen (s : Station σ ρ) (address : String) : Station σ ρ :=
  if s.isOpen then
    let listener : Listener := ⟨address, .ofLimit s.maxSessions, true, false⟩
    { s.note [.listening address] with listeners := s.listeners.push listener }
  else s

/-- A running listener takes a link in and closes those for which there is no place any more. What
comes to a listener that has been cancelled is closed from the start. -/
def accept (s : Station σ ρ) (i : Nat) (peer : String) (link : Link) : Station σ ρ :=
  match s.listeners[i]? with
  | none => s
  | some listener =>
    if listener.running then
      let (tracker, id, gone) := listener.tracker.add s.isClosed s.links.size
      let s := gone.foldl (fun s (id, link) => (s.note [.evicted id]).closeLink link) s
      let s := s.note [.accepted id peer]
      let listener := { listener with tracker }
      let s := { s with listeners := s.listeners.setIfInBounds i listener }
      s.attach { link with closed := listener.cancelled } (.mbap .start) .close (.accepted i id)
    else s

/-- A running listener that cannot accept stops. -/
def failAccept (s : Station σ ρ) (i : Nat) (kind : IoKind) : Station σ ρ :=
  match s.listeners[i]? with
  | none => s
  | some listener =>
    if listener.running then (s.note [.acceptFailed kind]).stopListener i listener else s

/-- Serve a serial line. A failed write does not close it. -/
def addPort (s : Station σ ρ) (name : String) (link : Link) : Station σ ρ :=
  if s.isOpen then
    let port : Port := ⟨name, s.links.size⟩
    let s := { s.note [.portServing name] with ports := s.ports ++ [port] }
    s.attach { link with closed := false, persistent := true } (.rtu .start) .discard (.port name)
  else s

def call (s : Station σ ρ) (run : Memory → Memory × ρ) : Station σ ρ :=
  if s.stopped then { s with calls := s.calls.push .dropped }
  else
    { s.enqueue (.access s.calls.size run) with calls := s.calls.push .pending }

def write (s : Station σ ρ) (i : Nat) (bytes : Bytes) (level : PhysicalLevel) : Station σ ρ :=
  { s with writers := s.writers.push ⟨⟨i, bytes, level, .entering⟩, none⟩ }

/-- Begin the shutdown. Asking for it again has no effect. -/
def shutDown (s : Station σ ρ) : Station σ ρ :=
  if s.isOpen then { s with closing := .listeners (List.range s.listeners.size) } else s

def act (s : Station σ ρ) : Action σ ρ → Station σ ρ
  | .arrive i bytes =>
    match s.arrive? i bytes with
    | some (.ok (after, _)) => after
    | _ => s
  | .finish i => s.finish i
  | .collect i count => ((s.collect? i count).map (·.1)).getD s
  | .deafen i => s.deafen i
  | .breakDown i kind => s.breakDown i kind
  | .attach link parser policy => s.attach link parser policy .bare
  | .listen address => s.listen address
  | .accept i peer link => s.accept i peer link
  | .failAccept i kind => s.failAccept i kind
  | .addPort name link => s.addPort name link
  | .submit message => s.enqueue message
  | .call run => s.call run
  | .close i => s.closeLink i
  | .write i bytes level => s.write i bytes level
  | .setLevel level => { s with level }
  | .shutDown => s.shutDown
  | .tick => { s with now := s.now + 1 }
  | .sessionStop i => (s.sessionStop? i).getD s
  | .step part => (s.partStep? part).getD s

def run (s : Station σ ρ) (actions : List (Action σ ρ)) : Station σ ρ := actions.foldl act s

@[simp] theorem run_append (s : Station σ ρ) (before after : List (Action σ ρ)) :
    s.run (before ++ after) = (s.run before).run after := by
  simp [run]

end Station

end ModbusSlave
