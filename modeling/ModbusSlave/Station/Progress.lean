import ModbusSlave.Station.Basic

/-!
# Progress

The steps that a station takes on its own, one for each of its parts. A step is as small as a part
can be seen to do: one parse, one read, one stage of a write, one message taken from the queue. A
part that has to wait for time, for room, for bytes or for another part has no step.
-/
namespace ModbusSlave

inductive Part
  | session (index : Nat)
  | writer (index : Nat)
  | listener (index : Nat)
  | closing
  | worker
deriving DecidableEq, Repr

namespace Station

variable {σ ρ : Type}

def leave (s : Station σ ρ) (i : Nat) (session : Session) (fault : RequestFault) : Station σ ρ :=
  match session.role with
  | .bare =>
    let s := { s with
      links := s.links.modify session.link fun l => { l with incoming := l.incoming.close } }
    s.setSession i { session with phase := .over fault }
  | .port name =>
    (s.note [.portEnded name fault]).setSession i { session with phase := .over fault }
  | .accepted _ id =>
    let s := s.note [.sessionEnded id fault]
    if s.stopped then s.setSession i { session with phase := .departing fault .entering }
    else (s.enqueue (.release session.link)).setSession i { session with phase := .over fault }

/-- Carry out what a session wants. Nothing can be submitted to a service that has stopped. -/
def carryOut (s : Station σ ρ) (i : Nat) (step : Session × Demand × List Event) : Station σ ρ :=
  let (session, demand, events) := step
  let s := s.note events
  match demand with
  | .nothing => s.setSession i session
  | .submit frame =>
    if s.stopped then s.leave i session .shutdown
    else (s.enqueue (.request session.link frame)).setSession i session
  | .leave fault => s.leave i session fault

/-- A session whose link is closed ends, in the middle of a frame as well. -/
def sessionStop? (s : Station σ ρ) (i : Nat) : Option (Station σ ρ) := do
  let session ← s.sessions[i]?
  if session.live ∧ s.isClosed session.link then some (s.leave i session .shutdown) else none

def sessionStep? (s : Station σ ρ) (i : Nat) : Option (Station σ ρ) := do
  let session ← s.sessions[i]?
  match session.phase with
  | .parsing level => some (s.carryOut i (session.parse (level.getD s.level)))
  | .reading level =>
    let link ← s.links[session.link]?
    let (got, incoming) ← link.incoming.read? session.reader.room
    some ((s.setLink session.link { link with incoming }).carryOut i (session.receive level got))
  | .departing fault stage =>
    let link ← s.links[session.link]?
    let (link, next) ← stage.step? (.session i) link
    let phase := match next with
      | some stage => .departing fault stage
      | none => .over fault
    some ((s.setLink session.link link).setSession i { session with phase })
  | .over _ => none

def writerStep? (s : Station σ ρ) (i : Nat) : Option (Station σ ρ) := do
  let writer ← s.writers[i]?
  if writer.result.isSome then none
  else
    let link ← s.links[writer.write.link]?
    let step ← writer.write.step? (.writer i) s.now link
    let after : Writer := match step.next with
      | .inl stage => { writer with write := { writer.write with stage } }
      | .inr result => { writer with result := some result }
    let s := (s.setLink writer.write.link step.link).note step.events
    some { s with writers := s.writers.setIfInBounds i after }

/-- A response could not be written: unless its link is persistent, the link is closed. -/
def writeFailed (s : Station σ ρ) (i : Nat) (fault : WriteFault) : Station σ ρ :=
  let persistent := (s.links[i]?.map (·.persistent)).getD true
  let s := s.note [.writeFailed persistent fault]
  if persistent then s else s.closeLink i

def dropCalls (s : Station σ ρ) : Station σ ρ :=
  { s with calls := s.calls.map fun call => match call with
    | .pending => .dropped
    | call => call }

def takeMessage? (s : Station σ ρ) : Option (Station σ ρ) :=
  match s.worker.queue with
  | [] => none
  | message :: queue =>
    let (service, effect, events) := s.worker.service.handle s.level message
    let s := { s with worker := { s.worker with service, queue } }.note events
    some <| match effect with
      | .nothing => s
      | .respond link response =>
        s.setJob (.writing ⟨link, response.encode, s.level.physical, .entering⟩ s.deadline)
      | .answer call result =>
        { s with calls := s.calls.setIfInBounds call (.answered result) }
      | .release link => s.setJob (.releasing link .entering s.deadline)
      | .stop => { s.dropCalls with worker := { s.worker with queue := [], job := .stopped } }

def leaveLock (s : Station σ ρ) (i : Nat) : Station σ ρ :=
  { s with links := s.links.modify i fun l => l.release .worker }

/-- The next step of the worker. What it waits for comes first, and the deadline only counts if
there is nothing of it. -/
def workerStep? (s : Station σ ρ) : Option (Station σ ρ) :=
  match s.worker.job with
  | .stopped => none
  | .idle => s.takeMessage?
  | .writing write deadline =>
    match s.links[write.link]?.bind (write.step? .worker s.now) with
    | some step =>
      let s := (s.setLink write.link step.link).note step.events
      some <| match step.next with
        | .inl stage => s.setJob (.writing { write with stage } deadline)
        | .inr (.ok ()) => s.setJob .idle
        | .inr (.error kind) => (s.writeFailed write.link (.io kind)).setJob .idle
    | none =>
      if deadline ≤ s.now then
        some (((s.leaveLock write.link).writeFailed write.link (.timedOut s.worker.timeout)).setJob
          .idle)
      else none
  | .releasing i stage deadline =>
    match s.links[i]?.bind (stage.step? .worker) with
    | some (link, next) =>
      let s := s.setLink i link
      some <| match next with
        | some stage => s.setJob (.releasing i stage deadline)
        | none => s.setJob .idle
    | none =>
      if deadline ≤ s.now then
        some (((s.leaveLock i).note [.releaseTimedOut s.worker.timeout]).setJob .idle)
      else none

def acceptedBy (s : Station σ ρ) (listener : Nat) : List Session :=
  s.sessions.toList.filter fun session =>
    match session.role with
    | .accepted l _ => l = listener
    | _ => false

/-- The listener `i` accepts nothing any more and tells the sessions it remembers to stop. -/
def stopListener (s : Station σ ρ) (i : Nat) (listener : Listener) : Station σ ρ :=
  let s := listener.tracker.sessions.foldl (fun s (_, link) => s.closeLink link) s
  let stopped := { listener with running := false, tracker := listener.tracker.clear }
  { s with listeners := s.listeners.setIfInBounds i stopped }

def listenerStep? (s : Station σ ρ) (i : Nat) : Option (Station σ ρ) := do
  let listener ← s.listeners[i]?
  if listener.running ∧ listener.cancelled then
    some ((s.note [.closingListener listener.tracker.length]).stopListener i listener)
  else none

def cancelListener (s : Station σ ρ) (i : Nat) : Station σ ρ :=
  let s := { s with listeners := s.listeners.modify i fun l => { l with cancelled := true } }
  (s.acceptedBy i).foldl (fun s session => s.closeLink session.link) s

/-- The order in which ports are told to stop: the newest first, then the others from the oldest
on. -/
def stopOrder (s : Station σ ρ) : List Port := s.ports.getLast?.toList ++ s.ports.dropLast

def closingStep? (s : Station σ ρ) : Option (Station σ ρ) :=
  match s.closing with
  | .notYet | .done => none
  | .listeners [] => some { s with closing := .sessions }
  | .listeners (i :: rest) =>
    match s.listeners[i]? with
    | none => some { s with closing := .listeners rest }
    | some listener =>
      if !listener.cancelled then some (s.cancelListener i)
      else if listener.running then none
      else some { s.note [.listenerClosed listener.address] with closing := .listeners rest }
  | .sessions =>
    let ended := s.sessions.all fun session =>
      match session.role with
      | .accepted _ _ => session.isOver
      | _ => true
    if ended then some { s with closing := .portLinks s.stopOrder } else none
  | .portLinks [] => some { s with closing := .portSessions }
  | .portLinks (port :: rest) => some { s.closeLink port.link with closing := .portLinks rest }
  | .portSessions =>
    let ended := s.sessions.all fun session =>
      match session.role with
      | .port _ => session.isOver
      | _ => true
    if ended then some { s with closing := .ports s.ports .entering, ports := [] } else none
  | .ports [] _ =>
    let s := if s.stopped then s.note [.workerAlreadyStopped] else s.enqueue .stop
    some { s with closing := .worker }
  | .ports (port :: rest) stage => do
    let link ← s.links[port.link]?
    let (link, next) ← stage.step? .closer link
    match next with
    | some stage => some { s.setLink port.link link with closing := .ports (port :: rest) stage }
    | none =>
      let s := s.setLink port.link { link with incoming := link.incoming.close }
      some { s.note [.portClosed port.name] with closing := .ports rest .entering }
  | .worker =>
    if s.stopped then some { s.note [.serverClosed] with closing := .done } else none

def partStep? (s : Station σ ρ) : Part → Option (Station σ ρ)
  | .session i => s.sessionStep? i
  | .writer i => s.writerStep? i
  | .listener i => s.listenerStep? i
  | .closing => s.closingStep?
  | .worker => s.workerStep?

end Station

end ModbusSlave
