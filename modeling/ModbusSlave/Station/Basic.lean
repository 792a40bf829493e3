import ModbusSlave.Settings.Server
import ModbusSlave.Station.Link
import ModbusSlave.Station.Service
import ModbusSlave.Station.Session
import ModbusSlave.Station.Tracker

/-!
# The station

A whole slave at one moment of its time, which is counted in ticks of a millisecond: its links, the
sessions that read them, the worker with the queue in front of it, listeners, ports, and how far the
shutdown has come. Links, sessions, writers, calls and listeners are known by their position and
never go away.
-/
namespace ModbusSlave

inductive Job
  | idle
  /-- A write is given up at the deadline, and so is a release. -/
  | writing (write : Write) (deadline : Nat)
  | releasing (link : Nat) (stage : ShutdownStage) (deadline : Nat)
  | stopped
deriving DecidableEq, Repr

structure Worker (σ ρ : Type) where
  service : Service σ
  /-- How long one response may take. -/
  timeout : Duration
  queue : List (Message σ ρ)
  job : Job

/-- A write past the queue, which has no deadline. -/
structure Writer where
  write : Write
  result : Option (Except IoKind Unit)

inductive Call (ρ : Type)
  | pending
  | answered (result : ρ)
  /-- The service stopped before it came to the access. -/
  | dropped
deriving DecidableEq, Repr

structure Listener where
  address : String
  tracker : Tracker
  running : Bool
  cancelled : Bool
deriving DecidableEq, Repr

structure Port where
  name : String
  link : Nat
deriving DecidableEq, Repr

/-- How far the shutdown has come. Listeners go first, then sessions, then ports, then the
worker. -/
inductive Closing
  | notYet
  /-- The first listener of the list is to stop. -/
  | listeners (rest : List Nat)
  | sessions
  /-- The link of the first port of the list is to be closed. -/
  | portLinks (rest : List Port)
  | portSessions
  /-- The first port of the list is to be shut down. -/
  | ports (rest : List Port) (stage : ShutdownStage)
  | worker
  | done
deriving DecidableEq, Repr

structure Station (σ ρ : Type) where
  now : Nat
  level : DecodeLevel
  maxSessions : Option Nat
  links : Array Link
  sessions : Array Session
  writers : Array Writer
  listeners : Array Listener
  ports : List Port
  worker : Worker σ ρ
  calls : Array (Call ρ)
  closing : Closing
  log : Array Event

namespace Station

variable {σ ρ : Type}

def ofSettings (s : ServerSettings) : Station σ ρ where
  now := 0
  level := s.decode
  maxSessions := s.maxSessions
  links := #[]
  sessions := #[]
  writers := #[]
  listeners := #[]
  ports := []
  worker := ⟨⟨s.unit, .ofCapacity s.capacity, .standard⟩, s.writeTimeout, [], .idle⟩
  calls := #[]
  closing := .notYet
  log := #[]

def note (s : Station σ ρ) (events : List Event) : Station σ ρ :=
  { s with log := s.log ++ events.toArray }

def setLink (s : Station σ ρ) (i : Nat) (link : Link) : Station σ ρ :=
  { s with links := s.links.setIfInBounds i link }

def closeLink (s : Station σ ρ) (i : Nat) : Station σ ρ :=
  { s with links := s.links.modify i Link.close }

/-- Links that do not exist count as closed. -/
def isClosed (s : Station σ ρ) (i : Nat) : Bool := (s.links[i]?.map (·.closed)).getD true

def setSession (s : Station σ ρ) (i : Nat) (session : Session) : Station σ ρ :=
  { s with sessions := s.sessions.setIfInBounds i session }

def setJob (s : Station σ ρ) (job : Job) : Station σ ρ :=
  { s with worker := { s.worker with job } }

def stopped (s : Station σ ρ) : Bool := s.worker.job = .stopped

/-- Put a message behind the others; a service that has stopped has no queue. -/
def enqueue (s : Station σ ρ) (message : Message σ ρ) : Station σ ρ :=
  if s.stopped then s
  else { s with worker := { s.worker with queue := s.worker.queue ++ [message] } }

/-- When a response that begins now is given up. -/
def deadline (s : Station σ ρ) : Nat := s.now + s.worker.timeout.ticks

end Station

end ModbusSlave
