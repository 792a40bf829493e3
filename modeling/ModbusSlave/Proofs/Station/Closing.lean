import ModbusSlave.Station.Action

/-!
# The moves of the shutdown

One step of the shutdown is one of thirteen moves, each with what it has waited for. Everything that
is proved about the shutdown starts from these. A listener stops in one way, whether it has been
cancelled or cannot accept.
-/
namespace ModbusSlave

def Session.isAccepted (session : Session) : Bool :=
  match session.role with
  | .accepted _ _ => true
  | _ => false

def Session.isServing (session : Session) : Bool :=
  match session.role with
  | .port _ => true
  | _ => false

namespace Station

variable {σ ρ : Type}

inductive ClosingMove (s : Station σ ρ) : Station σ ρ → Prop
  | listenersGone (closing : s.closing = .listeners []) :
      ClosingMove s { s with closing := .sessions }
  | skips {i : Nat} {rest : List Nat} (closing : s.closing = .listeners (i :: rest))
      (unknown : s.listeners[i]? = none) : ClosingMove s { s with closing := .listeners rest }
  | cancels {i : Nat} {rest : List Nat} {listener : Listener}
      (closing : s.closing = .listeners (i :: rest)) (known : s.listeners[i]? = some listener)
      (uncancelled : listener.cancelled = false) : ClosingMove s (s.cancelListener i)
  | joins {i : Nat} {rest : List Nat} {listener : Listener}
      (closing : s.closing = .listeners (i :: rest)) (known : s.listeners[i]? = some listener)
      (cancelled : listener.cancelled = true) (ended : listener.running = false) :
      ClosingMove s { s.note [.listenerClosed listener.address] with closing := .listeners rest }
  | sessionsGone (closing : s.closing = .sessions)
      (ended : ∀ session ∈ s.sessions, session.isAccepted = true → session.isOver = true) :
      ClosingMove s { s with closing := .portLinks s.stopOrder }
  | linksClosed (closing : s.closing = .portLinks []) :
      ClosingMove s { s with closing := .portSessions }
  | closes {port : Port} {rest : List Port} (closing : s.closing = .portLinks (port :: rest)) :
      ClosingMove s { s.closeLink port.link with closing := .portLinks rest }
  | portsGone (closing : s.closing = .portSessions)
      (ended : ∀ session ∈ s.sessions, session.isServing = true → session.isOver = true) :
      ClosingMove s { s with closing := .ports s.ports .entering, ports := [] }
  | shutting {port : Port} {rest : List Port} {stage next : ShutdownStage} {link after : Link}
      (closing : s.closing = .ports (port :: rest) stage) (known : s.links[port.link]? = some link)
      (step?_eq : stage.step? .closer link = some (after, some next)) :
      ClosingMove s { s.setLink port.link after with closing := .ports (port :: rest) next }
  | shut {port : Port} {rest : List Port} {stage : ShutdownStage} {link after : Link}
      (closing : s.closing = .ports (port :: rest) stage) (known : s.links[port.link]? = some link)
      (step?_eq : stage.step? .closer link = some (after, none)) :
      ClosingMove s
        { (s.setLink port.link { after with incoming := after.incoming.close }).note
            [.portClosed port.name] with closing := .ports rest .entering }
  | stops {stage : ShutdownStage} (closing : s.closing = .ports [] stage)
      (runs : s.stopped = false) : ClosingMove s { s.enqueue .stop with closing := .worker }
  | skipsStop {stage : ShutdownStage} (closing : s.closing = .ports [] stage)
      (stopped : s.stopped = true) :
      ClosingMove s { s.note [.workerAlreadyStopped] with closing := .worker }
  | closed (closing : s.closing = .worker) (stopped : s.stopped = true) :
      ClosingMove s { s.note [.serverClosed] with closing := .done }

theorem closingMove_of_closingStep? {s t : Station σ ρ} (h : s.closingStep? = some t) :
    s.ClosingMove t := by
  cases hc : s.closing with
  | notYet => simp [closingStep?, hc] at h
  | done => simp [closingStep?, hc] at h
  | listeners rest =>
    cases rest with
    | nil =>
      simp only [closingStep?, hc, Option.some.injEq] at h
      subst h
      exact .listenersGone hc
    | cons i rest =>
      simp only [closingStep?, hc] at h
      split at h
      · next hunknown =>
        cases h
        exact .skips hc hunknown
      · next listener hknown =>
        split at h
        · next huncancelled =>
          cases h
          exact .cancels hc hknown (by simpa using huncancelled)
        · next hcancelled =>
          split at h
          · cases h
          · next hended =>
            cases h
            exact .joins hc hknown (by simpa using hcancelled) (by simpa using hended)
  | sessions =>
    simp only [closingStep?, hc, Option.ite_none_right_eq_some, Option.some.injEq] at h
    obtain ⟨hended, rfl⟩ := h
    refine .sessionsGone hc ?_
    intro session hsession haccepted
    have hall := Array.all_eq_true_iff_forall_mem.mp hended session hsession
    unfold Session.isAccepted at haccepted
    split at hall
    · exact hall
    · next hother =>
      split at haccepted
      · next hrole => exact absurd hrole (hother _ _)
      · cases haccepted
  | portLinks rest =>
    cases rest with
    | nil =>
      simp only [closingStep?, hc, Option.some.injEq] at h
      subst h
      exact .linksClosed hc
    | cons port rest =>
      simp only [closingStep?, hc, Option.some.injEq] at h
      subst h
      exact .closes hc
  | portSessions =>
    simp only [closingStep?, hc, Option.ite_none_right_eq_some, Option.some.injEq] at h
    obtain ⟨hended, rfl⟩ := h
    refine .portsGone hc ?_
    intro session hsession hserving
    have hall := Array.all_eq_true_iff_forall_mem.mp hended session hsession
    unfold Session.isServing at hserving
    split at hall
    · exact hall
    · next hother =>
      split at hserving
      · next hrole => exact absurd hrole (hother _)
      · cases hserving
  | ports rest stage =>
    cases rest with
    | nil =>
      simp only [closingStep?, hc, Option.some.injEq] at h
      subst h
      cases hs : s.stopped with
      | true => exact .skipsStop hc hs
      | false => exact .stops hc hs
    | cons port rest =>
      simp only [closingStep?, hc, Option.bind_eq_bind, Option.bind_eq_some_iff] at h
      obtain ⟨link, hlink, ⟨after, next⟩, hstep, h⟩ := h
      cases next with
      | some next =>
        cases h
        exact .shutting hc hlink hstep
      | none =>
        cases h
        exact .shut hc hlink hstep
  | worker =>
    simp only [closingStep?, hc, Option.ite_none_right_eq_some, Option.some.injEq] at h
    obtain ⟨hstopped, rfl⟩ := h
    exact .closed hc hstopped

theorem act_closing (s : Station σ ρ) :
    s.act (.step .closing) = s ∨ s.ClosingMove (s.act (.step .closing)) := by
  cases h : s.closingStep? with
  | none => exact .inl (by simp [act, partStep?, h])
  | some t =>
    right
    have ht : s.act (.step .closing) = t := by simp [act, partStep?, h]
    rw [ht]
    exact closingMove_of_closingStep? h

/-- The listener `i`, which runs, tells why it stops and stops. -/
inductive Halts (s : Station σ ρ) (i : Nat) : Station σ ρ → Prop
  | intro {listener : Listener} {events : List Event} (known : s.listeners[i]? = some listener)
      (running : listener.running = true) : Halts s i ((s.note events).stopListener i listener)

theorem act_listener (s : Station σ ρ) (i : Nat) :
    s.act (.step (.listener i)) = s ∨ s.Halts i (s.act (.step (.listener i))) := by
  cases h : s.listenerStep? i with
  | none => exact .inl (by simp [act, partStep?, h])
  | some t =>
    right
    have ht : s.act (.step (.listener i)) = t := by simp [act, partStep?, h]
    simp only [listenerStep?, Option.bind_eq_bind, Option.bind_eq_some_iff,
      Option.ite_none_right_eq_some, Option.some.injEq] at h
    obtain ⟨listener, hlistener, ⟨hrunning, -⟩, rfl⟩ := h
    rw [ht]
    exact .intro hlistener hrunning

theorem act_failAccept (s : Station σ ρ) (i : Nat) (kind : IoKind) :
    s.act (.failAccept i kind) = s ∨ s.Halts i (s.act (.failAccept i kind)) := by
  simp only [act, failAccept]
  split
  · exact .inl rfl
  · next listener hlistener =>
    split
    · next hrunning => exact .inr (.intro hlistener hrunning)
    · exact .inl rfl

end Station

end ModbusSlave
