import ModbusSlave.Proofs.Station.Sessions

/-!
# What becomes of listeners and ports

Listeners and ports come in while the station is open. A listener stops when it cannot accept, or
when it has been cancelled, which is what the shutdown does. The lemmas say once which actions do
this, and everything that is proved about the way transports go starts from them.
-/
namespace ModbusSlave

/-- How many of its stages the shutdown has come through. -/
def Closing.rank : Closing → Nat
  | .notYet => 0
  | .listeners _ => 1
  | .sessions => 2
  | .portLinks _ => 3
  | .portSessions => 4
  | .ports _ _ => 5
  | .worker => 6
  | .done => 7

/-- The listeners, `count` in all, that the shutdown has not seen stop yet. -/
def Closing.awaited (count : Nat) : Closing → List Nat
  | .notYet => List.range count
  | .listeners rest => rest
  | _ => []

theorem Closing.awaited_eq_nil {closing : Closing} (h : 2 ≤ closing.rank) (count : Nat) :
    closing.awaited count = [] := by
  cases closing with
  | notYet => exact absurd h (by simp [rank])
  | listeners rest => exact absurd h (by simp [rank])
  | _ => rfl

/-- The listener has been told to stop, and has stopped. -/
def Listener.Gone (listener : Listener) : Prop :=
  listener.cancelled = true ∧ listener.running = false

namespace Station

variable {σ ρ : Type}

/-- What an action does to the listeners and ports of a station, and to its shutdown. -/
inductive Rearranges (s : Station σ ρ) (a : Action σ ρ) (t : Station σ ρ) : Prop
  /-- Whoever comes in is not accepted. -/
  | same (listeners : t.listeners = s.listeners) (ports : t.ports = s.ports)
      (closing : t.closing = s.closing) (calm : ∀ k peer link, a = .accept k peer link → t = s)
  | listening {address : String} (action : a = .listen address) (opened : s.isOpen = true)
      (state : t = s.listen address)
  | serving {name : String} {link : Link} (action : a = .addPort name link)
      (opened : s.isOpen = true) (state : t = s.addPort name link)
  | accepting {k : Nat} {peer : String} {link : Link} {listener : Listener}
      (action : a = .accept k peer link) (known : s.listeners[k]? = some listener)
      (running : listener.running = true) (state : t = s.accept k peer link)
      (ports : t.ports = s.ports) (closing : t.closing = s.closing)
  | stopping {k : Nat} {listener after : Listener} (calm : ∀ j peer link, a ≠ .accept j peer link)
      (known : s.listeners[k]? = some listener)
      (gone : after = { listener with running := false, tracker := listener.tracker.clear })
      (listeners : t.listeners = s.listeners.setIfInBounds k after) (ports : t.ports = s.ports)
      (closing : t.closing = s.closing)
      (closed : ∀ entry ∈ listener.tracker.sessions, t.isClosed entry.2 = true)
  | beginning (action : a = .shutDown) (opened : s.isOpen = true) (state : t = s.shutDown)
  | closing (action : a = .step .closing) (move : s.ClosingMove t)

/-- How the listener in the place `k` has come to what it is after an action. -/
inductive Attends (s t : Station σ ρ) (k : Nat) (after : Listener) : Prop
  | earlier {before : Listener} (known : s.listeners[k]? = some before)
      (address : after.address = before.address) (cancelled : after.cancelled = before.cancelled)
      (ended : before.running = false → after.running = false)
  | fresh {address : String} (place : k = s.listeners.size) (opened : s.isOpen = true)
      (state : t = s.listen address) (uncancelled : after.cancelled = false)
  | cancels {before : Listener} {rest : List Nat} (known : s.listeners[k]? = some before)
      (closing : s.closing = .listeners (k :: rest)) (state : t = s.cancelListener k)
      (address : after.address = before.address) (running : after.running = before.running)

section

variable {s t : Station σ ρ} {k : Nat}

@[simp] theorem listeners_enqueue (s : Station σ ρ) (message : Message σ ρ) :
    (s.enqueue message).listeners = s.listeners := by
  unfold enqueue
  split <;> rfl

@[simp] theorem listeners_writeFailed (s : Station σ ρ) (k : Nat) (fault : WriteFault) :
    (s.writeFailed k fault).listeners = s.listeners := by
  unfold writeFailed
  dsimp only
  split <;> rfl

theorem listeners_leave (s : Station σ ρ) (k : Nat) (session : Session) (fault : RequestFault) :
    (s.leave k session fault).listeners = s.listeners := by
  unfold leave
  split
  · rfl
  · rfl
  · dsimp only
    split
    · rfl
    · exact listeners_enqueue (s.note _) _

theorem listeners_carryOut (s : Station σ ρ) (k : Nat) (step : Session × Demand × List Event) :
    (s.carryOut k step).listeners = s.listeners := by
  obtain ⟨session, demand, events⟩ := step
  cases demand with
  | nothing => rfl
  | leave fault => exact listeners_leave (s.note events) k session fault
  | submit frame =>
    simp only [carryOut]
    split
    · exact listeners_leave (s.note events) k session .shutdown
    · exact listeners_enqueue (s.note events) _

theorem listeners_sessionStep? (h : s.sessionStep? k = some t) : t.listeners = s.listeners := by
  simp only [sessionStep?, Option.bind_eq_bind, Option.bind_eq_some_iff] at h
  obtain ⟨session, -, h⟩ := h
  split at h
  · cases h
    exact listeners_carryOut s k _
  · simp only [Option.bind_eq_some_iff, Option.some.injEq] at h
    obtain ⟨link, -, ⟨got, incoming⟩, -, rfl⟩ := h
    exact listeners_carryOut (s.setLink _ _) k _
  · simp only [Option.bind_eq_some_iff, Option.some.injEq] at h
    obtain ⟨link, -, ⟨after, next⟩, -, rfl⟩ := h
    rfl
  · cases h

theorem listeners_sessionStop? (h : s.sessionStop? k = some t) : t.listeners = s.listeners := by
  simp only [sessionStop?, Option.bind_eq_bind, Option.bind_eq_some_iff,
    Option.ite_none_right_eq_some, Option.some.injEq] at h
  obtain ⟨session, -, -, rfl⟩ := h
  exact listeners_leave s k session .shutdown

theorem listeners_writerStep? (h : s.writerStep? k = some t) : t.listeners = s.listeners := by
  simp only [writerStep?, Option.bind_eq_bind, Option.bind_eq_some_iff] at h
  obtain ⟨writer, -, h⟩ := h
  split at h
  · cases h
  · simp only [Option.bind_eq_some_iff, Option.some.injEq] at h
    obtain ⟨link, -, step, -, rfl⟩ := h
    rfl

theorem listeners_of_move (h : s.WorkerMove t) : t.listeners = s.listeners := by
  cases h with
  | take idle waiting taken =>
    simp only [takeMessage?, waiting, Option.some.injEq] at taken
    subst taken
    split <;> rfl
  | write =>
    unfold afterWrite
    split
    · rfl
    · rfl
    · exact listeners_writeFailed _ _ _
  | giveUpWrite => exact listeners_writeFailed _ _ _
  | @release i deadline stage link after next job known hstep => cases next <;> rfl
  | giveUpRelease => rfl

theorem listeners_cancelListener (s : Station σ ρ) (k : Nat) :
    (s.cancelListener k).listeners =
      s.listeners.modify k fun l => { l with cancelled := true } :=
  foldl_fixed (·.listeners) (fun s (session : Session) => s.closeLink session.link)
    (fun _ _ => rfl) _ _

theorem SameShape.rearranges {a : Action σ ρ} (h : s.SameShape t)
    (listeners : t.listeners = s.listeners) (ha : ∀ k peer link, a ≠ .accept k peer link) :
    s.Rearranges a t :=
  .same listeners h.ports h.closing fun k peer link haccept => absurd haccept (ha k peer link)

theorem rearranges_accept (s : Station σ ρ) (k : Nat) (peer : String) (link : Link) :
    s.Rearranges (.accept k peer link) (s.accept k peer link) := by
  by_cases hrunning : ∃ listener, s.listeners[k]? = some listener ∧ listener.running = true
  · obtain ⟨listener, hlistener, hrunning⟩ := hrunning
    obtain ⟨-, hstill⟩ | ⟨u, cancelled, id, hsame, -, haccept⟩ :=
      frame_of_accept (i := 0) (j := 0) s k peer link
    · rw [hstill listener hlistener] at hrunning
      cases hrunning
    · refine .accepting rfl hlistener hrunning rfl ?_ ?_
      · rw [haccept]
        exact hsame.ports
      · rw [haccept]
        exact hsame.closing
  · have hstill : s.accept k peer link = s := by
      apply accept_of_still
      intro listener hlistener
      exact (Bool.not_eq_true _).mp fun h => hrunning ⟨listener, hlistener, h⟩
    rw [hstill]
    exact .same rfl rfl rfl fun _ _ _ _ => rfl

theorem listeners_of_halts (h : s.Halts k t) :
    ∃ listener, s.listeners[k]? = some listener ∧
      t.listeners = s.listeners.setIfInBounds k
        { listener with running := false, tracker := listener.tracker.clear } ∧
      ∀ entry ∈ listener.tracker.sessions, t.isClosed entry.2 = true := by
  obtain @⟨listener, events, known, -⟩ := h
  have hlisteners := foldl_fixed (·.listeners) (fun s (x : Nat × Nat) => s.closeLink x.2)
    (fun _ _ => rfl) (s.note events) listener.tracker.sessions
  have hclosed := isClosed_foldl (·.2) (fun s (x : Nat × Nat) => s.closeLink x.2)
    (fun _ _ => rfl) (s.note events) listener.tracker.sessions
  refine ⟨listener, known, ?_, ?_⟩
  · rw [stopListener, hlisteners]
    rfl
  · intro entry hentry
    exact (hclosed entry.2).mpr (.inr (List.mem_map_of_mem hentry))

theorem rearranges_of_halts {a : Action σ ρ} (h : s.Halts k t)
    (calm : ∀ j peer link, a ≠ .accept j peer link) : s.Rearranges a t := by
  have hsame := (frame_of_halts (i := 0) (j := 0) h).1
  obtain ⟨listener, known, hlisteners, hclosed⟩ := listeners_of_halts h
  exact .stopping calm known rfl hlisteners hsame.ports hsame.closing hclosed

theorem rearranges_act (s : Station σ ρ) (a : Action σ ρ) : s.Rearranges a (s.act a) := by
  have same {a : Action σ ρ} : s.Rearranges a s := .same rfl rfl rfl fun _ _ _ _ => rfl
  cases a with
  | arrive k bytes =>
    rcases s.act_arrive k bytes with hact | ⟨link, incoming, rest, -, -, hact⟩
    · rw [hact]
      exact same
    · rw [hact]
      exact (s.sameShape_setLink _ _).rearranges rfl (by simp)
  | collect k count =>
    rcases s.act_collect k count with hact | ⟨link, outgoing, got, -, -, hact⟩
    · rw [hact]
      exact same
    · rw [hact]
      exact (s.sameShape_setLink _ _).rearranges rfl (by simp)
  | listen address =>
    by_cases hopen : s.isOpen = true
    · exact .listening rfl hopen rfl
    · rw [act, listen, if_neg hopen]
      exact same
  | accept k peer link => exact rearranges_accept s k peer link
  | failAccept k kind =>
    rcases s.act_failAccept k kind with hsame | hhalts
    · rw [hsame]
      exact same
    · exact rearranges_of_halts hhalts (by simp)
  | addPort name link =>
    by_cases hopen : s.isOpen = true
    · exact .serving rfl hopen rfl
    · rw [act, addPort, if_neg hopen]
      exact same
  | submit message =>
    exact (s.sameShape_enqueue message).rearranges (listeners_enqueue s message) (by simp)
  | call run =>
    have hqueue := s.sameShape_enqueue (.access s.calls.size run)
    simp only [act, call]
    split
    · exact .same rfl rfl rfl (by simp)
    · exact .same (listeners_enqueue s _) hqueue.ports hqueue.closing (by simp)
  | shutDown =>
    by_cases hopen : s.isOpen = true
    · exact .beginning rfl hopen rfl
    · rw [act, shutDown, if_neg hopen]
      exact same
  | sessionStop k =>
    simp only [act]
    cases hstop : s.sessionStop? k with
    | none => exact same
    | some t =>
      exact (frame_of_sessionStop? (i := 0) (j := 0) hstop).1.rearranges
        (listeners_sessionStop? hstop) (by simp)
  | step part =>
    cases part with
    | worker =>
      obtain ⟨-, hsame⟩ | hmove := s.act_worker
      · rw [hsame]
        exact same
      · exact (sameShape_of_move hmove).rearranges (listeners_of_move hmove) (by simp)
    | session k =>
      simp only [act, partStep?]
      cases hstep : s.sessionStep? k with
      | none => exact same
      | some t =>
        exact (frame_of_sessionStep? (i := 0) (j := 0) hstep).1.rearranges
          (listeners_sessionStep? hstep) (by simp)
    | writer k =>
      simp only [act, partStep?]
      cases hstep : s.writerStep? k with
      | none => exact same
      | some t =>
        exact (frame_of_writerStep? (i := 0) (j := 0) hstep).1.rearranges
          (listeners_writerStep? hstep) (by simp)
    | listener k =>
      rcases s.act_listener k with hsame | hhalts
      · rw [hsame]
        exact same
      · exact rearranges_of_halts hhalts (by simp)
    | closing =>
      rcases s.act_closing with hsame | hmove
      · rw [hsame]
        exact same
      · exact .closing rfl hmove
  | _ => exact .same rfl rfl rfl (by simp)

theorem attends_of_eq {after : Listener} (h : t.listeners = s.listeners)
    (known : t.listeners[k]? = some after) : s.Attends t k after := by
  rw [h] at known
  exact .earlier known rfl rfl id

theorem attends_of_closingMove {after : Listener} (h : s.ClosingMove t)
    (known : t.listeners[k]? = some after) : s.Attends t k after := by
  cases h with
  | @cancels i rest listener closing held uncancelled =>
    rw [listeners_cancelListener, Array.getElem?_modify] at known
    split at known
    · next hi =>
      subst hi
      rw [held, Option.map_some, Option.some.injEq] at known
      subst known
      exact .cancels held closing rfl rfl rfl
    · exact .earlier known rfl rfl id
  | stops => exact attends_of_eq (listeners_enqueue s .stop) known
  | _ => exact .earlier known rfl rfl id

theorem attends_of_rearranges {a : Action σ ρ} {after : Listener} (h : s.Rearranges a t)
    (known : t.listeners[k]? = some after) : s.Attends t k after := by
  cases h with
  | same listeners => exact attends_of_eq listeners known
  | @listening address action opened state =>
    have hlisteners : t.listeners =
        s.listeners.push ⟨address, .ofLimit s.maxSessions, true, false⟩ := by
      rw [state, listen, if_pos opened]
    rw [hlisteners, Array.getElem?_push] at known
    split at known
    · next hk =>
      cases known
      exact .fresh hk opened state rfl
    · exact .earlier known rfl rfl id
  | serving action opened state =>
    refine attends_of_eq ?_ known
    rw [state, addPort, if_pos opened]
    rfl
  | @accepting i peer link listener action held running state =>
    obtain ⟨u, haccept, -, -, hlisteners, -⟩ := accept_of_running held running peer link
    rw [state, haccept, attach, hlisteners, Array.getElem?_setIfInBounds] at known
    split at known
    · next hi =>
      subst hi
      split at known
      · cases known
        exact .earlier held rfl rfl id
      · cases known
    · exact .earlier known rfl rfl id
  | @stopping i listener stopped calm held gone listeners =>
    rw [listeners, Array.getElem?_setIfInBounds] at known
    split at known
    · next hi =>
      subst hi
      split at known
      · cases known
        rw [gone]
        exact .earlier held rfl rfl fun _ => rfl
      · cases known
    · exact .earlier known rfl rfl id
  | beginning action opened state =>
    refine attends_of_eq ?_ known
    rw [state, shutDown, if_pos opened]
  | closing action move => exact attends_of_closingMove move known

theorem closing_of_open (h : s.isOpen = true) : s.closing = .notYet := of_decide_eq_true h

@[simp] theorem closing_listen (s : Station σ ρ) (address : String) :
    (s.listen address).closing = s.closing := by
  unfold listen
  split <;> rfl

@[simp] theorem closing_addPort (s : Station σ ρ) (name : String) (link : Link) :
    (s.addPort name link).closing = s.closing := by
  unfold addPort
  split <;> rfl

theorem closing_shutDown (h : s.isOpen = true) :
    s.shutDown.closing = .listeners (List.range s.listeners.size) := by
  rw [shutDown, if_pos h]

theorem closing_cancelListener (s : Station σ ρ) (k : Nat) :
    (s.cancelListener k).closing = s.closing :=
  (frame_of_cancelListener (i := 0) (j := 0) s k).1.closing

theorem rank_of_closingMove (h : s.ClosingMove t) : s.closing.rank ≤ t.closing.rank := by
  cases h with
  | cancels => exact Nat.le_of_eq (congrArg Closing.rank (closing_cancelListener s _).symm)
  | listenersGone closing | skips closing | joins closing | sessionsGone closing
  | linksClosed closing | closes closing | portsGone closing | shutting closing | shut closing
  | stops closing | skipsStop closing | closed closing =>
    rw [closing]
    simp [Closing.rank]

/-- Only the shutdown brings itself about. -/
theorem closing_cases (s : Station σ ρ) (a : Action σ ρ) :
    (s.act a).closing = s.closing ∨ (a = .shutDown ∧ s.isOpen = true ∧ s.act a = s.shutDown) ∨
      s.ClosingMove (s.act a) := by
  cases s.rearranges_act a with
  | same listeners ports closing => exact .inl closing
  | listening action opened state => exact .inl (by rw [state, closing_listen])
  | serving action opened state => exact .inl (by rw [state, closing_addPort])
  | accepting action known running state ports closing => exact .inl closing
  | stopping calm known gone listeners ports closing => exact .inl closing
  | beginning action opened state => exact .inr (.inl ⟨action, opened, state⟩)
  | closing action move => exact .inr (.inr move)

theorem rank_act (s : Station σ ρ) (a : Action σ ρ) :
    s.closing.rank ≤ (s.act a).closing.rank := by
  rcases s.closing_cases a with hsame | ⟨-, hopen, -⟩ | hmove
  · exact Nat.le_of_eq (congrArg _ hsame.symm)
  · rw [closing_of_open hopen]
    exact Nat.zero_le _
  · exact rank_of_closingMove hmove

theorem rank_run (s : Station σ ρ) (actions : List (Action σ ρ)) :
    s.closing.rank ≤ (s.run actions).closing.rank := by
  induction actions generalizing s with
  | nil => exact Nat.le_refl _
  | cons a rest ih => exact Nat.le_trans (s.rank_act a) (ih (s.act a))

theorem open_iff_rank : s.isOpen = true ↔ s.closing.rank = 0 := by
  rw [isOpen, decide_eq_true_eq]
  cases s.closing <;> simp [Closing.rank]

theorem not_open_of_closingMove (h : s.ClosingMove t) : s.isOpen = false := by
  cases h with
  | listenersGone closing | skips closing | cancels closing | joins closing | sessionsGone closing
  | linksClosed closing | closes closing | portsGone closing | shutting closing | shut closing
  | stops closing | skipsStop closing | closed closing => simp [isOpen, closing]

theorem not_open_shutDown (s : Station σ ρ) : s.shutDown.isOpen = false := by
  by_cases hopen : s.isOpen = true
  · simp [isOpen, closing_shutDown hopen]
  · rw [shutDown, if_neg hopen]
    exact (Bool.not_eq_true _).mp hopen

theorem not_open_run (h : s.isOpen = false) (actions : List (Action σ ρ)) :
    (s.run actions).isOpen = false := by
  rw [← Bool.not_eq_true, open_iff_rank] at h ⊢
  have hrank := s.rank_run actions
  omega

theorem open_of_run {actions : List (Action σ ρ)} (h : (s.run actions).isOpen = true) :
    s.isOpen = true := by
  by_contra hclosed
  rw [not_open_run ((Bool.not_eq_true _).mp hclosed)] at h
  cases h

/-- A station that is not open any more has been asked to shut down while it was open. -/
theorem shutDown_of_not_open {actions : List (Action σ ρ)} (h : s.isOpen = true)
    (closed : (s.run actions).isOpen = false) :
    ∃ before after, actions = before ++ .shutDown :: after ∧ (s.run before).isOpen = true := by
  induction actions generalizing s with
  | nil => exact absurd h (by rw [show s.isOpen = false from closed]; exact Bool.false_ne_true)
  | cons a rest ih =>
    by_cases hnext : (s.act a).isOpen = true
    · obtain ⟨before, after, rfl, hbefore⟩ := ih hnext closed
      exact ⟨a :: before, after, rfl, hbefore⟩
    · rcases s.closing_cases a with hsame | ⟨rfl, -⟩ | hmove
      · exact absurd (by rwa [isOpen, hsame]) hnext
      · exact ⟨[], rest, rfl, h⟩
      · rw [not_open_of_closingMove hmove] at h
        cases h

end

end Station

end ModbusSlave
