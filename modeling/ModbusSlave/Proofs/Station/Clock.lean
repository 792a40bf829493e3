import ModbusSlave.Proofs.Station.Neighbours

/-!
# The clock

Time passes in ticks and in nothing else, and how long a response may take never changes.
-/
namespace ModbusSlave

def Action.isTick {σ ρ : Type} : Action σ ρ → Bool
  | .tick => true
  | _ => false

theorem Action.eq_tick {σ ρ : Type} {a : Action σ ρ} (h : a.isTick = true) : a = .tick := by
  cases a with
  | tick => rfl
  | _ => cases h

namespace Station

variable {σ ρ : Type} {s t : Station σ ρ} {k : Nat}

theorem now_enqueue (s : Station σ ρ) (message : Message σ ρ) :
    (s.enqueue message).now = s.now := by
  unfold enqueue
  split <;> rfl

theorem now_writeFailed (s : Station σ ρ) (k : Nat) (fault : WriteFault) :
    (s.writeFailed k fault).now = s.now := by
  unfold writeFailed
  dsimp only
  split <;> rfl

theorem now_leave (s : Station σ ρ) (k : Nat) (session : Session) (fault : RequestFault) :
    (s.leave k session fault).now = s.now := by
  unfold leave
  split
  · rfl
  · rfl
  · dsimp only
    split
    · rfl
    · exact now_enqueue (s.note _) _

theorem now_carryOut (s : Station σ ρ) (k : Nat) (step : Session × Demand × List Event) :
    (s.carryOut k step).now = s.now := by
  obtain ⟨session, demand, events⟩ := step
  cases demand with
  | nothing => rfl
  | leave fault => exact now_leave (s.note events) k session fault
  | submit frame =>
    simp only [carryOut]
    split
    · exact now_leave (s.note events) k session .shutdown
    · exact now_enqueue (s.note events) _

theorem now_sessionStep? (h : s.sessionStep? k = some t) : t.now = s.now := by
  simp only [sessionStep?, Option.bind_eq_bind, Option.bind_eq_some_iff] at h
  obtain ⟨session, -, h⟩ := h
  split at h
  · cases h
    exact now_carryOut s k _
  · simp only [Option.bind_eq_some_iff, Option.some.injEq] at h
    obtain ⟨link, -, ⟨got, incoming⟩, -, rfl⟩ := h
    exact now_carryOut (s.setLink _ _) k _
  · simp only [Option.bind_eq_some_iff, Option.some.injEq] at h
    obtain ⟨link, -, ⟨after, next⟩, -, rfl⟩ := h
    rfl
  · cases h

theorem now_sessionStop? (h : s.sessionStop? k = some t) : t.now = s.now := by
  simp only [sessionStop?, Option.bind_eq_bind, Option.bind_eq_some_iff,
    Option.ite_none_right_eq_some, Option.some.injEq] at h
  obtain ⟨session, -, -, rfl⟩ := h
  exact now_leave s k session .shutdown

theorem now_writerStep? (h : s.writerStep? k = some t) : t.now = s.now := by
  simp only [writerStep?, Option.bind_eq_bind, Option.bind_eq_some_iff] at h
  obtain ⟨writer, -, h⟩ := h
  split at h
  · cases h
  · simp only [Option.bind_eq_some_iff, Option.some.injEq] at h
    obtain ⟨link, -, step, -, rfl⟩ := h
    rfl

theorem now_of_halts (h : s.Halts k t) : t.now = s.now := by
  cases h
  exact foldl_fixed (·.now) (fun s (x : Nat × Nat) => s.closeLink x.2) (fun _ _ => rfl) _ _

theorem now_of_closingMove (h : s.ClosingMove t) : t.now = s.now := by
  cases h with
  | cancels =>
    exact foldl_fixed (·.now) (fun s (session : Session) => s.closeLink session.link)
      (fun _ _ => rfl) _ _
  | stops => exact now_enqueue s .stop
  | _ => rfl

theorem now_accept (s : Station σ ρ) (k : Nat) (peer : String) (link : Link) :
    (s.accept k peer link).now = s.now := by
  unfold accept
  split
  · rfl
  · next listener hl =>
    split
    · exact foldl_fixed (·.now) (fun s (x : Nat × Nat) => (s.note [.evicted x.1]).closeLink x.2)
        (fun _ _ => rfl) s _
    · rfl

theorem now_of_move (h : s.WorkerMove t) : t.now = s.now := by
  cases h with
  | take idle waiting taken =>
    simp only [takeMessage?, waiting, Option.some.injEq] at taken
    subst taken
    split <;> rfl
  | write =>
    unfold afterWrite
    split
    · rfl
    · rfl
    · exact now_writeFailed _ _ _
  | giveUpWrite => exact now_writeFailed _ _ _
  | @release i deadline stage link after next job known hstep => cases next <;> rfl
  | giveUpRelease => rfl

theorem now_act {a : Action σ ρ} (s : Station σ ρ) (ha : a.isTick = false) :
    (s.act a).now = s.now := by
  cases a with
  | tick => cases ha
  | arrive k bytes =>
    rcases s.act_arrive k bytes with hact | ⟨link, incoming, rest, -, -, hact⟩ <;> rw [hact]
    rfl
  | collect k count =>
    rcases s.act_collect k count with hact | ⟨link, outgoing, got, -, -, hact⟩ <;> rw [hact]
    rfl
  | accept k peer link => exact now_accept s k peer link
  | failAccept k kind =>
    rcases s.act_failAccept k kind with hsame | hhalts
    · rw [hsame]
    · exact now_of_halts hhalts
  | listen address =>
    simp only [act, listen]
    split <;> rfl
  | addPort name link =>
    simp only [act, addPort]
    split <;> rfl
  | submit message => exact now_enqueue s message
  | call run =>
    simp only [act, call]
    split
    · rfl
    · exact now_enqueue s _
  | shutDown =>
    simp only [act, shutDown]
    split <;> rfl
  | sessionStop k =>
    simp only [act]
    cases h : s.sessionStop? k with
    | none => rfl
    | some t => exact now_sessionStop? h
  | step part =>
    cases part with
    | session k =>
      simp only [act, partStep?]
      cases h : s.sessionStep? k with
      | none => rfl
      | some t => exact now_sessionStep? h
    | writer k =>
      simp only [act, partStep?]
      cases h : s.writerStep? k with
      | none => rfl
      | some t => exact now_writerStep? h
    | listener k =>
      rcases s.act_listener k with hsame | hhalts
      · rw [hsame]
      · exact now_of_halts hhalts
    | closing =>
      rcases s.act_closing with hsame | hmove
      · rw [hsame]
      · exact now_of_closingMove hmove
    | worker =>
      obtain ⟨-, hsame⟩ | hmove := s.act_worker
      · rw [hsame]
      · exact now_of_move hmove
  | _ => rfl

theorem now_le_act (s : Station σ ρ) (a : Action σ ρ) : s.now ≤ (s.act a).now := by
  cases ha : a.isTick with
  | false => exact Nat.le_of_eq (now_act s ha).symm
  | true =>
    rw [Action.eq_tick ha]
    exact Nat.le_succ s.now

theorem timeout_act (s : Station σ ρ) (a : Action σ ρ) :
    (s.act a).worker.timeout = s.worker.timeout := by
  by_cases ha : a = .step .worker
  · subst ha
    obtain ⟨-, hsame⟩ | hmove := s.act_worker
    · rw [hsame]
    · by_cases hidle : s.worker.job = .idle
      · obtain ⟨message, queue, hqueue, htake⟩ := take_of_move hmove hidle
        rw [worker_of_takeMessage? hidle hqueue htake]
      · obtain ⟨job, hworker, -⟩ := worker_of_move hmove hidle
        rw [hworker]
  · obtain ⟨messages, hoffers, -⟩ := s.offers_act ha
    rw [hoffers]

theorem timeout_run (s : Station σ ρ) (actions : List (Action σ ρ)) :
    (s.run actions).worker.timeout = s.worker.timeout := by
  induction actions generalizing s with
  | nil => rfl
  | cons a rest ih => exact (ih (s.act a)).trans (s.timeout_act a)

end Station

end ModbusSlave
