import ModbusSlave.Proofs.Station.Delivery

/-!
# A link is accepted

Before a link is there, nobody has anything to do with it: no session, no write, no message and no
port. When a listener accepts it, its session is the only one on it and nothing has come in or gone
out yet.
-/
namespace ModbusSlave.Station

variable {σ ρ : Type} {i : Nat} {s : Station σ ρ}

/-- Neither the queue nor the worker has anything to do with the link `i`. -/
structure Silent (i : Nat) (s : Station σ ρ) : Prop where
  job : s.worker.job.link? ≠ some i
  queue : ∀ message ∈ s.worker.queue, message.link? ≠ some i

/-- The link `i` has nothing to do with any part of the station. -/
structure Unknown (i : Nat) (s : Station σ ρ) : Prop where
  apart : ∀ j, s.Apart i j
  silent : s.Silent i

theorem silent_act {a : Action σ ρ} (h : s.Silent i) (hspoken : s.spoken i a = []) :
    (s.act a).Silent i := by
  obtain hkeeps | ⟨message, queue, htakes⟩ := s.keeps_or_takes a
  · constructor
    · by_cases hworker : a = .step .worker
      · subst hworker
        rcases hkeeps.busy with hsame | ⟨hmove, hbusy⟩
        · rw [hsame]
          exact h.job
        · exact link?_of_move hmove hbusy h.job
      · rw [job_act hworker]
        exact h.job
    · intro m hm
      rw [hkeeps.queue] at hm
      rcases List.mem_append.mp hm with hold | hnew
      · exact h.queue m hold
      · intro hlink
        have hmem : m ∈ s.spoken i a := List.mem_filter.mpr ⟨hnew, decide_eq_true hlink⟩
        rw [hspoken] at hmem
        cases hmem
  · have hqueue := h.queue
    rw [htakes.waiting] at hqueue
    constructor
    · rw [htakes.worker]
      intro hjob
      exact hqueue message List.mem_cons_self (s.link?_jobFor hjob)
    · intro m hm
      rw [htakes.worker] at hm
      have hmem : m ∈ queue := by
        cases heffect : (s.worker.service.handle s.level message).2.1 with
        | stop => simp [heffect, queueFor] at hm
        | _ => simpa only [heffect, queueFor] using hm
      exact hqueue m (List.mem_cons_of_mem message hmem)

theorem exists_other_session (a : Action σ ρ) :
    ∃ j, a ≠ .step (.session j) ∧ a ≠ .sessionStop j := by
  cases a with
  | sessionStop k =>
    refine ⟨k + 1, by simp, ?_⟩
    intro h
    injection h with h
    omega
  | step part =>
    cases part with
    | session k =>
      refine ⟨k + 1, ?_, by simp⟩
      intro h
      injection h with h
      injection h with h
      omega
    | _ => exact ⟨0, by simp, by simp⟩
  | _ => exact ⟨0, by simp, by simp⟩

theorem unknown_act {a : Action σ ρ} (h : s.Unknown i) (ha : a.Spares i)
    (hsize : (s.act a).links.size ≤ i) : (s.act a).Unknown i := by
  constructor
  · intro j
    exact apart_act (h.apart j) ha (.inl hsize)
  · obtain ⟨j, hstep, hstop⟩ := exists_other_session a
    exact silent_act h.silent (spoken_eq_nil (h.apart j) ha hstep hstop)

theorem unknown_run {actions : List (Action σ ρ)} (h : s.Unknown i)
    (hactions : ∀ a ∈ actions, a.Spares i) (hsize : (s.run actions).links.size ≤ i) :
    (s.run actions).Unknown i := by
  induction actions generalizing s with
  | nil => exact h
  | cons a rest ih =>
    have hlater : (s.act a).links.size ≤ i :=
      Nat.le_trans (size_links_run (s.act a) rest) hsize
    apply ih (unknown_act h (hactions a List.mem_cons_self) hlater)
    · intro b hb
      exact hactions b (List.mem_cons_of_mem a hb)
    · exact hsize

theorem unknown_ofSettings (settings : ServerSettings) (i : Nat) :
    (ofSettings settings : Station σ ρ).Unknown i := by
  constructor
  · intro j
    refine ⟨?_, ?_, List.forall_mem_nil _, List.forall_mem_nil _⟩
    · intro k session hk
      cases hk
    · intro writer hwriter
      exact absurd hwriter (Array.not_mem_empty writer)
  · exact ⟨(Option.some_ne_none i).symm, List.forall_mem_nil _⟩

/-- The link `i` has just come in with the session `j` on it. -/
structure Accepted (i j : Nat) (s : Station σ ρ) : Prop where
  known : i < s.links.size
  apart : s.Apart i j
  silent : s.Silent i
  intake : s.Intake i j [] []
  delivers : s.Delivers i []

theorem Apart.attach {u : Station σ ρ} (h : ∀ j, u.Apart u.links.size j) (link : Link)
    (parser : Parser) (policy : FaultPolicy) (role : Role) :
    (u.attach link parser policy role).Apart u.links.size u.sessions.size := by
  refine ⟨?_, (h 0).writers, (h 0).ports, (h 0).closing⟩
  intro k session hk hlink
  rw [Station.attach, Array.getElem?_push] at hk
  split at hk
  · next hlast => exact hlast
  · have hsame := (h (k + 1)).sessions k session hk hlink
    omega

theorem accepted_accept {k : Nat} {listener : Listener} (h : s.Unknown s.links.size)
    (hlistener : s.listeners[k]? = some listener) (hrunning : listener.running = true)
    (peer : String) (incoming outgoing : Nat) :
    (s.act (.accept k peer (.fresh incoming outgoing false none))).Accepted s.links.size
      s.sessions.size := by
  simp only [act]
  have hworker := s.worker_accept k peer (.fresh incoming outgoing false none)
  obtain ⟨-, hstill⟩ | ⟨u, cancelled, id, hsame, -, haccept⟩ := frame_of_accept (i := 0) (j := 0)
    s k peer (.fresh incoming outgoing false none)
  · rw [hstill listener hlistener] at hrunning
    cases hrunning
  · rw [haccept] at hworker ⊢
    have hsessions : u.sessions.size = s.sessions.size := by
      have hsize := congrArg Array.size hsame.sessions
      rwa [Array.size_map, Array.size_map] at hsize
    have hapart : ∀ j, u.Apart u.links.size j := by
      intro j
      rw [hsame.links]
      have hwriters := of_writerLinks (h.apart j).writers hsame.writers
      refine ⟨(h.apart j).of_sessionLinks hsame.sessions, hwriters, ?_, ?_⟩
      · rw [hsame.ports]
        exact (h.apart j).ports
      · rw [hsame.closing]
        exact (h.apart j).closing
    have hon : ∀ link, (u.attach link (.mbap .start) .close (.accepted k id)).links[u.links.size]? =
        some link := by
      intro link
      exact Array.getElem?_push_size
    rw [← hsame.links, ← hsessions]
    refine ⟨?_, Apart.attach hapart _ _ _ _, ?_, ?_, _, hon _, ?_⟩
    · rw [attach, Array.size_push]
      exact Nat.lt_succ_self _
    · constructor
      · rw [hworker, hsame.links]
        exact h.silent.job
      · rw [hworker, hsame.links]
        exact h.silent.queue
    · have hempty : Mbap.Consumes [] [] [] := rfl
      exact .live Array.getElem?_push_size (hon _) ⟨rfl, rfl, k, id, rfl⟩ rfl (.inl ⟨none, rfl⟩)
        Mbap.awaits_ofParser hempty rfl
    · cases cancelled with
      | true => exact .inl rfl
      | false =>
        right
        have hjob : (u.attach { Link.fresh incoming outgoing false none with closed := false }
            (.mbap .start) .close (.accepted k id)).worker.job.link? ≠ some u.links.size := by
          rw [hworker, hsame.links]
          exact h.silent.job
        refine ⟨rfl, rfl, rfl, ?_, ?_⟩
        · rw [Job.unsent_of_ne hjob]
          rfl
        · rw [Job.holds_of_ne hjob]
          rfl

end ModbusSlave.Station
