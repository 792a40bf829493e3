import ModbusSlave.Proofs.Station.Integrity
import ModbusSlave.Proofs.Station.Sessions

/-!
# What is left of a session

The session of a listener that has ended has left a release behind, or shuts its link down itself.
It is the worker's beginning with that release that closes the link; until then it may be open,
although nobody reads it. The session of a serial line leaves nothing behind.
-/
namespace ModbusSlave.Station

variable {σ ρ : Type}

/-- The release of the link is still to come. It never comes if the service has stopped. -/
inductive Awaits (i : Nat) (s : Station σ ρ) : Prop
  | queued (waiting : .release i ∈ s.worker.queue)
  | next {deadline : Nat} (job : s.worker.job = .releasing i .entering deadline)
  | stopped (stopped : s.stopped = true)

/-- If the session of a listener does not read any more, its link is closed or its release is still
to come. -/
structure Clears (s : Station σ ρ) (session : Session) : Prop where
  ended : ∀ listener id, session.role = .accepted listener id → session.fault? ≠ none →
    s.Closed session.link ∨ s.Awaits session.link
  departing : ∀ fault stage, session.phase = .departing fault stage →
    ∃ listener id, session.role = .accepted listener id
  /-- Who shuts a link down has closed it before it waits for the lock. -/
  locking : ∀ fault, session.phase = .departing fault .locking → s.Closed session.link

def Cleared (s : Station σ ρ) : Prop :=
  ∀ (n : Nat) (session : Session), s.sessions[n]? = some session → s.Clears session

/-- How a session comes to what it is at the end of one of its turns, if it does not read any
more. -/
inductive Parting (s t : Station σ ρ) (before : Session) (session : Session) : Prop
  | releases {fault : RequestFault} {listener id : Nat} (phase : session.phase = .over fault)
      (role : session.role = .accepted listener id) (running : t.stopped = false)
      (queue : t.worker.queue = s.worker.queue ++ [.release session.link])
  | remains {fault : RequestFault} {listener id : Nat}
      (phase : session.phase = .departing fault .entering)
      (role : session.role = .accepted listener id) (stopped : t.stopped = true)
  | departs {fault : RequestFault} {stage : ShutdownStage} {link after : Link}
      {next : Option ShutdownStage} {k : Nat} (phase : before.phase = .departing fault stage)
      (on : s.links[session.link]? = some link)
      (step?_eq : stage.step? (.session k) link = some (after, next))
      (links : t.links[session.link]? = some after) (later : session.phase = .departed fault next)
  /-- The session of a serial line leaves everything as it is. -/
  | quits {fault : RequestFault} {name : String} (phase : session.phase = .over fault)
      (role : session.role = .port name) (worker : t.worker = s.worker)
      (links : s.Becomes session.link Link.Reads t)
  | bare {fault : RequestFault} (phase : session.phase = .over fault) (role : session.role = .bare)

section

variable {s t : Station σ ρ} {i k : Nat} {before : Session}

theorem closed_run {actions : List (Action σ ρ)} (h : s.Closed i) : (s.run actions).Closed i := by
  induction actions generalizing s with
  | nil => exact h
  | cons a rest ih => exact ih (closed_act h)

theorem takes_release {a : Action σ ρ} {queue : List (Message σ ρ)}
    (h : s.Takes a (.release i) queue) :
    (s.act a).worker.job = .releasing i .entering s.deadline := by
  rw [h.worker]
  rfl

theorem awaits_act {a : Action σ ρ} (hi : i < s.links.size) (h : s.Closed i ∨ s.Awaits i) :
    (s.act a).Closed i ∨ (s.act a).Awaits i := by
  rcases h with hclosed | ⟨waiting⟩ | ⟨job⟩ | ⟨stopped⟩
  · exact .inl (closed_act hclosed)
  · right
    obtain hkeeps | ⟨message, queue, htakes⟩ := s.keeps_or_takes a
    · apply Awaits.queued
      rw [hkeeps.queue]
      exact List.mem_append_left _ waiting
    · rw [htakes.waiting] at waiting
      rcases List.mem_cons.mp waiting with rfl | hlater
      · exact .next (takes_release htakes)
      · cases hstop : message.isStop with
        | true => exact .stopped (htakes.stopped.trans hstop)
        | false =>
          apply Awaits.queued
          rwa [htakes.queue hstop]
  · rcases shut_act (a := a) (.inr ⟨⟨_, Array.getElem?_eq_getElem hi⟩, _, job⟩) with
      hclosed | ⟨-, deadline, hjob⟩
    · exact .inl hclosed
    · exact .inr (.next hjob)
  · exact .inr (.stopped (stopped_act a stopped))

theorem parting_leave {u : Station σ ρ} {after session : Session} {fault : RequestFault}
    (known : u.sessions[k]? = some before)
    (hsession : (u.leave k after fault).sessions[k]? = some session)
    (worker : u.worker = s.worker) (links : s.Becomes after.link Link.Reads u) :
    s.Parting (u.leave k after fault) before session := by
  cases hrole : after.role with
  | bare =>
    have hleave : u.leave k after fault =
        (u.modifyLink after.link fun l => { l with incoming := l.incoming.close }).setSession k
          { after with phase := .over fault } := by
      simp only [leave, hrole]
      rfl
    rw [hleave, sessions_setSession (s := u.modifyLink _ _) _ known, Option.some.injEq] at hsession
    subst hsession
    exact .bare rfl hrole
  | port name =>
    simp only [leave, hrole] at hsession ⊢
    rw [sessions_setSession (s := u.note _) _ known, Option.some.injEq] at hsession
    subst hsession
    exact .quits rfl rfl worker links
  | accepted listener id =>
    cases hs : u.stopped with
    | false =>
      rw [leave_of_running u k fault hrole hs] at hsession ⊢
      rw [sessions_setSession _ (by rw [sessions_enqueue]; exact known),
        Option.some.injEq] at hsession
      subst hsession
      have hqueue : ((u.note [.sessionEnded id fault]).enqueue (.release after.link)).worker =
          { u.worker with queue := u.worker.queue ++ [.release after.link] } := by
        rw [enqueue, if_neg]
        · rfl
        · exact ne_true_of_eq_false hs
      refine .releases rfl hrole ?_ ?_
      · rw [stopped, setSession, hqueue]
        exact hs
      · rw [setSession, hqueue, worker]
    | true =>
      rw [leave_of_stopped u k fault hrole hs] at hsession ⊢
      rw [sessions_setSession (s := u.note _) _ known, Option.some.injEq] at hsession
      subst hsession
      exact .remains rfl hrole hs

theorem parting_of_turned {session : Session} (h : s.Turned k before t)
    (known : s.sessions[k]? = some before) (hsession : t.sessions[k]? = some session)
    (hfault : session.fault? ≠ none) : s.Parting t before session := by
  cases h with
  | reads live link role still sessions =>
    rw [sessions] at hsession
    rw [session_of_set known hsession] at still
    exact absurd still hfault
  | @leaves after fault u live link role sessions worker links =>
    rw [← link] at links
    exact parting_leave (by rw [sessions, known]) hsession worker links
  | @departs fault stage link after next phase on step?_eq =>
    rw [sessions_setSession (s := s.setLink _ _) _ known, Option.some.injEq] at hsession
    subst hsession
    exact .departs phase on step?_eq (links_setLink_self after on) rfl

theorem clears_of_live {session : Session} (h : session.fault? = none) : s.Clears session := by
  have hreads : ∀ fault stage, session.phase ≠ .departing fault stage := by
    intro fault stage hphase
    rw [Session.fault?, hphase] at h
    cases h
  exact ⟨fun _ _ _ hfault => absurd h hfault, fun fault stage hphase => absurd hphase
    (hreads fault stage), fun fault hphase => absurd hphase (hreads fault .locking)⟩

theorem clears_of_over {session : Session} {fault : RequestFault}
    (hphase : session.phase = .over fault)
    (hended : ∀ listener id, session.role = .accepted listener id →
      s.Closed session.link ∨ s.Awaits session.link) : s.Clears session := by
  have hover : ∀ fault stage, session.phase ≠ .departing fault stage := by
    intro fault stage hdeparting
    rw [hphase] at hdeparting
    cases hdeparting
  exact ⟨fun listener id hrole _ => hended listener id hrole, fun fault stage hdeparting => absurd
    hdeparting (hover fault stage), fun fault hlocking => absurd hlocking (hover fault .locking)⟩

theorem clears_of_parting {session : Session} (h : s.Parting t before session)
    (hrole : session.role = before.role)
    (hbefore : ∀ fault stage, before.phase = .departing fault stage →
      ∃ listener id, before.role = .accepted listener id)
    (hended : ∀ listener id, before.role = .accepted listener id → before.fault? ≠ none →
      t.Closed session.link ∨ t.Awaits session.link) :
    t.Clears session := by
  cases h with
  | releases phase role running queue =>
    apply clears_of_over phase
    intro listener id _
    right
    apply Awaits.queued
    rw [queue]
    exact List.mem_append_right _ (List.mem_singleton_self _)
  | remains phase role stopped =>
    refine ⟨fun _ _ _ _ => .inr (.stopped stopped), fun _ _ _ => ⟨_, _, role⟩, ?_⟩
    intro fault hphase
    rw [phase] at hphase
    cases hphase
  | @departs fault stage link after next k phase on step?_eq links later =>
    obtain ⟨listener, id, haccepted⟩ := hbefore fault stage phase
    refine ⟨fun _ _ _ _ => ?_, fun _ _ _ => ⟨listener, id, hrole.trans haccepted⟩, ?_⟩
    · apply hended listener id haccepted
      rw [Session.fault?, phase]
      exact Option.some_ne_none _
    · intro fault hphase
      rw [later] at hphase
      cases next with
      | none => cases hphase
      | some next =>
        cases stage with
        | entering =>
          cases step?_eq
          exact ⟨_, links, rfl⟩
        | locking => simp [ShutdownStage.step?] at step?_eq
  | quits phase role =>
    apply clears_of_over phase
    intro listener id haccepted
    rw [role] at haccepted
    cases haccepted
  | bare phase role =>
    apply clears_of_over phase
    intro listener id haccepted
    rw [role] at haccepted
    cases haccepted

theorem clears_act {session : Session} (h : s.Clears session) (hlink : session.link < s.links.size)
    (a : Action σ ρ) : (s.act a).Clears session where
  ended listener id hrole hfault := awaits_act hlink (h.ended listener id hrole hfault)
  departing := h.departing
  locking fault hphase := closed_act (h.locking fault hphase)

/-- Whatever happens, the sessions of listeners clear their links. -/
theorem cleared_act (h : s.Cleared) (hseated : s.Seated) (a : Action σ ρ) : (s.act a).Cleared := by
  have hkept : ∀ (n : Nat) (session : Session), s.sessions[n]? = some session →
      (s.act a).Clears session :=
    fun n session known => clears_act (h n session known) (hseated n session known) a
  intro n session hsession
  rcases session_cases (s.seats_act a) hsession with hold | hlive | ⟨before, known, turned⟩
  · exact hkept n session hold
  · exact clears_of_live hlive
  · obtain ⟨hlink, hrole⟩ := same_of_turned turned known hsession
    have hbefore := hkept n before known
    by_cases hfault : session.fault? = none
    · exact clears_of_live hfault
    · apply clears_of_parting (parting_of_turned turned known hsession hfault) hrole
        hbefore.departing
      rw [hlink]
      exact hbefore.ended

theorem cleared_run (h : s.Cleared) (hseated : s.Seated) (actions : List (Action σ ρ)) :
    (s.run actions).Cleared := by
  induction actions generalizing s with
  | nil => exact h
  | cons a rest ih => exact ih (cleared_act h hseated a) (seated_act hseated a)

theorem cleared_ofSettings (settings : ServerSettings) :
    (ofSettings settings : Station σ ρ).Cleared := by
  intro n session known
  simp [ofSettings] at known

end

end ModbusSlave.Station
