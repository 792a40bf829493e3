import ModbusSlave.Proofs.Station.Departure

/-!
# The end of a link

The worker comes to the release of an ended session behind all that was queued before. It closes the
link, waits for the lock and ends the stream, or gives that up at the deadline. Where the service
has stopped, the session does the same itself before it is over.
-/
namespace ModbusSlave.Station

variable {σ ρ : Type}

/-- The link is closed and its stream to the far end has ended. -/
def Ended (i : Nat) (s : Station σ ρ) : Prop :=
  ∃ link, s.links[i]? = some link ∧ link.closed = true ∧ link.outgoing.closed = true

/-- The worker has waited for the lock of the link up to the deadline. -/
def GivesUp (i : Nat) (s : Station σ ρ) : Prop :=
  ∃ stage deadline, s.worker.job = .releasing i stage deadline ∧
    s.links[i]?.bind (stage.step? .worker) = none ∧ deadline ≤ s.now

/-- Along the history, the worker gets done with all the messages that wait. -/
def Serves (s : Station σ ρ) (actions : List (Action σ ρ)) : Prop :=
  s.worker.queue.length < (s.along taken actions).length ∨
    (s.worker.queue.length = (s.along taken actions).length ∧
      ((s.run actions).worker.job = .idle ∨ (s.run actions).stopped = true))

/-- What has come of a release along a history, at whose beginning the worker is busy with it. -/
inductive Outcome (i : Nat) (s : Station σ ρ) (actions : List (Action σ ρ)) : Prop
  | busy {stage : ShutdownStage} {deadline : Nat} (untaken : s.along taken actions = [])
      (job : (s.run actions).worker.job = .releasing i stage deadline)
  | ended (ended : (s.run actions).Ended i)
  | givenUp {front back : List (Action σ ρ)} (split : actions = front ++ .step .worker :: back)
      (untaken : s.along taken front = []) (closed : (s.run actions).Closed i)
      (gives : (s.run front).GivesUp i)

section

variable {s t : Station σ ρ} {i : Nat}

theorem ended_act (h : s.Ended i) (a : Action σ ρ) : (s.act a).Ended i := by
  obtain ⟨link, on, hclosed, hended⟩ := h
  obtain ⟨after, hafter, hwanes⟩ := s.wanes_act a link on
  exact ⟨after, hafter, hwanes.closed hclosed, hwanes.ended hended⟩

theorem ended_run {actions : List (Action σ ρ)} (h : s.Ended i) : (s.run actions).Ended i := by
  obtain ⟨link, on, hclosed, hended⟩ := h
  obtain ⟨after, hafter, hwanes⟩ := s.wanes_run actions link on
  exact ⟨after, hafter, hwanes.closed hclosed, hwanes.ended hended⟩

/-- One step of a release: the link is closed first, and the stream ends last. -/
theorem released_move {stage : ShutdownStage} {deadline : Nat} (h : s.WorkerMove t)
    (hjob : s.worker.job = .releasing i stage deadline) (hi : i < s.links.size)
    (hstage : stage = .locking → s.Closed i) :
    (t.worker.job = .releasing i .locking deadline ∧ t.Closed i) ∨ t.Ended i ∨
      (s.Closed i ∧ s.GivesUp i) := by
  cases h with
  | take idle =>
    rw [hjob] at idle
    cases idle
  | write job =>
    rw [hjob] at job
    cases job
  | giveUpWrite job =>
    rw [hjob] at job
    cases job
  | @release k deadline' stage' link after next job known hstep =>
    rw [hjob] at job
    cases job
    cases stage with
    | entering =>
      cases hstep
      exact .inl ⟨rfl, _, links_setLink_self _ known, rfl⟩
    | locking =>
      obtain ⟨_, on, hclosed⟩ := hstage rfl
      obtain rfl := Option.some.inj (known.symm.trans on)
      simp only [ShutdownStage.step?, Option.ite_none_right_eq_some, Option.some.injEq] at hstep
      obtain ⟨-, hstep⟩ := hstep
      cases hstep
      exact .inr (.inl ⟨_, links_setLink_self _ known, hclosed, rfl⟩)
  | giveUpRelease job stuck late =>
    rw [hjob] at job
    cases job
    cases stage with
    | entering =>
      rw [Array.getElem?_eq_getElem hi] at stuck
      cases stuck
    | locking => exact .inr (.inr ⟨hstage rfl, .locking, _, hjob, stuck, late⟩)

theorem outcome_cons {a : Action σ ρ} {rest : List (Action σ ρ)} (htaken : s.taken a = [])
    (h : (s.act a).Outcome i rest) : s.Outcome i (a :: rest) := by
  cases h with
  | busy untaken job =>
    refine .busy ?_ job
    rw [along, htaken, untaken]
    rfl
  | ended ended => exact .ended ended
  | @givenUp front back split untaken closed gives =>
    subst split
    refine .givenUp (List.cons_append ..).symm ?_ closed gives
    rw [along, htaken, untaken]
    rfl

/-- From the beginning of a release on, the worker is busy with it, until it has ended the stream or
has given up. -/
theorem released_run {actions : List (Action σ ρ)} {stage : ShutdownStage} {deadline : Nat}
    (hjob : s.worker.job = .releasing i stage deadline) (hi : i < s.links.size)
    (hstage : stage = .locking → s.Closed i) : s.Outcome i actions := by
  induction actions generalizing s stage with
  | nil => exact .busy rfl hjob
  | cons a rest ih =>
    have htaken : s.taken a = [] := taken_of_busy (by rw [hjob]; exact Job.noConfusion) a
    have hi' := Nat.lt_of_lt_of_le hi (s.size_links_act a)
    by_cases hworker : a = .step .worker
    · subst hworker
      obtain ⟨-, hsame⟩ | hmove := s.act_worker
      · apply outcome_cons htaken
        rw [hsame]
        exact ih hjob hi hstage
      · obtain ⟨hjob', hclosed⟩ | hended | ⟨hclosed, hgives⟩ :=
          released_move hmove hjob hi hstage
        · exact outcome_cons htaken (ih hjob' hi' fun _ => hclosed)
        · exact .ended (ended_run (s := s.act _) hended)
        · exact .givenUp (List.nil_append _).symm rfl (closed_run hclosed) hgives
    · apply outcome_cons htaken
      exact ih ((s.job_act hworker).trans hjob) hi' fun hlocking => closed_act (hstage hlocking)

theorem takes_of_queue {front : List (Message σ ρ)} {message : Message σ ρ}
    {actions : List (Action σ ρ)} {a : Action σ ρ} (hs : s.stopped = false)
    (hqueue : s.worker.queue = front ++ [message])
    (hfront : (s.along taken actions).length = front.length)
    (htaken : (s.run actions).taken a ≠ []) :
    ∃ queue, (s.run actions).Takes a message queue := by
  obtain hkeeps | ⟨other, queue, htakes⟩ := (s.run actions).keeps_or_takes a
  · exact absurd hkeeps.taken htaken
  · obtain ⟨rest, hall, hrun, -⟩ := s.run_queue actions hs
    have hruns : (s.run actions).stopped = false := by
      rw [stopped, htakes.idle]
      rfl
    rw [(hrun hruns).1, htakes.waiting, hqueue, List.append_assoc] at hall
    obtain ⟨-, hsame⟩ := List.append_inj hall hfront.symm
    obtain rfl := (List.cons.inj hsame).1
    exact ⟨queue, htakes⟩

/-- The worker comes to a release that waits behind everything else. -/
theorem release_served {front : List (Message σ ρ)} {actions : List (Action σ ρ)}
    (hs : s.stopped = false) (hqueue : s.worker.queue = front ++ [.release i])
    (hi : i < s.links.size) (hserves : s.Serves actions) :
    (s.run actions).Ended i ∨
      ((s.run actions).Closed i ∧ ∃ before after, actions = before ++ .step .worker :: after ∧
        (s.along taken before).length = s.worker.queue.length ∧ (s.run before).GivesUp i) := by
  have hlength : s.worker.queue.length = front.length + 1 := by
    rw [hqueue, List.length_append, List.length_singleton]
  have hcount : front.length < (s.along taken actions).length := by
    rcases hserves with hmore | ⟨hall, -⟩ <;> omega
  obtain ⟨before, a, back, rfl, hbefore, htaken⟩ := along_split length_taken hcount
  obtain ⟨queue, htakes⟩ := takes_of_queue hs hqueue hbefore htaken
  have hi' : i < ((s.run before).act a).links.size := by
    rw [htakes.frame.1]
    exact Nat.lt_of_lt_of_le hi (s.size_links_run before)
  have hsofar : ∀ more, (s.along taken (before ++ a :: more)).length =
      front.length + 1 + (((s.run before).act a).along taken more).length := by
    intro more
    rw [along_append, along, htakes.taken, List.length_append, List.length_append, hbefore,
      List.length_singleton, Nat.add_assoc]
  rw [Serves, hsofar, hlength, run_append, run_cons] at hserves
  rw [run_append, run_cons]
  have houtcome : ((s.run before).act a).Outcome i back :=
    released_run (takes_release htakes) hi' (by rintro ⟨⟩)
  cases houtcome with
  | busy untaken job =>
    -- the worker would not have got done with the release
    exfalso
    rw [untaken, stopped, job] at hserves
    rcases hserves with hmore | ⟨-, hidle | hstopped⟩
    · exact Nat.lt_irrefl _ hmore
    · cases hidle
    · cases hstopped
  | ended ended => exact .inl ended
  | @givenUp front' back' split untaken closed gives =>
    subst split
    refine .inr ⟨closed, before ++ a :: front', back', by simp, ?_, ?_⟩
    · rw [hsofar, untaken, hlength]
      rfl
    · rwa [run_append, run_cons]

theorem turned_of_over {a : Action σ ρ} {n : Nat} {session : Session} {fault : RequestFault}
    (known : (s.act a).sessions[n]? = some session) (phase : session.phase = .over fault)
    (fresh : ∀ earlier, s.sessions[n]? = some earlier → earlier.isOver = false) :
    ∃ before, s.sessions[n]? = some before ∧ s.Turned n before (s.act a) := by
  have hnew : s.sessions[n]? ≠ some session := by
    intro hold
    have hover := fresh session hold
    rw [Session.isOver, phase] at hover
    cases hover
  rcases session_cases (s.seats_act a) known with hold | hlive | hturned
  · exact absurd hold hnew
  · rw [Session.fault?, phase] at hlive
    cases hlive
  · exact hturned

/-- A session that is over has left its release behind everything in the queue, or has ended the
stream itself, or belongs to no listener. -/
theorem over_cases {before session : Session} {fault : RequestFault}
    (h : s.Parting t before session) (phase : session.phase = .over fault)
    (hclosed : ∀ fault, before.phase = .departing fault .locking → s.Closed session.link) :
    (t.stopped = false ∧ t.worker.queue = s.worker.queue ++ [.release session.link]) ∨
      t.Ended session.link ∨ ∀ listener id, session.role ≠ .accepted listener id := by
  cases h with
  | releases _ role running queue => exact .inl ⟨running, queue⟩
  | remains remaining =>
    rw [phase] at remaining
    cases remaining
  | @departs fault stage link after next k departing on step?_eq links later =>
    right; left
    cases stage with
    | entering =>
      cases step?_eq
      rw [phase] at later
      cases later
    | locking =>
      obtain ⟨_, on', hlink⟩ := hclosed fault departing
      obtain rfl := Option.some.inj (on.symm.trans on')
      simp only [ShutdownStage.step?, Option.ite_none_right_eq_some, Option.some.injEq] at step?_eq
      obtain ⟨-, hstep⟩ := step?_eq
      cases hstep
      exact ⟨_, links, hlink, rfl⟩
  | quits _ role => simp [role]
  | bare _ role => simp [role]

/-- What becomes of the link of a session that has come to its end. If a listener has accepted it
and the worker has got done with all that was queued then, it is closed, and its stream to the far
end has ended unless the worker has given up the last of these messages, the release. On a serial
line nothing becomes of it: the session puts nothing into the queue, and the link is open and its
stream goes on if they did before. -/
theorem over_releases (settings : ServerSettings) (before after : List (Action σ ρ))
    {a : Action σ ρ} {s t : Station σ ρ} (reached : (ofSettings settings).run before = s)
    (next : s.act a = t) {n : Nat} {session : Session} {fault : RequestFault}
    (known : t.sessions[n]? = some session) (phase : session.phase = .over fault)
    (fresh : ∀ earlier, s.sessions[n]? = some earlier → earlier.isOver = false) :
    (∀ listener id, session.role = .accepted listener id → t.Serves after →
      ∃ link, (t.run after).links[session.link]? = some link ∧ link.closed = true ∧
        (link.outgoing.closed = true ∨
          ∃ front back, after = front ++ .step .worker :: back ∧
            (t.along taken front).length = t.worker.queue.length ∧
            (t.run front).GivesUp session.link)) ∧
    ∀ name, session.role = .port name →
      t.worker = s.worker ∧ s.Becomes session.link Link.Reads t := by
  subst reached next
  have hseated := seated_run (seated_ofSettings settings) before
  have hcleared : ((ofSettings settings).run before).Cleared :=
    cleared_run (cleared_ofSettings settings) (seated_ofSettings settings) before
  generalize (ofSettings settings).run before = s at known fresh hseated hcleared ⊢
  obtain ⟨earlier, held, turned⟩ := turned_of_over known phase fresh
  obtain ⟨hlink, hrole⟩ := same_of_turned turned held known
  have hparting := parting_of_turned turned held known (by rw [Session.fault?, phase]; simp)
  constructor
  · intro listener id haccepted hserves
    have hclosed := (hcleared n earlier held).locking
    rw [← hlink] at hclosed
    rcases over_cases hparting phase hclosed with ⟨hruns, hqueue⟩ | hended | hother
    · rcases release_served hruns hqueue (seated_act hseated a n session known) hserves with
        hended | ⟨⟨link, on, hclosed⟩, hgives⟩
      · obtain ⟨link, on, hclosed, hended⟩ := hended
        exact ⟨link, on, hclosed, .inl hended⟩
      · exact ⟨link, on, hclosed, .inr hgives⟩
    · have hend : ((s.act a).run after).Ended session.link := ended_run hended
      obtain ⟨link, on, hclosed, hended⟩ := hend
      exact ⟨link, on, hclosed, .inl hended⟩
    · exact absurd haccepted (hother listener id)
  · intro name hport
    cases hparting with
    | quits _ _ worker links => exact ⟨worker, links⟩
    | departs departing =>
      obtain ⟨listener, id, haccepted⟩ := (hcleared n earlier held).departing _ _ departing
      rw [← hrole, hport] at haccepted
      cases haccepted
    | releases _ role =>
      rw [hport] at role
      cases role
    | remains _ role =>
      rw [hport] at role
      cases role
    | bare _ role =>
      rw [hport] at role
      cases role

/-- The far end of an accepted link sends no more. Behind the session's last turn the worker takes
its release, closes the link and ends the stream. -/
theorem over_releases_finished :
    let before : List (Action Unit Unit) :=
      [.listen "here", .accept 0 "there" (.fresh 64 64 false none), .finish 0, .step (.session 0)]
    let after : List (Action Unit Unit) := [.step .worker, .step .worker, .step .worker]
    let t := ((ofSettings ⟨⟨1⟩, .uniform 2, .ofSeconds 1, none, .nothing⟩).run before).act
      (.step (.session 0))
    t.sessions[0]? = some ⟨0, .ofParser (.mbap .start), .close, .accepted 0 0,
        .over (.io .unexpectedEof)⟩ ∧ t.Serves after ∧
      ∃ link, (t.run after).links[0]? = some link ∧ link.closed = true ∧
        link.outgoing.closed = true := by
  intro before after t
  have known : t.sessions[0]? = some ⟨0, .ofParser (.mbap .start), .close, .accepted 0 0,
      .over (.io .unexpectedEof)⟩ := rfl
  have hserves : t.Serves after := .inr ⟨rfl, .inl rfl⟩
  have fresh : ∀ earlier : Session,
      ((ofSettings ⟨⟨1⟩, .uniform 2, .ofSeconds 1, none, .nothing⟩).run before).sessions[0]? =
        some earlier → earlier.isOver = false := by
    rintro _ ⟨⟩
    rfl
  obtain ⟨haccepted, -⟩ := over_releases _ before after rfl rfl known rfl fresh
  obtain ⟨link, on, hclosed, -⟩ := haccepted 0 0 rfl hserves
  have hended : (t.run after).links[0]?.map (·.outgoing.closed) = some true := by decide
  rw [on] at hended
  exact ⟨known, hserves, link, on, hclosed, Option.some.inj hended⟩

/-- The far end of a serial line sends no more. The session is over and nothing waits for the
worker, but the link is open and the far end is not told. -/
theorem port_left_open :
    let s : Station Unit Unit :=
      (ofSettings ⟨⟨1⟩, .uniform 2, .ofSeconds 1, none, .nothing⟩).run
        [.addPort "line" (.fresh 64 64 true none), .finish 0, .step (.session 0),
          .step (.session 0), .step .worker, .tick]
    s.sessions[0]?.map (fun session => (session.role, session.phase)) =
        some (.port "line", .over (.io .unexpectedEof)) ∧
      s.worker.queue = [] ∧ s.worker.job = .idle ∧
      s.links[0]?.map (fun link => (link.closed, link.outgoing.closed)) = some (false, false) :=
  ⟨rfl, rfl, rfl, rfl⟩

end

end ModbusSlave.Station
