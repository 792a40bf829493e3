import ModbusSlave.Proofs.Station.Intake
import ModbusSlave.Proofs.Station.Outgoing
import ModbusSlave.Proofs.Station.Sessions

/-!
# What goes out on a link

While a link is open, what has been put on it and what the worker still has to put there are
together the responses that the worker has begun, and its lock is free or with the worker. A release
of the link comes behind all of them and ends the stream.
-/
namespace ModbusSlave

/-- The same link later on, as far as its outgoing side and the ends of both are concerned. -/
structure Link.Stays (before after : Link) : Prop where
  sent : after.sent = before.sent
  lock : after.lock = before.lock
  persistent : after.persistent = before.persistent
  broken : after.outgoing.broken = before.outgoing.broken
  ended : before.outgoing.closed = true → after.outgoing.closed = true
  closed : before.closed = true → after.closed = true
  finished : before.incoming.closed = true → after.incoming.closed = true

theorem Link.Stays.refl (link : Link) : link.Stays link := ⟨rfl, rfl, rfl, rfl, id, id, id⟩

theorem Link.stays_closed (link : Link) (closed : Bool) :
    link.Stays { link with closed := link.closed || closed } := by
  refine ⟨rfl, rfl, rfl, rfl, id, ?_, id⟩
  intro hclosed
  dsimp only
  rw [hclosed, Bool.true_or]

/-- The lock of a link that only the worker takes. -/
def Lock.held (taken : Bool) : Lock := if taken then ⟨some .worker, []⟩ else .free

def Job.holds (i : Nat) : Job → Bool
  | .writing write _ => write.link = i ∧ write.stage ≠ .entering
  | .releasing k stage _ => k = i ∧ stage = .locking
  | _ => false

theorem Job.holds_of_ne {job : Job} {i : Nat} (h : job.link? ≠ some i) :
    job.holds i = false := by
  cases job with
  | writing write deadline => exact decide_eq_false fun hi => h (congrArg some hi.1)
  | releasing k stage deadline => exact decide_eq_false fun hi => h (congrArg some hi.1)
  | _ => rfl

namespace Lock

theorem request_free : Lock.free.request .worker = held true := rfl

theorem leave_held : (held true).leave .worker = held false := rfl

theorem holder_held : (held true).holder = some .worker := rfl

theorem taken_of_holder {taken : Bool} {party : Party} (h : (held taken).holder = some party) :
    taken = true ∧ party = .worker := by
  cases taken with
  | false => cases h
  | true => exact ⟨rfl, (Option.some.inj h).symm⟩

end Lock

theorem lock_of_writeStep {w : Write} {now : Nat} {link : Link} {step : WriteStep}
    (h : w.step? .worker now link = some step) (hlock : link.lock = .held (w.stage ≠ .entering)) :
    step.link.lock = .held step.next.isLeft := by
  obtain ⟨i, bytes, level, stage⟩ := w
  cases stage with
  | entering =>
    simp only [Write.step?] at h
    split at h
    · cases h
      exact hlock
    · cases h
      dsimp only at hlock ⊢
      rw [hlock]
      exact Lock.request_free
  | locking =>
    simp only [Write.step?, Option.ite_none_right_eq_some] at h
    obtain ⟨-, h⟩ := h
    split at h <;> cases h <;> exact hlock
  | silent tick =>
    simp only [Write.step?, Option.ite_none_right_eq_some, Option.some.injEq] at h
    obtain ⟨-, rfl⟩ := h
    exact hlock
  | pushing rest =>
    have hleave : (link.release .worker).lock = .held false := by
      dsimp only [Link.release]
      rw [hlock]
      exact Lock.leave_held
    cases rest with
    | nil =>
      cases h
      exact hleave
    | cons b rest =>
      simp only [Write.step?] at h
      split at h
      · cases h
      · cases h
        exact hleave
      · cases h
        exact hlock

namespace Station

variable {σ ρ : Type}

section

variable {i j : Nat} {s t : Station σ ρ} {total : Bytes}

theorem links_leave_of_owns {session : Session} (s : Station σ ρ) (k : Nat)
    (owns : session.Owns i) (fault : RequestFault) : (s.leave k session fault).links = s.links := by
  obtain ⟨-, -, listener, id, hrole⟩ := owns
  simp only [leave, hrole]
  split
  · rfl
  · exact links_enqueue _ _

theorem links_carryOut_of_owns (s : Station σ ρ) (k : Nat)
    {step : Session × Demand × List Event} (owns : step.1.Owns i) :
    (s.carryOut k step).links = s.links := by
  obtain ⟨session, demand, events⟩ := step
  cases demand with
  | nothing => rfl
  | leave fault => exact links_leave_of_owns (s.note events) k owns fault
  | submit frame =>
    simp only [carryOut]
    split
    · exact links_leave_of_owns (s.note events) k owns .shutdown
    · exact links_enqueue (s.note events) _

theorem owns_parse {session : Session} (owns : session.Owns i) (level : DecodeLevel) :
    (session.parse level).1.Owns i := by
  obtain ⟨hlink, hpolicy, hrole⟩ := owns
  unfold Session.parse
  dsimp only
  split
  · exact ⟨hlink, hpolicy, hrole⟩
  · exact ⟨hlink, hpolicy, hrole⟩
  · split <;> exact ⟨hlink, hpolicy, hrole⟩

theorem owns_receive {session : Session} (owns : session.Owns i) (level : DecodeLevel)
    (got : Except IoKind Bytes) : (session.receive level got).1.Owns i := by
  obtain ⟨hlink, hpolicy, hrole⟩ := owns
  unfold Session.receive
  dsimp only
  split <;> exact ⟨hlink, hpolicy, hrole⟩

theorem stays_session {session : Session} (known : s.sessions[j]? = some session)
    (owns : session.Owns i) (hphase : ∀ fault stage, session.phase ≠ .departing fault stage) :
    s.Becomes i Link.Stays (s.act (.step (.session j))) := by
  have same : s.Becomes i Link.Stays s := becomes_of_eq Link.Stays.refl rfl
  cases hp : session.phase with
  | parsing level =>
    rw [act_parsing known hp]
    exact becomes_of_eq Link.Stays.refl (links_carryOut_of_owns s j (owns_parse owns _))
  | reading level =>
    cases hlink : s.links[session.link]? with
    | none =>
      have hact : s.act (.step (.session j)) = s := by
        simp [act, partStep?, sessionStep?, known, hp, hlink]
      rwa [hact]
    | some link =>
      cases hread : link.incoming.read? session.reader.room with
      | none =>
        have hact : s.act (.step (.session j)) = s := by
          simp [act, partStep?, sessionStep?, known, hp, hlink, hread]
        rwa [hact]
      | some result =>
        obtain ⟨got, incoming⟩ := result
        rw [act_reading known hp hlink hread]
        have hset : s.Becomes i Link.Stays (s.setLink session.link { link with incoming }) :=
          becomes_setLink Link.Stays.refl hlink
            ⟨rfl, rfl, rfl, rfl, id, id, (Pipe.read?_eq_some hread).2.trans⟩
        intro before hbefore
        rw [links_carryOut_of_owns _ j (owns_receive owns level got)]
        exact hset before hbefore
  | departing fault stage => exact absurd hp (hphase fault stage)
  | «over» fault =>
    have hact : s.act (.step (.session j)) = s := by
      simp [act, partStep?, sessionStep?, known, hp]
    rwa [hact]

theorem stays_sessionStop {session : Session} (known : s.sessions[j]? = some session)
    (owns : session.Owns i) : s.Becomes i Link.Stays (s.act (.sessionStop j)) := by
  cases hstop : s.sessionStop? j with
  | none =>
    have hact : s.act (.sessionStop j) = s := by simp [act, hstop]
    rw [hact]
    exact becomes_of_eq Link.Stays.refl rfl
  | some t =>
    have hact : s.act (.sessionStop j) = t := by simp [act, hstop]
    simp only [sessionStop?, known, Option.bind_eq_bind, Option.bind_some,
      Option.ite_none_right_eq_some, Option.some.injEq] at hstop
    obtain ⟨-, rfl⟩ := hstop
    rw [hact]
    exact becomes_of_eq Link.Stays.refl (links_leave_of_owns s j owns .shutdown)

theorem stays_collect (s : Station σ ρ) (k count : Nat) :
    s.Becomes i Link.Stays (s.act (.collect k count)) := by
  rcases s.act_collect k count with hact | ⟨link, outgoing, got, hlink, hread, hact⟩
  · rw [hact]
    exact becomes_of_eq Link.Stays.refl rfl
  · rw [hact]
    obtain ⟨hbroken, hclosed⟩ := Pipe.read?_eq_some hread
    exact becomes_setLink Link.Stays.refl hlink
      ⟨Link.sent_of_read? hread, rfl, rfl, hbroken, hclosed.trans, id, id⟩

/-- Nobody but the worker and a session that departs puts anything on the link or locks it. -/
theorem stays_act {a : Action σ ρ} {session : Session} (h : s.Apart i j) (ha : a.Spares i)
    (known : s.sessions[j]? = some session) (owns : session.Owns i) (hworker : a ≠ .step .worker)
    (hdeparts : a = .step (.session j) → ∀ fault stage, session.phase ≠ .departing fault stage) :
    s.Becomes i Link.Stays (s.act a) := by
  by_cases hconcerns : a.Concerns i j
  · cases a with
    | arrive k bytes =>
      rcases s.act_arrive k bytes with hact | ⟨link, incoming, rest, hlink, hwrite, hact⟩
      · rw [hact]
        exact becomes_of_eq Link.Stays.refl rfl
      · rw [hact]
        obtain ⟨-, rfl, -⟩ := Pipe.write?_eq_ok hwrite
        exact becomes_setLink Link.Stays.refl hlink ⟨rfl, rfl, rfl, rfl, id, id, id⟩
    | finish k =>
      exact becomes_modifyLink Link.Stays.refl s fun link =>
        ⟨rfl, rfl, rfl, rfl, id, id, fun _ => rfl⟩
    | deafen k =>
      exact becomes_modifyLink Link.Stays.refl s fun link =>
        ⟨rfl, rfl, rfl, rfl, fun _ => rfl, id, id⟩
    | collect k count => exact stays_collect s k count
    | sessionStop k =>
      obtain rfl : k = j := hconcerns
      exact stays_sessionStop known owns
    | step part =>
      cases part with
      | session k =>
        obtain rfl : k = j := hconcerns
        exact stays_session known owns (hdeparts rfl)
      | worker => exact absurd rfl hworker
      | _ => exact hconcerns.elim
    | _ => exact hconcerns.elim
  · exact (leaves_act h ha hconcerns).becomes Link.stays_closed

/-- Nothing but what the worker has begun is on its way on the open link, and `total` is all of
it. -/
structure Carries (i : Nat) (s : Station σ ρ) (total : Bytes) (link : Link) : Prop where
  opened : link.closed = false
  persistent : link.persistent = false
  sound : link.outgoing.broken = none
  whole : link.sent ++ s.worker.job.unsent i = total
  lock : link.lock = .held (s.worker.job.holds i)

/-- The link has been closed, or it carries `total`. -/
def Delivers (i : Nat) (s : Station σ ρ) (total : Bytes) : Prop :=
  ∃ link, s.links[i]? = some link ∧ (link.closed = true ∨ s.Carries i total link)

theorem delivers_of_stays (h : s.Delivers i total) (hstays : s.Becomes i Link.Stays t)
    (hjob : t.worker.job = s.worker.job) : t.Delivers i total := by
  obtain ⟨link, on, hlink⟩ := h
  obtain ⟨after, hafter, hstays⟩ := hstays link on
  refine ⟨after, hafter, ?_⟩
  cases hclosed : after.closed with
  | true => exact .inl rfl
  | false =>
    right
    rcases hlink with hold | hold
    · rw [hstays.closed hold] at hclosed
      cases hclosed
    · refine ⟨hclosed, hstays.persistent.trans hold.persistent, hstays.broken.trans hold.sound,
        ?_, ?_⟩
      · rw [hstays.sent, hjob, hold.whole]
      · rw [hstays.lock, hjob, hold.lock]

/-- A departure closes the link first, and gets no further while the link is open. -/
theorem delivers_departing {session : Session} {fault : RequestFault} {stage : ShutdownStage}
    (h : s.Delivers i total) (known : s.sessions[j]? = some session) (owns : session.Owns i)
    (hphase : session.phase = .departing fault stage) :
    (s.act (.step (.session j))).Delivers i total := by
  obtain ⟨link, on, hlink⟩ := h
  have hon : s.links[session.link]? = some link := by rw [owns.link, on]
  obtain ⟨hi, -⟩ := Array.getElem?_eq_some_iff.mp on
  cases hstep : stage.step? (.session j) link with
  | none =>
    have hact : s.act (.step (.session j)) = s := by
      simp [act, partStep?, sessionStep?, known, hphase, hon, hstep]
    rw [hact]
    exact ⟨link, on, hlink⟩
  | some result =>
    obtain ⟨after, next⟩ := result
    have hclosed : after.closed = true := by
      cases stage with
      | entering =>
        cases hstep
        rfl
      | locking =>
        rcases hlink with hold | hold
        · exact (follows_of_shutdownStep hstep).closed hold
        · simp only [ShutdownStage.step?, Option.ite_none_right_eq_some] at hstep
          obtain ⟨hholder, -⟩ := hstep
          rw [hold.lock] at hholder
          obtain ⟨-, hparty⟩ := Lock.taken_of_holder hholder
          cases hparty
    obtain ⟨phase, -, hact⟩ := act_departing known hphase hon hstep
    have hafter : (s.act (.step (.session j))).links[i]? = some after := by
      rw [hact, owns.link]
      exact Array.getElem?_setIfInBounds_self_of_lt hi
    exact ⟨after, hafter, .inl hclosed⟩

theorem link?_jobFor (s : Station σ ρ) {message : Message σ ρ} {k : Nat}
    (h : (s.jobFor (s.worker.service.handle s.level message).2.1).link? = some k) :
    message.link? = some k := by
  cases message with
  | request link frame =>
    simp only [Service.handle] at h
    split at h
    · exact h
    · cases h
  | release link => exact h
  | _ => cases h

theorem delivers_takes {a : Action σ ρ} {message : Message σ ρ} {queue : List (Message σ ρ)}
    (h : s.Takes a message queue) {link : Link} (on : (s.act a).links[i]? = some link)
    (hcarries : s.Carries i total link) :
    (s.act a).Delivers i (total ++ s.answered i a) := by
  have hwhole := hcarries.whole
  have hlock := hcarries.lock
  rw [h.idle] at hwhole hlock
  have hsent : link.sent = total := (List.append_nil _).symm.trans hwhole
  refine ⟨link, on, .inr ⟨hcarries.opened, hcarries.persistent, hcarries.sound, ?_, ?_⟩⟩
  · rw [hsent, h.unsent]
  · rw [hlock, h.worker]
    cases (s.worker.service.handle s.level message).2.1 with
    | respond k response => simp [jobFor, Job.holds]
    | release k => simp [jobFor, Job.holds]
    | _ => rfl

theorem delivers_of_elsewhere {link : Link} (on : t.links[i]? = some link)
    (hcarries : s.Carries i total link) (hbefore : s.worker.job.link? ≠ some i)
    (hafter : t.worker.job.link? ≠ some i) : t.Delivers i total := by
  have hwhole := hcarries.whole
  have hlock := hcarries.lock
  rw [Job.unsent_of_ne hbefore] at hwhole
  rw [Job.holds_of_ne hbefore] at hlock
  refine ⟨link, on, .inr ⟨hcarries.opened, hcarries.persistent, hcarries.sound, ?_, ?_⟩⟩
  · rw [Job.unsent_of_ne hafter, hwhole]
  · rw [Job.holds_of_ne hafter, hlock]

theorem delivers_write {write : Write} {deadline : Nat} {link : Link} {step : WriteStep}
    (job : s.worker.job = .writing write deadline) (on : s.links[write.link]? = some link)
    (hcarries : s.Carries write.link total link)
    (hstep : write.step? .worker s.now link = some step) :
    (s.afterWrite write deadline step).Delivers write.link total := by
  obtain ⟨hclosed, hpersistent, hbroken⟩ := frame_of_writeStep hstep
  rw [hcarries.opened] at hclosed
  rw [hcarries.persistent] at hpersistent
  rw [hcarries.sound] at hbroken
  have hlock := hcarries.lock
  have hwhole := hcarries.whole
  simp only [job, Job.holds, true_and] at hlock
  simp only [job, Job.unsent, if_true] at hwhole
  have hafter : (s.setLink write.link step.link).links[write.link]? = some step.link :=
    links_setLink_self step.link on
  have hlock := lock_of_writeStep hstep hlock
  cases Write.sends_of_step? hstep with
  | @on after stage events sent grows opened begun =>
    refine ⟨after, hafter, .inr ⟨hclosed, hpersistent, hbroken, ?_, ?_⟩⟩
    · simp only [afterWrite, worker_setJob, Job.unsent, if_true]
      rw [sent, hwhole]
    · rw [hlock]
      simp [afterWrite, Job.holds, begun]
  | @done after events sent left =>
    rw [left, List.append_nil] at hwhole
    refine ⟨after, hafter, .inr ⟨hclosed, hpersistent, hbroken, ?_, hlock⟩⟩
    exact (List.append_nil _).trans (sent.trans hwhole)
  | @failed after kind events sent =>
    exact ⟨after.close, closed_afterWrite on hpersistent, .inl rfl⟩

theorem delivers_giveUpWrite {write : Write} {link : Link}
    (on : s.links[write.link]? = some link) (hcarries : s.Carries write.link total link) :
    (s.giveUpWrite write).Delivers write.link total :=
  ⟨_, closed_giveUpWrite on hcarries.persistent, .inl rfl⟩

theorem delivers_release {deadline : Nat} {stage : ShutdownStage} {link after : Link}
    {next : Option ShutdownStage} (job : s.worker.job = .releasing i stage deadline)
    (on : s.links[i]? = some link) (hcarries : s.Carries i total link)
    (hstep : stage.step? .worker link = some (after, next)) :
    (s.afterRelease i deadline after next).Delivers i total := by
  have hafter : (s.setLink i after).links[i]? = some after := links_setLink_self after on
  cases stage with
  | entering =>
    cases hstep
    exact ⟨_, hafter, .inl rfl⟩
  | locking =>
    have hlock := hcarries.lock
    have hwhole := hcarries.whole
    simp only [job, Job.holds, and_self, decide_true] at hlock
    rw [job] at hwhole
    simp only [ShutdownStage.step?, Option.ite_none_right_eq_some, Option.some.injEq,
      Prod.mk.injEq] at hstep
    obtain ⟨-, rfl, rfl⟩ := hstep
    refine ⟨_, hafter, .inr ⟨hcarries.opened, hcarries.persistent, hcarries.sound, hwhole, ?_⟩⟩
    dsimp only [Link.release]
    rw [hlock]
    exact Lock.leave_held

/-- A release is not given up while only the worker takes the lock. -/
theorem not_stuck_of_lock {deadline : Nat} {stage : ShutdownStage} {link : Link}
    (job : s.worker.job = .releasing i stage deadline) (on : s.links[i]? = some link)
    (lock : link.lock = .held (s.worker.job.holds i)) :
    s.links[i]?.bind (stage.step? .worker) ≠ none := by
  rw [on, Option.bind_some]
  cases stage with
  | entering => exact Option.some_ne_none _
  | locking =>
    simp only [job, Job.holds, and_self, decide_true] at lock
    rw [ShutdownStage.step?, lock, Lock.holder_held, if_pos rfl]
    exact Option.some_ne_none _

/-- A busy worker goes on with what it has begun. -/
theorem delivers_move (h : s.Delivers i total) (hmove : s.WorkerMove t)
    (hbusy : s.worker.job ≠ .idle) : t.Delivers i total := by
  obtain ⟨link, on, hlink⟩ := h
  rcases hlink with hclosed | hcarries
  · obtain ⟨after, hafter, hfollows⟩ := follows_of_move hmove link on
    exact ⟨after, hafter, .inl (hfollows.closed hclosed)⟩
  · by_cases hjob : s.worker.job.link? = some i
    · cases hmove with
      | take idle => exact absurd idle hbusy
      | @write write deadline link' step job known hstep =>
        rw [job] at hjob
        obtain rfl := Option.some.inj hjob
        obtain rfl := Option.some.inj (on.symm.trans known)
        exact delivers_write job on hcarries hstep
      | @giveUpWrite write deadline job stuck late =>
        rw [job] at hjob
        obtain rfl := Option.some.inj hjob
        exact delivers_giveUpWrite on hcarries
      | @release k deadline stage link' after next job known hstep =>
        rw [job] at hjob
        obtain rfl := Option.some.inj hjob
        obtain rfl := Option.some.inj (on.symm.trans known)
        exact delivers_release job on hcarries hstep
      | @giveUpRelease k deadline stage job stuck late =>
        rw [job] at hjob
        obtain rfl := Option.some.inj hjob
        exact absurd stuck (not_stuck_of_lock job on hcarries.lock)
    · have hsame := (links_of_move hmove hjob).trans on
      exact delivers_of_elsewhere hsame hcarries hjob (link?_of_move hmove hbusy hjob)

/-- Whatever happens, an open link carries the responses that have been begun. -/
theorem delivers_act {a : Action σ ρ} {arrived : Bytes} {said : List (Message σ ρ)}
    (h : s.Delivers i total) (hintake : s.Intake i j arrived said) (hapart : s.Apart i j)
    (ha : a.Spares i) : (s.act a).Delivers i (total ++ s.answered i a) := by
  obtain hkeeps | ⟨message, queue, htakes⟩ := s.keeps_or_takes a
  · rw [answered_of_keeps hkeeps, List.append_nil]
    by_cases hworker : a = .step .worker
    · subst hworker
      rcases hkeeps.busy with hsame | ⟨hmove, hbusy⟩
      · rw [hsame]
        exact h
      · exact delivers_move h hmove hbusy
    · obtain ⟨session, known, owns⟩ := hintake.owner
      by_cases hdeparts : a = .step (.session j) ∧ ∃ fault stage,
          session.phase = .departing fault stage
      · obtain ⟨rfl, fault, stage, hphase⟩ := hdeparts
        exact delivers_departing h known owns hphase
      · refine delivers_of_stays h ?_ (job_act hworker)
        apply stays_act hapart ha known owns hworker
        intro hstep fault stage hphase
        exact hdeparts ⟨hstep, fault, stage, hphase⟩
  · obtain ⟨link, on, hlink⟩ := h
    have hon : (s.act a).links[i]? = some link := by rw [htakes.frame.1, on]
    rcases hlink with hclosed | hcarries
    · exact ⟨link, hon, .inl hclosed⟩
    · exact delivers_takes htakes hon hcarries

theorem delivers_run {actions : List (Action σ ρ)} {arrived : Bytes} {said : List (Message σ ρ)}
    (h : s.Delivers i total) (hintake : s.Intake i j arrived said) (hapart : s.Apart i j)
    (hactions : ∀ a ∈ actions, a.Spares i) (hi : i < s.links.size) :
    (s.run actions).Delivers i
      (total ++ ((s.along begun actions).filter (·.1 = i)).flatMap (·.2)) := by
  induction actions generalizing s total arrived said with
  | nil =>
    rw [along, List.filter_nil, List.flatMap_nil, List.append_nil]
    exact h
  | cons a rest ih =>
    have ha := hactions a List.mem_cons_self
    have hnext := ih (delivers_act h hintake hapart ha) (intake_act hintake hapart ha)
      (apart_act hapart ha (.inr hi)) (fun b hb => hactions b (List.mem_cons_of_mem a hb))
      (Nat.lt_of_lt_of_le hi (s.size_links_act a))
    rw [along, List.filter_append, List.flatMap_append, ← List.append_assoc]
    exact hnext

/-- The link has got all it will ever carry, which is `total`, and the worker is about to end its
stream or has done so. -/
def Ending (i : Nat) (s : Station σ ρ) (total : Bytes) : Prop :=
  ∃ link, s.links[i]? = some link ∧ link.outgoing.broken = none ∧ link.sent = total ∧
    ((∃ stage deadline, s.worker.job = .releasing i stage deadline ∧
        link.lock = .held (s.worker.job.holds i)) ∨
      (s.worker.job.link? ≠ some i ∧ link.outgoing.closed = true))

theorem ending_of_takes {a : Action σ ρ} {queue : List (Message σ ρ)}
    (h : s.Takes a (.release i) queue) {link : Link} (on : s.links[i]? = some link)
    (hcarries : s.Carries i total link) : (s.act a).Ending i total := by
  have hwhole := hcarries.whole
  have hlock := hcarries.lock
  rw [h.idle] at hwhole hlock
  have hjob : (s.act a).worker.job = .releasing i .entering s.deadline := by
    rw [h.worker]
    rfl
  refine ⟨link, by rw [h.frame.1, on], hcarries.sound, (List.append_nil _).symm.trans hwhole,
    .inl ⟨_, _, hjob, ?_⟩⟩
  rw [hlock, hjob]
  simp [Job.holds]

theorem ending_of_stays (h : s.Ending i total) (hstays : s.Becomes i Link.Stays t)
    (hjob : t.worker.job = s.worker.job) : t.Ending i total := by
  obtain ⟨link, on, sound, whole, hstate⟩ := h
  obtain ⟨after, hafter, hstays⟩ := hstays link on
  refine ⟨after, hafter, hstays.broken.trans sound, hstays.sent.trans whole, ?_⟩
  rw [hjob]
  rcases hstate with ⟨stage, deadline, job, lock⟩ | ⟨hlink, hclosed⟩
  · exact .inl ⟨stage, deadline, job, hstays.lock.trans lock⟩
  · exact .inr ⟨hlink, hstays.ended hclosed⟩

theorem ending_move (h : s.Ending i total) (hmove : s.WorkerMove t)
    (hbusy : s.worker.job ≠ .idle) : t.Ending i total := by
  obtain ⟨link, on, sound, whole, hstate⟩ := h
  rcases hstate with ⟨stage, deadline, job, lock⟩ | ⟨hlink, hclosed⟩
  · cases hmove with
    | take idle => exact absurd idle hbusy
    | write job' =>
      rw [job] at job'
      cases job'
    | giveUpWrite job' =>
      rw [job] at job'
      cases job'
    | giveUpRelease job' stuck =>
      rw [job] at job'
      cases job'
      exact absurd stuck (not_stuck_of_lock job on lock)
    | @release k deadline' stage' link' after next job' known hstep =>
      rw [job] at job'
      cases job'
      obtain rfl := Option.some.inj (on.symm.trans known)
      have hafter : (s.setLink i after).links[i]? = some after := links_setLink_self after on
      cases stage with
      | entering =>
        cases hstep
        refine ⟨_, hafter, sound, whole, .inl ⟨.locking, deadline, rfl, ?_⟩⟩
        simp only [job, Job.holds] at lock
        simp [afterRelease, Job.holds, lock, Link.close, Lock.held, Lock.request, Lock.free]
      | locking =>
        simp only [ShutdownStage.step?, Option.ite_none_right_eq_some, Option.some.injEq,
          Prod.mk.injEq] at hstep
        obtain ⟨-, rfl, rfl⟩ := hstep
        exact ⟨_, hafter, sound, whole, .inr ⟨(Option.some_ne_none i).symm, rfl⟩⟩
  · have hsame := (links_of_move hmove hlink).trans on
    exact ⟨link, hsame, sound, whole, .inr ⟨link?_of_move hmove hbusy hlink, hclosed⟩⟩

/-- Nothing more is put on a link behind its release. -/
theorem ending_act {a : Action σ ρ} {session : Session} {fault : RequestFault}
    (h : s.Ending i total) (hapart : s.Apart i j) (ha : a.Spares i)
    (known : s.sessions[j]? = some session) (owns : session.Owns i)
    (ended : session.phase = .over fault) (htaken : ∀ m ∈ s.taken a, m.link? ≠ some i) :
    (s.act a).Ending i total := by
  obtain hkeeps | ⟨message, queue, htakes⟩ := s.keeps_or_takes a
  · by_cases hworker : a = .step .worker
    · subst hworker
      rcases hkeeps.busy with hsame | ⟨hmove, hbusy⟩
      · rw [hsame]
        exact h
      · exact ending_move h hmove hbusy
    · refine ending_of_stays h ?_ (job_act hworker)
      apply stays_act hapart ha known owns hworker
      intro _ fault stage hphase
      rw [ended] at hphase
      cases hphase
  · obtain ⟨link, on, sound, whole, hstate⟩ := h
    rcases hstate with ⟨stage, deadline, job, lock⟩ | ⟨hlink, hclosed⟩
    · rw [htakes.idle] at job
      cases job
    · refine ⟨link, by rw [htakes.frame.1, on], sound, whole, .inr ⟨?_, hclosed⟩⟩
      rw [htakes.worker]
      intro hjob
      rw [htakes.taken] at htaken
      exact htaken message List.mem_cons_self (s.link?_jobFor hjob)

theorem ending_run {actions : List (Action σ ρ)} {session : Session} {fault : RequestFault}
    (h : s.Ending i total) (hapart : s.Apart i j) (hactions : ∀ a ∈ actions, a.Spares i)
    (hi : i < s.links.size) (known : s.sessions[j]? = some session) (owns : session.Owns i)
    (ended : session.phase = .over fault)
    (htaken : ∀ m ∈ s.along taken actions, m.link? ≠ some i) : (s.run actions).Ending i total := by
  induction actions generalizing s with
  | nil => exact h
  | cons a rest ih =>
    have ha := hactions a List.mem_cons_self
    rw [along] at htaken
    apply ih (ending_act h hapart ha known owns ended ?_) (apart_act hapart ha (.inr hi))
      (fun b hb => hactions b (List.mem_cons_of_mem a hb))
      (Nat.lt_of_lt_of_le hi (s.size_links_act a)) (over_act known ended)
    · intro m hm
      exact htaken m (List.mem_append_right _ hm)
    · intro m hm
      exact htaken m (List.mem_append_left _ hm)

end

end Station

end ModbusSlave
