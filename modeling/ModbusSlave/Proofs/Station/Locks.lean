import ModbusSlave.Proofs.Station.Delivery

/-!
# The worker and the locks

Whoever asks for the lock of a link gets a place in its line, and gives the place back when it is
done or gives up. The worker has one place in the line of the link that it writes to or shuts down,
and none anywhere else. So it stands in no line as soon as it is through with a message, whether the
writing has come to its end or not.
-/
namespace ModbusSlave

/-- The link with which an action connects the station to a far end. -/
def Action.brought? {σ ρ : Type} : Action σ ρ → Option Link
  | .attach link _ _ | .accept _ _ link | .addPort _ link => some link
  | _ => none

namespace Lock

/-- The one who holds the lock, and behind it those who wait for it. -/
def line (l : Lock) : List Party := l.holder.toList ++ l.waiting

theorem count_request (l : Lock) (p q : Party) :
    (l.request p).line.count q = l.line.count q + [p].count q := by
  obtain ⟨_ | holder, waiting⟩ := l
  · rw [request, line, line, Option.toList_some, Option.toList_none, List.nil_append,
      List.count_append, Nat.add_comm]
  · rw [request, line, line, List.count_append, List.count_append, List.count_append, Nat.add_assoc]

theorem count_request_of_ne (l : Lock) {p q : Party} (h : p ≠ q) :
    (l.request p).line.count q = l.line.count q := by
  rw [count_request, List.count_singleton, if_neg (by simpa using h), Nat.add_zero]

/-- The place of the holder goes to the next in the line. -/
theorem line_leave_of_holder {l : Lock} {p : Party} (h : l.holder = some p) :
    l.line = p :: (l.leave p).line := by
  rw [line, h, Option.toList_some, leave, if_pos h, line]
  cases l.waiting <;> rfl

theorem line_leave_of_waiting {l : Lock} {p : Party} (h : l.holder ≠ some p) :
    (l.leave p).line = l.line.filter (· ≠ p) := by
  have hfront : l.holder.toList.filter (· ≠ p) = l.holder.toList := by
    rw [List.filter_eq_self]
    intro q hq
    rw [Option.mem_toList] at hq
    refine decide_eq_true ?_
    rintro rfl
    exact h hq
  rw [leave, if_neg h, line, line, List.filter_append, hfront]

theorem count_leave_of_ne (l : Lock) {p q : Party} (h : p ≠ q) :
    (l.leave p).line.count q = l.line.count q := by
  by_cases hholder : l.holder = some p
  · rw [line_leave_of_holder hholder, List.count_cons_of_ne h]
  · rw [line_leave_of_waiting hholder]
    exact List.count_filter (decide_eq_true (Ne.symm h))

/-- Who has had no more than one place in the line has none when it leaves. -/
theorem count_leave_self {l : Lock} {p : Party} (h : l.line.count p ≤ 1) :
    (l.leave p).line.count p = 0 := by
  by_cases hholder : l.holder = some p
  · rw [line_leave_of_holder hholder, List.count_cons_self] at h
    omega
  · rw [line_leave_of_waiting hholder, List.count_eq_zero]
    simp

end Lock

/-- The places that the worker has in the line for a link. -/
def Link.places (l : Link) : Nat := l.lock.line.count .worker

def Link.KeepsPlace (before after : Link) : Prop := after.places = before.places

theorem places_of_shutdownStep {stage : ShutdownStage} {party : Party} {link after : Link}
    {next : Option ShutdownStage} (hparty : party ≠ .worker)
    (h : stage.step? party link = some (after, next)) : after.places = link.places := by
  cases stage with
  | entering =>
    cases h
    exact Lock.count_request_of_ne _ hparty
  | locking =>
    simp only [ShutdownStage.step?, Option.ite_none_right_eq_some, Option.some.injEq,
      Prod.mk.injEq] at h
    obtain ⟨-, rfl, -⟩ := h
    exact Lock.count_leave_of_ne _ hparty

theorem Link.KeepsPlace.outlasts : Link.Outlasts Link.KeepsPlace where
  refl _ := rfl
  trans h h' := h'.trans h
  closed _ _ := rfl
  shutdown := places_of_shutdownStep
  incoming _ _ := rfl
  collected _ := rfl
  deafened _ := rfl
  broken _ _ := rfl

/-- A write asks for the lock in its first step, unless its link is closed, and gives it back in its
last. -/
inductive Write.Locks (w : Write) (party : Party) (link : Link) (step : WriteStep) : Prop
  | asks (first : w.stage = .entering) (on : step.next.isLeft = true)
      (lock : step.link.lock = link.lock.request party)
  | refused (first : w.stage = .entering) (ends : step.next.isLeft = false)
      (lock : step.link.lock = link.lock)
  | keeps (later : w.stage ≠ .entering) (on : step.next.isLeft = true)
      (lock : step.link.lock = link.lock)
  | leaves (later : w.stage ≠ .entering) (ends : step.next.isLeft = false)
      (lock : step.link.lock = link.lock.leave party)

theorem Write.locks_of_step? {w : Write} {party : Party} {now : Nat} {link : Link}
    {step : WriteStep} (h : w.step? party now link = some step) : w.Locks party link step := by
  obtain ⟨i, bytes, level, stage⟩ := w
  cases stage with
  | entering =>
    simp only [Write.step?] at h
    split at h <;> cases h
    · exact .refused rfl rfl rfl
    · exact .asks rfl rfl rfl
  | locking =>
    simp only [Write.step?, Option.ite_none_right_eq_some] at h
    obtain ⟨-, h⟩ := h
    split at h <;> cases h <;> exact .keeps (by simp) rfl rfl
  | silent tick =>
    simp only [Write.step?, Option.ite_none_right_eq_some, Option.some.injEq] at h
    obtain ⟨-, rfl⟩ := h
    exact .keeps (by simp) rfl rfl
  | pushing rest =>
    cases rest with
    | nil =>
      cases h
      exact .leaves (by simp) rfl rfl
    | cons b rest =>
      simp only [Write.step?] at h
      split at h
      · cases h
      · cases h
        exact .leaves (by simp) rfl rfl
      · cases h
        exact .keeps (by simp) rfl rfl

theorem places_of_writeStep {w : Write} {party : Party} {now : Nat} {link : Link}
    {step : WriteStep} (hparty : party ≠ .worker) (h : w.step? party now link = some step) :
    step.link.places = link.places := by
  rw [Link.places, Link.places]
  cases Write.locks_of_step? h with
  | asks first on lock => rw [lock, Lock.count_request_of_ne _ hparty]
  | refused first ends lock => rw [lock]
  | keeps later on lock => rw [lock]
  | leaves later ends lock => rw [lock, Lock.count_leave_of_ne _ hparty]

/-- The worker has a place from the first step of its write to the last. -/
theorem places_of_ownStep {w : Write} {now : Nat} {link : Link} {step : WriteStep}
    (h : w.step? .worker now link = some step)
    (hplaces : link.places = (decide (w.stage ≠ .entering)).toNat) :
    step.link.places = step.next.isLeft.toNat := by
  rw [Link.places] at hplaces ⊢
  cases Write.locks_of_step? h with
  | asks first on lock =>
    rw [decide_eq_false (not_not_intro first), Bool.toNat_false] at hplaces
    rw [lock, on, Lock.count_request, hplaces, List.count_singleton_self, Bool.toNat_true]
  | refused first ends lock =>
    rw [decide_eq_false (not_not_intro first), Bool.toNat_false] at hplaces
    rw [lock, ends, hplaces, Bool.toNat_false]
  | keeps later on lock =>
    rw [decide_eq_true later, Bool.toNat_true] at hplaces
    rw [lock, on, hplaces, Bool.toNat_true]
  | leaves later ends lock =>
    rw [decide_eq_true later, Bool.toNat_true] at hplaces
    rw [lock, ends, Lock.count_leave_self (Nat.le_of_eq hplaces), Bool.toNat_false]

theorem places_of_ownShutdown {stage : ShutdownStage} {link after : Link}
    {next : Option ShutdownStage} (h : stage.step? .worker link = some (after, next))
    (hplaces : link.places = (decide (stage = .locking)).toNat) :
    after.places = next.isSome.toNat ∧ next ≠ some .entering := by
  rw [Link.places] at hplaces ⊢
  cases stage with
  | entering =>
    cases h
    refine ⟨?_, by simp⟩
    rw [Lock.count_request, hplaces]
    rfl
  | locking =>
    simp only [ShutdownStage.step?, Option.ite_none_right_eq_some, Option.some.injEq,
      Prod.mk.injEq] at h
    obtain ⟨-, rfl, rfl⟩ := h
    exact ⟨Lock.count_leave_self (Nat.le_of_eq hplaces), by simp⟩

namespace Station

variable {σ ρ : Type} {s t : Station σ ρ} {i : Nat}

theorem size_links_of_brought? {a : Action σ ρ} (s : Station σ ρ) (ha : a.brought? = none) :
    (s.act a).links.size = s.links.size := by
  cases a with
  | attach link parser policy => cases ha
  | accept k peer link => cases ha
  | addPort name link => cases ha
  | arrive k bytes =>
    rcases s.act_arrive k bytes with hact | ⟨link, incoming, rest, -, -, hact⟩
    · rw [hact]
    · rw [hact]
      exact (s.sameShape_setLink _ _).links
  | collect k count =>
    rcases s.act_collect k count with hact | ⟨link, outgoing, got, -, -, hact⟩
    · rw [hact]
    · rw [hact]
      exact (s.sameShape_setLink _ _).links
  | finish k => exact (s.sameShape_modifyLink _ _).links
  | deafen k => exact (s.sameShape_modifyLink _ _).links
  | breakDown k kind => exact (s.sameShape_modifyLink _ _).links
  | listen address =>
    simp only [act, listen]
    split <;> rfl
  | failAccept k kind =>
    rcases s.act_failAccept k kind with hsame | hhalts
    · rw [hsame]
    · exact (frame_of_halts (i := 0) (j := 0) hhalts).1.links
  | submit message => exact (s.sameShape_enqueue message).links
  | call run =>
    simp only [act, call]
    split
    · rfl
    · exact (s.sameShape_enqueue _).links
  | close k => exact (s.sameShape_closeLink k).links
  | write k bytes level => rfl
  | setLevel level => rfl
  | shutDown =>
    simp only [act, shutDown]
    split <;> rfl
  | tick => rfl
  | sessionStop k =>
    simp only [act]
    cases h : s.sessionStop? k with
    | none => rfl
    | some t => exact (frame_of_sessionStop? (i := 0) (j := 0) h).1.links
  | step part =>
    cases part with
    | session k =>
      simp only [act, partStep?]
      cases h : s.sessionStep? k with
      | none => rfl
      | some t => exact (frame_of_sessionStep? (i := 0) (j := 0) h).1.links
    | writer k =>
      simp only [act, partStep?]
      cases h : s.writerStep? k with
      | none => rfl
      | some t => exact (frame_of_writerStep? (i := 0) (j := 0) h).1.links
    | listener k =>
      rcases s.act_listener k with hsame | hhalts
      · rw [hsame]
      · exact (frame_of_halts (i := 0) (j := 0) hhalts).1.links
    | closing =>
      rcases s.act_closing with hsame | hmove
      · rw [hsame]
      · -- a link that comes in has a session, and the shutdown has none to offer
        have hsessions := sessions_of_closingMove hmove
        cases (frame_of_closingMove (i := 0) (j := 0) hmove).1 (.step .closing) with
        | kept sessions links => exact links
        | attached sessions =>
          rw [hsessions] at sessions
          have hsize := congrArg Array.size sessions
          rw [Array.size_push] at hsize
          omega
        | written action => cases action
    | worker =>
      obtain ⟨-, hsame⟩ | hmove := s.act_worker
      · rw [hsame]
      · exact (sameShape_of_move hmove).links

/-- A link that has not been there before has just been brought, and may have been closed or
declared persistent on the way. -/
theorem brought_of_new {a : Action σ ρ} {link : Link} (hi : s.links[i]? = none)
    (h : (s.act a).links[i]? = some link) :
    ∃ brought closed persistent, a.brought? = some brought ∧
      link = { brought with closed, persistent } := by
  have hsize : s.links.size ≤ i := Array.getElem?_eq_none_iff.mp hi
  have attached (u : Station σ ρ) (brought : Link) (parser : Parser) (policy : FaultPolicy)
      (role : Role) (hu : u.links.size = s.links.size)
      (hlink : (u.attach brought parser policy role).links[i]? = some link) : link = brought := by
    rw [attach, Array.getElem?_push, hu] at hlink
    split at hlink
    · exact (Option.some.inj hlink).symm
    · rw [Array.getElem?_eq_none (hu.symm ▸ hsize)] at hlink
      cases hlink
  cases ha : a.brought? with
  | none =>
    rw [Array.getElem?_eq_none ((size_links_of_brought? s ha).symm ▸ hsize)] at h
    cases h
  | some brought =>
    cases a with
    | attach found parser policy =>
      cases ha
      exact ⟨_, brought.closed, brought.persistent, rfl, attached s _ _ _ _ rfl h⟩
    | accept k peer found =>
      cases ha
      rcases frame_of_accept (i := 0) (j := 0) s k peer brought with
        ⟨hsame, -⟩ | ⟨u, cancelled, id, hsame, -, haccept⟩
      · rw [act, hsame, hi] at h
        cases h
      · rw [act, haccept] at h
        exact ⟨_, cancelled, brought.persistent, rfl, attached u _ _ _ _ hsame.links h⟩
    | addPort name found =>
      cases ha
      simp only [act, addPort] at h
      split at h
      · exact ⟨_, false, true, rfl, attached _ _ (.rtu .start) .discard (.port name) rfl h⟩
      · rw [hi] at h
        cases h
    | step part => cases part <;> cases ha
    | _ => cases ha

def places (s : Station σ ρ) (i : Nat) : Nat := (s.links[i]?.map Link.places).getD 0

/-- The worker has a place in the line exactly where its job makes use of the lock. -/
def Placed (s : Station σ ρ) : Prop := ∀ i, s.places i = (s.worker.job.holds i).toNat

theorem places_congr (h : t.links[i]? = s.links[i]?) : t.places i = s.places i := by
  rw [places, places, h]

theorem places_of_becomes (h : s.Becomes i Link.KeepsPlace t)
    (hnew : s.links[i]? = none → t.places i = 0) : t.places i = s.places i := by
  cases hlink : s.links[i]? with
  | none => rw [hnew hlink, places, hlink, Option.map_none, Option.getD_none]
  | some link =>
    obtain ⟨after, hafter, hplaces⟩ := h link hlink
    rw [places, places, hafter, hlink]
    exact hplaces

theorem places_closeLink (s : Station σ ρ) (k : Nat) : (s.closeLink k).places i = s.places i := by
  refine places_of_becomes
    (becomes_modifyLink (R := Link.KeepsPlace) (fun _ => rfl) s fun _ => rfl) ?_
  intro hnone
  rw [places, closeLink, Array.getElem?_modify]
  split <;> rw [hnone] <;> rfl

theorem places_writeFailed (s : Station σ ρ) (k : Nat) (fault : WriteFault) :
    (s.writeFailed k fault).places i = s.places i := by
  unfold writeFailed
  dsimp only
  split
  · rfl
  · exact places_closeLink _ k

theorem places_setLink {before : Link} (after : Link) (known : s.links[i]? = some before) :
    (s.setLink i after).places i = after.places := by
  rw [places, links_setLink_self after known]
  rfl

theorem places_leaveLock (h : s.places i ≤ 1) : (s.leaveLock i).places i = 0 := by
  rw [places, leaveLock, Array.getElem?_modify, if_pos rfl]
  rw [places] at h
  cases hlink : s.links[i]? with
  | none => rfl
  | some link =>
    rw [hlink] at h
    exact Lock.count_leave_self h

/-- Nobody else moves the worker in a line. -/
theorem places_act {a : Action σ ρ} (s : Station σ ρ) (ha : a ≠ .step .worker)
    (hfree : ∀ link ∈ a.brought?, link.places = 0) : (s.act a).places i = s.places i := by
  apply places_of_becomes
  · apply s.becomes_act Link.KeepsPlace.outlasts
    · intro hworker
      exact absurd hworker ha
    · rintro k rfl
      exact s.becomes_writer Link.KeepsPlace.outlasts.refl k (places_of_writeStep (by simp))
  · intro hnone
    cases hlink : (s.act a).links[i]? with
    | none => rw [places, hlink, Option.map_none, Option.getD_none]
    | some link =>
      obtain ⟨brought, closed, persistent, hbrought, rfl⟩ := brought_of_new hnone hlink
      rw [places, hlink]
      exact hfree brought hbrought

theorem holds_jobFor (s : Station σ ρ) (effect : Effect ρ) : (s.jobFor effect).holds i = false := by
  cases effect with
  | respond link response => simp [jobFor, Job.holds]
  | release link => simp [jobFor, Job.holds]
  | _ => rfl

theorem places_afterWrite {write : Write} {deadline : Nat} {link : Link} {step : WriteStep}
    (known : s.links[write.link]? = some link) :
    (s.afterWrite write deadline step).places write.link = step.link.places := by
  have hset : ((s.setLink write.link step.link).note step.events).places write.link =
      step.link.places := places_setLink step.link known
  unfold afterWrite
  split
  · exact hset
  · exact hset
  · exact (places_writeFailed _ _ _).trans hset

theorem placed_write {write : Write} {deadline : Nat} {link : Link} {step : WriteStep}
    (h : s.Placed) (job : s.worker.job = .writing write deadline)
    (known : s.links[write.link]? = some link)
    (hstep : write.step? .worker s.now link = some step) :
    (s.afterWrite write deadline step).places write.link =
      ((s.afterWrite write deadline step).worker.job.holds write.link).toNat := by
  have hplaces := h write.link
  rw [places, known, job] at hplaces
  simp only [Option.map_some, Option.getD_some, Job.holds, true_and] at hplaces
  rw [places_afterWrite known, places_of_ownStep hstep hplaces]
  cases Write.sends_of_step? hstep with
  | on sent grows opened begun => simp [afterWrite, Job.holds, begun]
  | done sent left => rfl
  | failed sent => rfl

theorem placed_release {deadline : Nat} {stage : ShutdownStage} {link after : Link}
    {next : Option ShutdownStage} (h : s.Placed) (job : s.worker.job = .releasing i stage deadline)
    (known : s.links[i]? = some link) (hstep : stage.step? .worker link = some (after, next)) :
    (s.afterRelease i deadline after next).places i =
      ((s.afterRelease i deadline after next).worker.job.holds i).toNat := by
  have hplaces := h i
  rw [places, known, job] at hplaces
  simp only [Option.map_some, Option.getD_some, Job.holds, true_and] at hplaces
  obtain ⟨hafter, hnext⟩ := places_of_ownShutdown hstep hplaces
  have hset : (s.setLink i after).places i = next.isSome.toNat :=
    (places_setLink after known).trans hafter
  cases next with
  | none => exact hset
  | some later =>
    cases later with
    | entering => exact absurd rfl hnext
    | locking =>
      refine Eq.trans hset ?_
      simp [afterRelease, Job.holds]

/-- Whatever the worker does, it has the place that its job needs. -/
theorem placed_move (h : s.Placed) (hmove : s.WorkerMove t) : t.Placed := by
  have hone (i : Nat) : s.places i ≤ 1 := by
    rw [h i]
    exact Bool.toNat_le _
  intro j
  by_cases hidle : s.worker.job = .idle
  · obtain ⟨message, queue, hqueue, htake⟩ := take_of_move hmove hidle
    rw [places, (frame_of_takeMessage? htake).1, worker_of_takeMessage? hidle hqueue htake]
    refine (h j).trans ?_
    rw [hidle, holds_jobFor]
    rfl
  · by_cases hlink : s.worker.job.link? = some j
    · cases hmove with
      | take idle => exact absurd idle hidle
      | @write write deadline link step job known hstep =>
        rw [job] at hlink
        obtain rfl := Option.some.inj hlink
        exact placed_write h job known hstep
      | @giveUpWrite write deadline job =>
        rw [job] at hlink
        obtain rfl := Option.some.inj hlink
        exact (places_writeFailed _ _ _).trans (places_leaveLock (hone _))
      | @release k deadline stage link after next job known hstep =>
        rw [job] at hlink
        obtain rfl := Option.some.inj hlink
        exact placed_release h job known hstep
      | @giveUpRelease k deadline stage job =>
        rw [job] at hlink
        obtain rfl := Option.some.inj hlink
        exact places_leaveLock (hone _)
    · rw [places_congr (links_of_move hmove hlink), h j, Job.holds_of_ne hlink,
        Job.holds_of_ne (link?_of_move hmove hidle hlink)]

theorem placed_act {a : Action σ ρ} (h : s.Placed)
    (hfree : ∀ link ∈ a.brought?, link.places = 0) : (s.act a).Placed := by
  by_cases ha : a = .step .worker
  · subst ha
    obtain ⟨-, hsame⟩ | hmove := s.act_worker
    · rwa [hsame]
    · exact placed_move h hmove
  · intro i
    rw [places_act s ha hfree, job_act ha]
    exact h i

theorem placed_run {actions : List (Action σ ρ)} (h : s.Placed)
    (hfree : ∀ a ∈ actions, ∀ link ∈ a.brought?, link.places = 0) : (s.run actions).Placed := by
  induction actions generalizing s with
  | nil => exact h
  | cons a rest ih =>
    obtain ⟨hfirst, hrest⟩ := List.forall_mem_cons.mp hfree
    exact ih (placed_act h hfirst) hrest

theorem placed_ofSettings (settings : ServerSettings) :
    (ofSettings settings : Station σ ρ).Placed := fun _ => rfl

theorem Placed.notMem_line (h : s.Placed) (hjob : s.worker.job = .idle ∨ s.stopped = true)
    {link : Link} (hlink : link ∈ s.links) : .worker ∉ link.lock.line := by
  obtain ⟨i, hi⟩ := Array.getElem?_of_mem hlink
  have hholds : s.worker.job.holds i = false := by
    rcases hjob with hidle | hstopped
    · rw [hidle]
      rfl
    · rw [of_decide_eq_true hstopped]
      rfl
  have hplaces := h i
  rw [places, hi, hholds] at hplaces
  exact List.count_eq_zero.mp hplaces

end Station

end ModbusSlave
