import ModbusSlave.Proofs.Station.Clock
import ModbusSlave.Proofs.Station.Locks
import ModbusSlave.Proofs.Station.Prompt

/-!
# A worker that is on time

Handlers and accesses to the memory take no time, so time passes only while the worker has to wait:
for the lock of a link, for its silence, for room in its pipe, or for the lock of a link that it
shuts down. None of it lasts longer than the write timeout, and most messages take no time at all.
So it is known in advance by when a queue is worked off, whatever the far ends do.
-/
namespace ModbusSlave

namespace Station

variable {σ ρ : Type} {s t : Station σ ρ} {n : Nat}

/-- Time passes only while the worker has no step to take. -/
def Punctual : Station σ ρ → List (Action σ ρ) → Prop
  | _, [] => True
  | s, a :: rest => (a.isTick = true → s.workerStep?.isNone = true) ∧ Punctual (s.act a) rest

instance decidablePunctual :
    (s : Station σ ρ) → (actions : List (Action σ ρ)) → Decidable (s.Punctual actions)
  | _, [] => isTrue trivial
  | s, a :: rest => @instDecidableAnd _ _ inferInstance (decidablePunctual (s.act a) rest)

theorem punctual_append {front back : List (Action σ ρ)} (h : s.Punctual front)
    (h' : (s.run front).Punctual back) : s.Punctual (front ++ back) := by
  induction front generalizing s with
  | nil => exact h'
  | cons a front ih => exact ⟨h.1, ih h.2 h'⟩

theorem punctual_steps (s : Station σ ρ) (n : Nat) :
    s.Punctual (List.replicate n (.step .worker)) := by
  induction n generalizing s with
  | zero => trivial
  | succ n ih => exact ⟨Bool.noConfusion, ih _⟩

/-- The link `i` is there, and it is closed. -/
def isShut (s : Station σ ρ) (i : Nat) : Bool := s.links[i]?.any (·.closed)

/-- Whether the worker may have to wait on account of a message: if it writes a response to a link
that is not closed, or shuts a link down. -/
def mayWait (s : Station σ ρ) : Message σ ρ → Bool
  | .request link frame => frame.unit = s.unit && !s.isShut link
  | .release _ => true
  | _ => false

/-- A response has been begun that the closed link refuses. -/
def isRefused (s : Station σ ρ) : Bool :=
  match s.worker.job with
  | .writing write _ => write.stage = .entering && s.isShut write.link
  | _ => false

/-- By when the worker is through with what it is busy with. -/
def jobDue (s : Station σ ρ) : Nat :=
  if s.isRefused then s.now else max s.now s.worker.job.deadline

/-- By when it is through with the first `n` messages of its queue as well. -/
def due (s : Station σ ρ) (n : Nat) : Nat :=
  s.jobDue + (s.worker.queue.take n).countP s.mayWait * s.worker.timeout.ticks

/-- In the course of `later` the worker gets through with what it is busy with and with the first
`n` messages of its queue, unless the service stops. -/
def Through (s : Station σ ρ) (n : Nat) (later : List (Action σ ρ)) : Prop :=
  (s.run later).stopped = true ∨ n < (s.along taken later).length ∨
    ((s.along taken later).length = n ∧ (s.run later).worker.job = .idle)

theorem isShut_act {i : Nat} (s : Station σ ρ) (a : Action σ ρ) (h : s.isShut i = true) :
    (s.act a).isShut i = true := by
  rw [isShut, Option.any_eq_true] at h ⊢
  obtain ⟨link, hlink, hclosed⟩ := h
  obtain ⟨after, hafter, hwanes⟩ := s.wanes_act a link hlink
  exact ⟨after, hafter, hwanes.closed hclosed⟩

theorem mayWait_act {a : Action σ ρ} {message : Message σ ρ} (s : Station σ ρ)
    (h : (s.act a).mayWait message = true) : s.mayWait message = true := by
  cases message with
  | request link frame =>
    rw [mayWait, unit_act, Bool.and_eq_true] at h
    rw [mayWait, Bool.and_eq_true]
    refine ⟨h.1, ?_⟩
    cases hshut : s.isShut link with
    | false => rfl
    | true =>
      have hafter := h.2
      rw [isShut_act s a hshut] at hafter
      cases hafter
  | release link => rfl
  | _ => cases h

theorem countP_mayWait_act (s : Station σ ρ) (a : Action σ ρ) (messages : List (Message σ ρ)) :
    messages.countP (s.act a).mayWait ≤ messages.countP s.mayWait :=
  List.countP_mono_left fun _ _ => s.mayWait_act

theorem now_le_jobDue (s : Station σ ρ) : s.now ≤ s.jobDue := by
  unfold jobDue
  split
  · exact Nat.le_refl _
  · exact Nat.le_max_left _ _

theorem jobDue_le (s : Station σ ρ) : s.jobDue ≤ max s.now s.worker.job.deadline := by
  unfold jobDue
  split
  · exact Nat.le_max_left _ _
  · exact Nat.le_refl _

theorem now_le_due (s : Station σ ρ) (n : Nat) : s.now ≤ s.due n :=
  Nat.le_trans s.now_le_jobDue (Nat.le_add_right _ _)

theorem due_mono (s : Station σ ρ) {m n : Nat} (h : m ≤ n) : s.due m ≤ s.due n := by
  have hcount := (List.take_sublist_take_left (l := s.worker.queue) h).countP_le (p := s.mayWait)
  exact Nat.add_le_add_left (Nat.mul_le_mul_right _ hcount) _

theorem jobDue_of_idle (h : s.worker.job = .idle) : s.jobDue = s.now := by
  rw [jobDue, isRefused, h]
  exact Nat.max_zero _

theorem jobDue_of_stopped (h : s.stopped = true) : s.jobDue = s.now := by
  rw [jobDue, isRefused, of_decide_eq_true h]
  exact Nat.max_zero _

theorem workerStep?_of_refused (h : s.isRefused = true) :
    ∃ t, s.workerStep? = some t ∧ t.worker.job = .idle := by
  unfold isRefused at h
  split at h
  · next write deadline job =>
    rw [Bool.and_eq_true, decide_eq_true_eq, isShut, Option.any_eq_true] at h
    obtain ⟨hstage, link, hlink, hclosed⟩ := h
    have hstep : s.links[write.link]?.bind (write.step? .worker s.now) =
        some ⟨link, .inr (.error .notConnected), []⟩ := by
      rw [hlink, Option.bind_some, Write.step?, hstage]
      exact if_pos hclosed
    refine ⟨s.afterWrite write deadline ⟨link, .inr (.error .notConnected), []⟩, ?_, rfl⟩
    simp only [workerStep?, job, hstep]
    rfl
  · cases h

/-- While the worker goes on, the moment by which it is through does not move. -/
theorem jobDue_of_move (hmove : s.WorkerMove (s.act (.step .worker)))
    (hbusy : s.worker.job ≠ .idle) : (s.act (.step .worker)).jobDue ≤ s.jobDue := by
  have hdone (hidle : (s.act (.step .worker)).worker.job = .idle) :
      (s.act (.step .worker)).jobDue ≤ s.jobDue := by
    rw [jobDue_of_idle hidle, now_of_move hmove]
    exact s.now_le_jobDue
  cases hrefused : s.isRefused with
  | true =>
    obtain ⟨t, ht, hidle⟩ := workerStep?_of_refused hrefused
    rw [← act_worker_of_some ht] at hidle
    exact hdone hidle
  | false =>
    rcases rank_of_move hmove hbusy with hidle | ⟨-, hdeadline, hnow⟩
    · exact hdone hidle
    · refine Nat.le_trans (jobDue_le _) ?_
      rw [hdeadline, hnow, jobDue, hrefused]
      exact Nat.le_refl _

theorem due_worker (hbusy : s.worker.job ≠ .idle) (n : Nat) :
    (s.act (.step .worker)).due n ≤ s.due n := by
  obtain ⟨-, hsame⟩ | hmove := s.act_worker
  · exact Nat.le_of_eq (by rw [hsame])
  · obtain ⟨job, hworker, -⟩ := worker_of_move hmove hbusy
    have hcount := s.countP_mayWait_act (.step .worker) (s.worker.queue.take n)
    have hqueue : (s.act (.step .worker)).worker.queue = s.worker.queue := by rw [hworker]
    rw [due, due, timeout_act, hqueue]
    exact Nat.add_le_add (jobDue_of_move hmove hbusy) (Nat.mul_le_mul_right _ hcount)

/-- A message takes no more than the write timeout, and only if the worker may have to wait. -/
theorem jobDue_of_takes {a : Action σ ρ} {message : Message σ ρ} {queue : List (Message σ ρ)}
    (h : s.Takes a message queue) :
    (s.act a).jobDue ≤ s.now + if s.mayWait message then s.worker.timeout.ticks else 0 := by
  have hnow : (s.act a).now = s.now := by
    rw [h.action]
    exact now_act s rfl
  have hjob := congrArg Worker.job h.worker
  have hidle (hjob : (s.act a).worker.job = .idle) : (s.act a).jobDue ≤ s.now :=
    Nat.le_of_eq ((jobDue_of_idle hjob).trans hnow)
  have hdeadline (hjob : (s.act a).worker.job.deadline = s.deadline) :
      (s.act a).jobDue ≤ s.now + s.worker.timeout.ticks := by
    refine Nat.le_trans (jobDue_le _) ?_
    rw [hnow, hjob, deadline]
    exact Nat.max_le.mpr ⟨Nat.le_add_right _ _, Nat.le_refl _⟩
  cases message with
  | request link frame =>
    by_cases hunit : frame.unit = s.worker.service.unit
    · simp only [Service.handle, if_pos hunit, jobFor] at hjob
      cases hshut : s.isShut link with
      | true =>
        have hrefused : (s.act a).isRefused = true := by
          rw [isRefused, hjob]
          exact Bool.and_eq_true_iff.mpr ⟨rfl, isShut_act s a hshut⟩
        rw [jobDue, if_pos hrefused, hnow]
        exact Nat.le_add_right _ _
      | false =>
        have hmay : s.mayWait (.request link frame) = true := by
          rw [mayWait, hshut, Bool.and_eq_true_iff]
          exact ⟨decide_eq_true hunit, rfl⟩
        rw [if_pos hmay]
        exact hdeadline (congrArg Job.deadline hjob)
    · simp only [Service.handle, if_neg hunit, jobFor] at hjob
      exact Nat.le_trans (hidle hjob) (Nat.le_add_right _ _)
  | release link =>
    have hreleasing : (s.act a).worker.job = .releasing link .entering s.deadline := hjob
    rw [mayWait, if_pos rfl]
    exact hdeadline (congrArg Job.deadline hreleasing)
  | stop =>
    have hstopped : (s.act a).stopped = true := decide_eq_true hjob
    exact Nat.le_of_eq ((jobDue_of_stopped hstopped).trans hnow)
  | _ => exact Nat.le_trans (hidle hjob) (Nat.le_add_right _ _)

theorem due_of_takes {a : Action σ ρ} {message : Message σ ρ} {queue : List (Message σ ρ)}
    (h : s.Takes a message queue) (n : Nat) : (s.act a).due n ≤ s.due (n + 1) := by
  have hjob := jobDue_of_takes h
  have hrest : ((s.act a).worker.queue.take n).Sublist (queue.take n) := by
    rw [h.worker]
    cases (s.worker.service.handle s.level message).2.1 with
    | stop =>
      rw [queueFor, List.take_nil]
      exact List.nil_sublist _
    | _ => exact List.Sublist.refl _
  have hcount : ((s.act a).worker.queue.take n).countP (s.act a).mayWait ≤
      (queue.take n).countP s.mayWait :=
    Nat.le_trans hrest.countP_le (s.countP_mayWait_act a _)
  have htimes := Nat.mul_le_mul_right s.worker.timeout.ticks hcount
  rw [due, due, timeout_act, jobDue_of_idle h.idle, h.waiting, List.take_succ_cons,
    List.countP_cons, Nat.add_mul]
  by_cases hmay : s.mayWait message = true
  · rw [if_pos hmay] at hjob ⊢
    omega
  · rw [if_neg hmay] at hjob ⊢
    omega

/-- While the worker waits for a link, the passing of time brings nothing forward. -/
theorem jobDue_tick (hwaits : s.workerStep? = none) (hs : s.stopped = false)
    (hbusy : s.worker.job ≠ .idle) : s.now < s.jobDue ∧ (s.act .tick).jobDue = s.jobDue := by
  have hrefused : s.isRefused = false := by
    cases hrefused : s.isRefused with
    | false => rfl
    | true =>
      obtain ⟨t, ht, -⟩ := workerStep?_of_refused hrefused
      rw [hwaits] at ht
      cases ht
  have hearly : s.now < s.worker.job.deadline := by
    refine Nat.lt_of_not_le fun hlate => ?_
    have hmove := move_of_late hs hbusy hlate
    have hsame : s.act (.step .worker) = s := by
      simp only [act, partStep?, hwaits, Option.getD_none]
    rw [hsame] at hmove
    rcases rank_of_move hmove hbusy with hidle | ⟨hless, -⟩
    · exact hbusy hidle
    · exact Nat.lt_irrefl _ hless
  have hbefore : s.jobDue = s.worker.job.deadline := by
    rw [jobDue, hrefused]
    exact Nat.max_eq_right (Nat.le_of_lt hearly)
  have hafter : (s.act .tick).jobDue = s.worker.job.deadline := by
    rw [jobDue, show (s.act .tick).isRefused = false from hrefused]
    exact Nat.max_eq_right hearly
  rw [hbefore, hafter]
  exact ⟨hearly, rfl⟩

theorem Through.of_keeps {a : Action σ ρ} {rest : List (Action σ ρ)} (h : s.Keeps a)
    (hrest : (s.act a).Through n rest) : s.Through n (a :: rest) := by
  rw [Through, along, h.taken]
  exact hrest

theorem Through.of_takes {a : Action σ ρ} {rest : List (Action σ ρ)} {message : Message σ ρ}
    {queue : List (Message σ ρ)} (h : s.Takes a message queue)
    (hrest : (s.act a).Through n rest) : s.Through (n + 1) (a :: rest) := by
  rw [Through, along, h.taken, List.singleton_append, List.length_cons]
  obtain hstopped | hmore | ⟨hall, hidle⟩ := hrest
  · exact .inl hstopped
  · exact .inr (.inl (Nat.succ_lt_succ hmore))
  · exact .inr (.inr ⟨congrArg (· + 1) hall, hidle⟩)

theorem through_of_idle (hidle : s.worker.job = .idle) (later : List (Action σ ρ)) :
    s.Through 0 later := by
  induction later generalizing s with
  | nil => exact .inr (.inr ⟨rfl, hidle⟩)
  | cons a rest ih =>
    obtain hkeeps | ⟨message, queue, htakes⟩ := s.keeps_or_takes a
    · apply Through.of_keeps hkeeps
      apply ih
      by_cases ha : a = .step .worker
      · subst ha
        obtain hsame | ⟨-, hbusy⟩ := hkeeps.busy
        · rwa [hsame]
        · exact absurd hidle hbusy
      · rwa [job_act ha]
    · refine .inr (.inl ?_)
      rw [along, htakes.taken]
      exact Nat.succ_pos _

theorem due_tick (hwaits : s.workerStep? = none) (hs : s.stopped = false)
    (hbusy : s.worker.job ≠ .idle) (n : Nat) : (s.act .tick).due n = s.due n :=
  congrArg (· + _) (jobDue_tick hwaits hs hbusy).2

/-- What else happens may add messages and close links, and delays nothing. -/
theorem due_act {a : Action σ ρ} (ha : a ≠ .step .worker) (htick : a.isTick = false)
    (hn : n ≤ s.worker.queue.length) : (s.act a).due n ≤ s.due n := by
  obtain ⟨messages, hoffers, -⟩ := s.offers_act ha
  have hjob := job_act (s := s) ha
  have hqueue : (s.act a).worker.queue.take n = s.worker.queue.take n := by
    rw [hoffers]
    exact List.take_append_of_le_length hn
  have hdue : (s.act a).jobDue ≤ s.jobDue := by
    cases hrefused : s.isRefused with
    | true =>
      have hafter : (s.act a).isRefused = true := by
        unfold isRefused at hrefused ⊢
        rw [hjob]
        split at hrefused
        · next write deadline job =>
          rw [Bool.and_eq_true] at hrefused ⊢
          exact ⟨hrefused.1, isShut_act s a hrefused.2⟩
        · cases hrefused
      rw [jobDue, if_pos hafter, now_act s htick]
      exact s.now_le_jobDue
    | false =>
      refine Nat.le_trans (jobDue_le _) ?_
      rw [hjob, now_act s htick, jobDue, hrefused]
      exact Nat.le_refl _
  rw [due, due, timeout_act, hqueue]
  exact Nat.add_le_add hdue (Nat.mul_le_mul_right _ (s.countP_mayWait_act a _))

theorem through_of_stopped (hs : s.stopped = true) (later : List (Action σ ρ)) :
    s.Through n later := by
  obtain ⟨-, hst, -⟩ := along_of_stopped s later hs
  exact .inl hst

theorem through_of_due {later : List (Action σ ρ)} (hn : n ≤ s.worker.queue.length)
    (hpunctual : s.Punctual later) (hlate : s.due n < (s.run later).now) : s.Through n later := by
  induction later generalizing s n with
  | nil => exact absurd hlate (Nat.not_lt_of_le (s.now_le_due n))
  | cons a rest ih =>
    obtain ⟨hfirst, hrest⟩ := hpunctual
    cases hs : s.stopped with
    | true => exact through_of_stopped hs _
    | false =>
      obtain hkeeps | ⟨message, queue, htakes⟩ := s.keeps_or_takes a
      · -- the first `n` messages still wait, and it is enough that nothing is put off
        have hn' : n ≤ (s.act a).worker.queue.length := by
          rw [hkeeps.queue, List.length_append]
          exact Nat.le_trans hn (Nat.le_add_right _ _)
        have hon (hdue : (s.act a).due n ≤ s.due n) : s.Through n (a :: rest) :=
          .of_keeps hkeeps (ih hn' hrest (Nat.lt_of_le_of_lt hdue hlate))
        cases htick : a.isTick with
        | true =>
          obtain rfl := Action.eq_tick htick
          have hwaits := Option.isNone_iff_eq_none.mp (hfirst rfl)
          by_cases hidle : s.worker.job = .idle
          · rw [queue_eq_nil_of_workerStep? hwaits hidle] at hn
            obtain rfl := Nat.le_zero.mp hn
            exact through_of_idle hidle _
          · exact hon (Nat.le_of_eq (due_tick hwaits hs hidle n))
        | false =>
          by_cases ha : a = .step .worker
          · subst ha
            obtain hsame | ⟨-, hbusy⟩ := hkeeps.busy
            · exact hon (Nat.le_of_eq (by rw [hsame]))
            · exact hon (due_worker hbusy n)
          · exact hon (due_act ha htick hn)
      · cases n with
        | zero => exact through_of_idle htakes.idle _
        | succ n =>
          rw [htakes.waiting, List.length_cons] at hn
          cases hstop : message.isStop with
          | true =>
            exact .of_takes htakes (through_of_stopped (htakes.stopped.trans hstop) _)
          | false =>
            refine .of_takes htakes (ih ?_ hrest (Nat.lt_of_le_of_lt (due_of_takes htakes n) hlate))
            rw [htakes.queue hstop]
            exact Nat.le_of_succ_le_succ hn

/-- By when the worker is through with all that is queued. -/
def dueAll (s : Station σ ρ) : Nat := s.due s.worker.queue.length

/-- The worker's own steps put nothing off. -/
theorem dueAll_worker (s : Station σ ρ) : (s.act (.step .worker)).dueAll ≤ s.dueAll := by
  obtain hkeeps | ⟨message, queue, htakes⟩ := s.keeps_or_takes (.step .worker)
  · obtain hsame | ⟨hmove, hbusy⟩ := hkeeps.busy
    · exact Nat.le_of_eq (by rw [hsame])
    · obtain ⟨job, hworker, -⟩ := worker_of_move hmove hbusy
      have hqueue : (s.act (.step .worker)).worker.queue = s.worker.queue := by rw [hworker]
      rw [dueAll, dueAll, hqueue]
      exact due_worker hbusy _
  · have hlength : (s.act (.step .worker)).worker.queue.length ≤ queue.length := by
      rw [htakes.worker]
      exact (queueFor_sublist _ _).length_le
    rw [dueAll, dueAll, htakes.waiting]
    exact Nat.le_trans (due_mono _ hlength) (due_of_takes htakes _)

theorem dueAll_serve (s : Station σ ρ) : s.serve.dueAll ≤ s.dueAll ∧ s.serve.now = s.now := by
  induction s using serve.induct with
  | case1 s hstep =>
    rw [serve_of_none hstep]
    exact ⟨Nat.le_refl _, rfl⟩
  | case2 s t hstep ih =>
    have hact := act_worker_of_some hstep
    rw [serve_of_some hstep]
    refine ⟨Nat.le_trans ih.1 ?_, ih.2.trans (now_of_move (workerMove_of_workerStep? hstep))⟩
    rw [← hact]
    exact s.dueAll_worker

/-- If only the worker has its turns, it gets to the end of its queue in time. -/
theorem done_of_due (s : Station σ ρ) : ∃ more, (∀ a ∈ more, a.Waits) ∧ s.Punctual more ∧
    (s.run more).Done ∧ (s.run more).now ≤ s.dueAll := by
  induction hleft : s.dueAll - s.now using Nat.strongRecOn generalizing s with
  | ind left ih =>
    obtain ⟨steps, hsteps⟩ := s.serve_eq_run
    obtain ⟨hdue, hnow⟩ := s.dueAll_serve
    have hwaits : ∀ a ∈ List.replicate steps (Action.step (σ := σ) (ρ := ρ) .worker), a.Waits :=
      fun a ha => .inr (List.eq_of_mem_replicate ha)
    by_cases hdone : s.serve.Done
    · refine ⟨_, hwaits, s.punctual_steps steps, ?_⟩
      rw [← hsteps]
      exact ⟨hdone, hnow ▸ s.now_le_due _⟩
    · -- the worker has to wait for a link, and a tick brings it nearer to the end
      have hstuck := s.workerStep?_serve
      rw [Done, not_or] at hdone
      have hruns : s.serve.stopped = false := (Bool.not_eq_true _).mp hdone.1
      have hbusy : s.serve.worker.job ≠ .idle := fun hidle =>
        hdone.2 ⟨hidle, queue_eq_nil_of_workerStep? hstuck hidle⟩
      have hearly := (jobDue_tick hstuck hruns hbusy).1
      have htick : (s.serve.act .tick).dueAll = s.serve.dueAll :=
        due_tick hstuck hruns hbusy _
      have hless : (s.serve.act .tick).dueAll - (s.serve.act .tick).now < left := by
        have hjob : s.serve.jobDue ≤ s.serve.dueAll := Nat.le_add_right _ _
        have hnext : (s.serve.act .tick).now = s.serve.now + 1 := rfl
        omega
      obtain ⟨more, hmore, hpunctual, hend, hlast⟩ := ih _ hless _ rfl
      refine ⟨List.replicate steps (.step .worker) ++ .tick :: more, ?_, ?_, ?_⟩
      · exact List.forall_mem_append.mpr ⟨hwaits, List.forall_mem_cons.mpr ⟨.inl rfl, hmore⟩⟩
      · refine punctual_append (s.punctual_steps steps) ?_
        rw [← hsteps]
        exact ⟨fun _ => by rw [hstuck]; rfl, hpunctual⟩
      · rw [run_append, ← hsteps, run_cons]
        exact ⟨hend, by omega⟩

/-- No job is given longer than the write timeout. -/
def Timely (s : Station σ ρ) : Prop := s.worker.job.deadline ≤ s.deadline

theorem timely_act (h : s.Timely) (a : Action σ ρ) : (s.act a).Timely := by
  have hlater : s.deadline ≤ (s.act a).deadline := by
    rw [deadline, deadline, timeout_act]
    exact Nat.add_le_add_right (s.now_le_act a) _
  refine Nat.le_trans ?_ hlater
  obtain hkeeps | ⟨message, queue, htakes⟩ := s.keeps_or_takes a
  · by_cases ha : a = .step .worker
    · subst ha
      obtain hsame | ⟨hmove, hbusy⟩ := hkeeps.busy
      · rw [hsame]
        exact h
      · rcases rank_of_move hmove hbusy with hidle | ⟨-, hdeadline, -⟩
        · rw [hidle]
          exact Nat.zero_le _
        · rw [hdeadline]
          exact h
    · rw [job_act ha]
      exact h
  · rw [htakes.worker]
    cases (s.worker.service.handle s.level message).2.1 with
    | respond link response => exact Nat.le_refl _
    | release link => exact Nat.le_refl _
    | _ => exact Nat.zero_le _

theorem timely_run {actions : List (Action σ ρ)} (h : s.Timely) : (s.run actions).Timely := by
  induction actions generalizing s with
  | nil => exact h
  | cons a rest ih => exact ih (timely_act h a)

/-- How many times the write timeout may go by until the worker is through with what it is busy with
and with the first `n` messages of its queue. -/
def load (s : Station σ ρ) (n : Nat) : Nat :=
  (if s.worker.job.link?.isSome then 1 else 0) + (s.worker.queue.take n).countP s.mayWait

theorem due_le_load (h : s.Timely) (n : Nat) :
    s.due n ≤ s.now + s.load n * s.worker.timeout.ticks := by
  have hjob : s.jobDue ≤
      s.now + (if s.worker.job.link?.isSome then 1 else 0) * s.worker.timeout.ticks := by
    cases hlink : s.worker.job.link? with
    | none =>
      refine Nat.le_trans s.jobDue_le (Nat.max_le.mpr ⟨Nat.le_add_right _ _, ?_⟩)
      cases job : s.worker.job with
      | writing write deadline =>
        rw [job] at hlink
        cases hlink
      | releasing i stage deadline =>
        rw [job] at hlink
        cases hlink
      | _ => exact Nat.zero_le _
    | some i =>
      rw [Option.isSome_some, if_pos rfl, Nat.one_mul]
      exact Nat.le_trans s.jobDue_le (Nat.max_le.mpr ⟨Nat.le_add_right _ _, h⟩)
  rw [due, load, Nat.add_mul, ← Nat.add_assoc]
  exact Nat.add_le_add_right hjob _

/-- At every moment of a history, and whatever the far ends and the other parts of the station do
from then on while the worker is punctual, a message keeps it for the write timeout at most, and for
no time at all if nothing is written to an open link and nothing shut down on account of it. So `n`
messages take no more than that many times the write timeout, and there is always a way for it to
get to the end of the queue in that time. Between two messages it neither has the lock of a link nor
waits for one. -/
theorem worker_on_time (settings : ServerSettings) (history : List (Action σ ρ))
    (hfree : ∀ a ∈ history, ∀ link ∈ a.brought?, .worker ∉ link.lock.line) :
    let s := (ofSettings settings).run history
    let span := settings.writeTimeout.ticks
    (∀ message queue later, s.worker.job = .idle → s.worker.queue = message :: queue →
      s.Punctual later →
      s.now + (if s.mayWait message then span else 0) < (s.run later).now → s.Through 1 later) ∧
    (∀ n later, n ≤ s.worker.queue.length → s.Punctual later →
      s.now + s.load n * span < (s.run later).now → s.Through n later) ∧
    (∃ more, (∀ a ∈ more, a.Waits) ∧ s.Punctual more ∧ (s.run more).Done ∧
      (s.run more).now ≤ s.now + s.load s.worker.queue.length * span) ∧
    (s.worker.job = .idle ∨ s.stopped = true → ∀ link ∈ s.links, .worker ∉ link.lock.line) := by
  intro s span
  have htimely : s.Timely := timely_run (Nat.zero_le _)
  have hspan : s.worker.timeout.ticks = span := congrArg Duration.ticks (timeout_run _ history)
  have hdue (n : Nat) : s.due n ≤ s.now + s.load n * span := hspan ▸ due_le_load htimely n
  have hplaced : s.Placed := placed_run (placed_ofSettings settings) fun a ha link hlink =>
    List.count_eq_zero.mpr (hfree a ha link hlink)
  refine ⟨?_, ?_, ?_, ?_⟩
  · intro message queue later hidle hqueue hpunctual hlate
    have hload : s.load 1 * span = if s.mayWait message then span else 0 := by
      rw [load, hidle, hqueue, List.take_succ_cons, List.take_zero, List.countP_singleton]
      cases s.mayWait message with
      | true => simp [Job.link?]
      | false => simp [Job.link?]
    rw [← hload] at hlate
    have hn : 1 ≤ s.worker.queue.length := by
      rw [hqueue]
      exact Nat.succ_pos _
    exact through_of_due hn hpunctual (Nat.lt_of_le_of_lt (hdue 1) hlate)
  · intro n later hn hpunctual hlate
    exact through_of_due hn hpunctual (Nat.lt_of_le_of_lt (hdue n) hlate)
  · obtain ⟨more, hmore, hpunctual, hdone, hnow⟩ := s.done_of_due
    exact ⟨more, hmore, hpunctual, hdone, Nat.le_trans hnow (hdue _)⟩
  · intro hjob link hlink
    exact hplaced.notMem_line hjob hlink

/-- A far end that reads nothing and has room for four bytes, and a request and a deregistration in
front of the worker. -/
def crowded : List (Action Unit Unit) :=
  [.attach (.fresh 8 4 false none) (.mbap .start) .close,
    .submit (.request 0 ⟨.mbap 7, ⟨1⟩, 0x41, []⟩), .submit (.unregister 0x41)]

/-- The worker is stuck in the middle of its response, with another write behind it in the line, and
gives the response up after three milliseconds. -/
def unstuck : List (Action Unit Unit) :=
  [.step .worker, .step .worker, .step .worker, .step .worker, .write 0 [1] .nothing,
    .step (.writer 0), .tick, .tick, .tick, .step .worker, .step .worker, .tick]

theorem worker_on_time_crowded :
    let settings : ServerSettings := ⟨⟨1⟩, .uniform 2, ⟨3000000⟩, none, .nothing⟩
    let s : Station Unit Unit := (ofSettings settings).run crowded
    let t : Station Unit Unit := (ofSettings settings).run (crowded ++ unstuck)
    s.load 2 = 1 ∧ s.Punctual unstuck ∧ (s.run unstuck).now = 4 ∧ s.Through 2 unstuck ∧
      (s.run (unstuck.take 9)).now = 3 ∧ (s.run (unstuck.take 9)).worker.job ≠ .idle ∧
      t.links[0]?.map (·.lock.line) = some [.writer 0] ∧
      ∀ link ∈ t.links, .worker ∉ link.lock.line := by
  intro settings s t
  have hfree : ∀ a ∈ crowded, ∀ link ∈ a.brought?, .worker ∉ link.lock.line := by decide +kernel
  have hboth : ∀ a ∈ crowded ++ unstuck, ∀ link ∈ a.brought?, .worker ∉ link.lock.line := by
    decide +kernel
  obtain ⟨-, hthrough, -⟩ := worker_on_time settings crowded hfree
  obtain ⟨-, -, -, hlocks⟩ := worker_on_time settings (crowded ++ unstuck) hboth
  have hpunctual : s.Punctual unstuck := by decide +kernel
  exact ⟨by decide +kernel, hpunctual, by decide +kernel,
    hthrough 2 unstuck (by decide +kernel) hpunctual (by decide +kernel), by decide +kernel,
    by decide +kernel, by decide +kernel, hlocks (.inl (by decide +kernel))⟩

end Station

end ModbusSlave
