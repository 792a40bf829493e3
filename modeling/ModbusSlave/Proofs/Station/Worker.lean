import ModbusSlave.Proofs.Station.Queue

/-!
# The moves of the worker

One step of the worker is one of five moves: it takes a message, goes on with a write or a release,
or gives one of them up at its deadline. Everything that is proved about the worker starts from
these.
-/
namespace ModbusSlave

def Job.link? : Job → Option Nat
  | .writing write _ => some write.link
  | .releasing i _ _ => some i
  | .idle | .stopped => none

namespace Station

variable {σ ρ : Type}

/-- What the worker is busy with after a message with this effect. -/
def jobFor (s : Station σ ρ) : Effect ρ → Job
  | .respond link response =>
    .writing ⟨link, response.encode, s.level.physical, .entering⟩ s.deadline
  | .release link => .releasing link .entering s.deadline
  | .stop => .stopped
  | .nothing | .answer _ _ => .idle

def queueFor (queue : List (Message σ ρ)) : Effect ρ → List (Message σ ρ)
  | .stop => []
  | _ => queue

/-- A write after one of its steps. -/
def afterWrite (s : Station σ ρ) (write : Write) (deadline : Nat) (step : WriteStep) :
    Station σ ρ :=
  let s := (s.setLink write.link step.link).note step.events
  match step.next with
  | .inl stage => s.setJob (.writing { write with stage } deadline)
  | .inr (.ok ()) => s.setJob .idle
  | .inr (.error kind) => (s.writeFailed write.link (.io kind)).setJob .idle

def giveUpWrite (s : Station σ ρ) (write : Write) : Station σ ρ :=
  ((s.leaveLock write.link).writeFailed write.link (.timedOut s.worker.timeout)).setJob .idle

def afterRelease (s : Station σ ρ) (i deadline : Nat) (link : Link)
    (next : Option ShutdownStage) : Station σ ρ :=
  match next with
  | some stage => (s.setLink i link).setJob (.releasing i stage deadline)
  | none => (s.setLink i link).setJob .idle

def giveUpRelease (s : Station σ ρ) (i : Nat) : Station σ ρ :=
  ((s.leaveLock i).note [.releaseTimedOut s.worker.timeout]).setJob .idle

inductive WorkerMove (s : Station σ ρ) : Station σ ρ → Prop
  | take {message : Message σ ρ} {queue : List (Message σ ρ)} {t : Station σ ρ}
      (idle : s.worker.job = .idle) (waiting : s.worker.queue = message :: queue)
      (taken : s.takeMessage? = some t) : WorkerMove s t
  | write {write : Write} {deadline : Nat} {link : Link} {step : WriteStep}
      (job : s.worker.job = .writing write deadline) (known : s.links[write.link]? = some link)
      (step?_eq : write.step? .worker s.now link = some step) :
      WorkerMove s (s.afterWrite write deadline step)
  | giveUpWrite {write : Write} {deadline : Nat} (job : s.worker.job = .writing write deadline)
      (stuck : s.links[write.link]?.bind (write.step? .worker s.now) = none)
      (late : deadline ≤ s.now) : WorkerMove s (s.giveUpWrite write)
  | release {i deadline : Nat} {stage : ShutdownStage} {link after : Link}
      {next : Option ShutdownStage} (job : s.worker.job = .releasing i stage deadline)
      (known : s.links[i]? = some link) (step?_eq : stage.step? .worker link = some (after, next)) :
      WorkerMove s (s.afterRelease i deadline after next)
  | giveUpRelease {i deadline : Nat} {stage : ShutdownStage}
      (job : s.worker.job = .releasing i stage deadline)
      (stuck : s.links[i]?.bind (stage.step? .worker) = none) (late : deadline ≤ s.now) :
      WorkerMove s (s.giveUpRelease i)

theorem workerMove_of_workerStep? {s t : Station σ ρ} (h : s.workerStep? = some t) :
    s.WorkerMove t := by
  unfold workerStep? at h
  split at h
  · simp at h
  · next hidle =>
    cases hq : s.worker.queue with
    | nil => simp [takeMessage?, hq] at h
    | cons message queue => exact .take hidle hq h
  · next write deadline hjob =>
    split at h
    · next step hstep =>
      obtain ⟨link, hlink, hstep⟩ := Option.bind_eq_some_iff.mp hstep
      cases h
      exact .write hjob hlink hstep
    · next hstuck =>
      split at h
      · next hlate =>
        cases h
        exact .giveUpWrite hjob hstuck hlate
      · simp at h
  · next i stage deadline hjob =>
    split at h
    · next link next hstep =>
      obtain ⟨before, hlink, hstep⟩ := Option.bind_eq_some_iff.mp hstep
      cases h
      cases next with
      | none => exact .release hjob hlink hstep
      | some stage => exact .release hjob hlink hstep
    · next hstuck =>
      split at h
      · next hlate =>
        cases h
        exact .giveUpRelease hjob hstuck hlate
      · simp at h

theorem act_worker (s : Station σ ρ) :
    (s.workerStep? = none ∧ s.act (.step .worker) = s) ∨ s.WorkerMove (s.act (.step .worker)) := by
  cases h : s.workerStep? with
  | none => exact .inl ⟨rfl, by simp [act, partStep?, h]⟩
  | some t =>
    right
    have ht : s.act (.step .worker) = t := by simp [act, partStep?, h]
    rw [ht]
    exact workerMove_of_workerStep? h

theorem queue_eq_nil_of_workerStep? {s : Station σ ρ} (h : s.workerStep? = none)
    (hidle : s.worker.job = .idle) : s.worker.queue = [] := by
  cases hq : s.worker.queue with
  | nil => rfl
  | cons message queue => simp [workerStep?, hidle, takeMessage?, hq] at h

/-- Taking a message, as far as the worker goes: it is handled, and its effect decides what comes
next. -/
theorem worker_of_takeMessage? {s t : Station σ ρ} {message : Message σ ρ}
    {queue : List (Message σ ρ)} (hidle : s.worker.job = .idle)
    (hq : s.worker.queue = message :: queue) (h : s.takeMessage? = some t) :
    t.worker = ⟨(s.worker.service.handle s.level message).1, s.worker.timeout,
      queueFor queue (s.worker.service.handle s.level message).2.1,
      s.jobFor (s.worker.service.handle s.level message).2.1⟩ := by
  simp only [takeMessage?, hq, Option.some.injEq] at h
  subst h
  cases heffect : (s.worker.service.handle s.level message).2.1 with
  | nothing => simp [note, queueFor, jobFor, hidle]
  | respond link response => rfl
  | answer call result => simp [note, queueFor, jobFor, hidle]
  | release link => rfl
  | stop => rfl

theorem frame_of_takeMessage? {s t : Station σ ρ} (h : s.takeMessage? = some t) :
    t.links = s.links ∧ t.sessions = s.sessions ∧ t.writers = s.writers ∧ t.ports = s.ports ∧
      t.closing = s.closing := by
  unfold takeMessage? at h
  split at h
  · simp at h
  · next message queue hq =>
    simp only [Option.some.injEq] at h
    subst h
    split <;> exact ⟨rfl, rfl, rfl, rfl, rfl⟩

@[simp] theorem worker_setJob (s : Station σ ρ) (job : Job) :
    (s.setJob job).worker = { s.worker with job } := rfl

theorem take_of_move {s t : Station σ ρ} (h : s.WorkerMove t) (hidle : s.worker.job = .idle) :
    ∃ message queue, s.worker.queue = message :: queue ∧ s.takeMessage? = some t := by
  cases h with
  | take _ waiting taken => exact ⟨_, _, waiting, taken⟩
  | write job => simp [hidle] at job
  | giveUpWrite job => simp [hidle] at job
  | release job => simp [hidle] at job
  | giveUpRelease job => simp [hidle] at job

/-- Any other move only changes what the worker is busy with: it goes on with the same or is idle
afterwards. -/
theorem worker_of_move {s t : Station σ ρ} (h : s.WorkerMove t) (hbusy : s.worker.job ≠ .idle) :
    ∃ job, t.worker = { s.worker with job } ∧ job ≠ .stopped := by
  cases h with
  | take idle => exact absurd idle hbusy
  | @write write deadline link step job known hstep =>
    unfold afterWrite
    split
    · exact ⟨_, rfl, by simp⟩
    · exact ⟨.idle, rfl, by simp⟩
    · exact ⟨.idle, by simp, by simp⟩
  | giveUpWrite job => exact ⟨.idle, by simp [Station.giveUpWrite], by simp⟩
  | @release i deadline stage link after next job known hstep =>
    cases next with
    | none => exact ⟨.idle, rfl, by simp⟩
    | some stage => exact ⟨_, rfl, by simp⟩
  | giveUpRelease job => exact ⟨.idle, rfl, by simp⟩

theorem link?_of_move {s t : Station σ ρ} {i : Nat} (h : s.WorkerMove t)
    (hbusy : s.worker.job ≠ .idle) (hi : s.worker.job.link? ≠ some i) :
    t.worker.job.link? ≠ some i := by
  cases h with
  | take idle => exact absurd idle hbusy
  | @write write deadline link step job known hstep =>
    rw [job] at hi
    unfold afterWrite
    split
    · exact hi
    · exact (Option.some_ne_none i).symm
    · exact (Option.some_ne_none i).symm
  | giveUpWrite job => exact (Option.some_ne_none i).symm
  | @release k deadline stage link after next job known hstep =>
    rw [job] at hi
    cases next with
    | none => exact (Option.some_ne_none i).symm
    | some stage => exact hi
  | giveUpRelease job => exact (Option.some_ne_none i).symm

theorem queued_worker (s : Station σ ρ) : s.queued (.step .worker) = [] := by
  obtain ⟨-, hsame⟩ | hmove := s.act_worker
  · rw [queued, hsame, List.drop_length]
  · by_cases hidle : s.worker.job = .idle
    · obtain ⟨message, queue, hq, ht⟩ := take_of_move hmove hidle
      rw [queued, worker_of_takeMessage? hidle hq ht, hq]
      cases (s.worker.service.handle s.level message).2.1 <;> simp [queueFor]
    · obtain ⟨job, hworker, -⟩ := worker_of_move hmove hidle
      rw [queued, hworker, List.drop_length]

theorem not_stopped_of_move {s t : Station σ ρ} (h : s.WorkerMove t) : s.stopped = false := by
  cases h <;> simp_all [stopped]

theorem isClosed_congr {s t : Station σ ρ} {i : Nat} (h : t.links[i]? = s.links[i]?) :
    t.isClosed i = s.isClosed i := by
  simp only [isClosed, h]

theorem links_setLink_of_ne (s : Station σ ρ) {i j : Nat} (link : Link) (h : i ≠ j) :
    (s.setLink i link).links[j]? = s.links[j]? := by
  simp [setLink, h]

theorem links_closeLink_of_ne (s : Station σ ρ) {i j : Nat} (h : i ≠ j) :
    (s.closeLink i).links[j]? = s.links[j]? := by
  simp [closeLink, Array.getElem?_modify, h]

theorem links_writeFailed_of_ne (s : Station σ ρ) {i j : Nat} (fault : WriteFault) (h : i ≠ j) :
    (s.writeFailed i fault).links[j]? = s.links[j]? := by
  unfold writeFailed
  cases (s.links[i]?.map (·.persistent)).getD true
  · exact links_closeLink_of_ne _ h
  · rfl

theorem links_leaveLock_of_ne (s : Station σ ρ) {i j : Nat} (h : i ≠ j) :
    (s.leaveLock i).links[j]? = s.links[j]? := by
  simp [leaveLock, Array.getElem?_modify, h]

/-- The worker touches no link but the one it is busy with. -/
theorem links_of_move {s t : Station σ ρ} {j : Nat} (h : s.WorkerMove t)
    (hjob : s.worker.job.link? ≠ some j) : t.links[j]? = s.links[j]? := by
  cases h with
  | take idle waiting taken => rw [(frame_of_takeMessage? taken).1]
  | @write write deadline link step job known hstep =>
    have hne : write.link ≠ j := by
      rw [job] at hjob
      exact fun h => hjob (congrArg some h)
    unfold afterWrite
    split
    · exact links_setLink_of_ne s _ hne
    · exact links_setLink_of_ne s _ hne
    · exact (links_writeFailed_of_ne _ _ hne).trans (links_setLink_of_ne s _ hne)
  | @giveUpWrite write deadline job =>
    have hne : write.link ≠ j := by
      rw [job] at hjob
      exact fun h => hjob (congrArg some h)
    exact (links_writeFailed_of_ne _ _ hne).trans (links_leaveLock_of_ne s hne)
  | @release i deadline stage link after next job known hstep =>
    have hne : i ≠ j := by
      rw [job] at hjob
      exact fun h => hjob (congrArg some h)
    cases next with
    | none => exact links_setLink_of_ne s _ hne
    | some stage => exact links_setLink_of_ne s _ hne
  | @giveUpRelease i deadline stage job =>
    have hne : i ≠ j := by
      rw [job] at hjob
      exact fun h => hjob (congrArg some h)
    exact links_leaveLock_of_ne s hne

end Station

end ModbusSlave
