import ModbusSlave.Proofs.Station.Worker

/-!
# The worker gets done

A worker that is busy is idle again some steps behind its deadline, whatever becomes of the link,
and takes the next message then. So it gets to the end of its queue if only it has its turns and
time passes.
-/
namespace ModbusSlave

/-- How many steps a write of `bytes` still takes, at most. -/
def WriteStage.rank (bytes : Bytes) : WriteStage → Nat
  | .entering => bytes.length + 4
  | .locking => bytes.length + 3
  | .silent _ => bytes.length + 2
  | .pushing rest => rest.length + 1

def ShutdownStage.rank : ShutdownStage → Nat
  | .entering => 2
  | .locking => 1

namespace Job

/-- How many steps a job still takes, at most. -/
def rank : Job → Nat
  | .writing write _ => write.stage.rank write.bytes
  | .releasing _ stage _ => stage.rank
  | .idle | .stopped => 0

theorem rank_pos {job : Job} (hidle : job ≠ .idle) (hstopped : job ≠ .stopped) :
    0 < job.rank := by
  cases job with
  | idle => exact absurd rfl hidle
  | stopped => exact absurd rfl hstopped
  | writing write deadline =>
    obtain ⟨link, bytes, level, stage⟩ := write
    cases stage <;> exact Nat.succ_pos _
  | releasing link stage deadline => cases stage <;> exact Nat.succ_pos _

def deadline : Job → Nat
  | .writing _ deadline | .releasing _ _ deadline => deadline
  | .idle | .stopped => 0

end Job

theorem Pipe.length_write? {p q : Pipe} {b : UInt8} {bytes rest : Bytes}
    (h : p.write? (b :: bytes) = some (.ok (q, rest))) : rest.length < (b :: bytes).length := by
  obtain ⟨-, -, rfl⟩ := write?_eq_ok h
  have hroom : p.room ≠ 0 := by
    intro hfull
    unfold write? at h
    split at h
    · cases h
    · rw [if_pos hfull] at h
      split at h <;> cases h
  rw [List.length_drop, List.length_cons]
  omega

theorem Write.rank_step? {w : Write} {party : Party} {now : Nat} {l : Link} {step : WriteStep}
    {stage : WriteStage} (h : w.step? party now l = some step) (hnext : step.next = .inl stage) :
    stage.rank w.bytes < w.stage.rank w.bytes := by
  unfold Write.step? at h
  split at h
  · next hstage =>
    split at h <;> cases h
    · cases hnext
    · cases hnext
      rw [hstage]
      exact Nat.lt_succ_self _
  · next hstage =>
    rw [hstage]
    split at h
    · split at h <;> cases h <;> cases hnext
      · exact Nat.add_lt_add_left (by decide) _
      · exact Nat.lt_succ_self _
    · cases h
  · next hstage =>
    rw [hstage]
    split at h
    · cases h
      cases hnext
      exact Nat.lt_succ_self _
    · cases h
  · cases h
    cases hnext
  · next b rest hstage =>
    rw [hstage]
    split at h
    · cases h
    · cases h
      cases hnext
    · next hwrite =>
      cases h
      cases hnext
      exact Nat.succ_lt_succ (Pipe.length_write? hwrite)

theorem ShutdownStage.rank_step? {stage later : ShutdownStage} {party : Party} {l after : Link}
    (h : stage.step? party l = some (after, some later)) : later.rank < stage.rank := by
  cases stage with
  | entering =>
    cases h
    exact Nat.lt_succ_self 1
  | locking =>
    simp only [step?] at h
    split at h
    · cases h
    · cases h

def Action.Waits {σ ρ : Type} (a : Action σ ρ) : Prop := a = .tick ∨ a = .step .worker

namespace Station

variable {σ ρ : Type} {s t : Station σ ρ}

/-- Every message that has been queued is dealt with. -/
def Done (s : Station σ ρ) : Prop :=
  s.stopped = true ∨ (s.worker.job = .idle ∧ s.worker.queue = [])

instance (s : Station σ ρ) : Decidable s.Done := inferInstanceAs (Decidable (_ ∨ _ ∧ _))

theorem move_of_late (hs : s.stopped = false) (hbusy : s.worker.job ≠ .idle)
    (hlate : s.worker.job.deadline ≤ s.now) : s.WorkerMove (s.act (.step .worker)) := by
  obtain ⟨hnone, -⟩ | hmove := s.act_worker
  · unfold workerStep? at hnone
    split at hnone
    · next hjob => simp [stopped, hjob] at hs
    · next hjob => exact absurd hjob hbusy
    · next hjob =>
      rw [hjob, Job.deadline] at hlate
      split at hnone
      · cases hnone
      · rw [if_pos hlate] at hnone
        cases hnone
    · next hjob =>
      rw [hjob, Job.deadline] at hlate
      split at hnone
      · cases hnone
      · rw [if_pos hlate] at hnone
        cases hnone
  · exact hmove

/-- A busy worker that moves is idle afterwards or goes on with less to do. -/
theorem rank_of_move (h : s.WorkerMove t) (hbusy : s.worker.job ≠ .idle) :
    t.worker.job = .idle ∨ (t.worker.job.rank < s.worker.job.rank ∧
      t.worker.job.deadline = s.worker.job.deadline ∧ t.now = s.now) := by
  cases h with
  | take idle => exact absurd idle hbusy
  | @write write deadline link step job known hstep =>
    rw [job]
    cases hnext : step.next with
    | inl stage =>
      right
      simp only [afterWrite, hnext]
      exact ⟨Write.rank_step? hstep hnext, rfl, rfl⟩
    | inr result =>
      left
      cases result with
      | error kind => simp only [afterWrite, hnext, worker_setJob]
      | ok _ => simp only [afterWrite, hnext, worker_setJob]
  | giveUpWrite job => exact .inl rfl
  | @release i deadline stage link after next job known hstep =>
    rw [job]
    cases next with
    | none => exact .inl rfl
    | some later => exact .inr ⟨ShutdownStage.rank_step? hstep, rfl, rfl⟩
  | giveUpRelease job => exact .inl rfl

theorem run_ticks (s : Station σ ρ) (n : Nat) :
    s.run (List.replicate n .tick) = { s with now := s.now + n } := by
  induction n generalizing s with
  | zero => rfl
  | succ n ih =>
    rw [List.replicate_succ, run_cons, ih]
    simp only [act]
    rw [Nat.add_assoc, Nat.add_comm 1 n]

theorem idle_of_late (hs : s.stopped = false) (hlate : s.worker.job.deadline ≤ s.now) :
    ∃ n, (s.run (List.replicate n (.step .worker))).worker = { s.worker with job := .idle } := by
  induction hrank : s.worker.job.rank using Nat.strongRecOn generalizing s with
  | ind rank ih =>
    by_cases hidle : s.worker.job = .idle
    · exact ⟨0, by rw [← hidle]; rfl⟩
    have hmove := move_of_late hs hidle hlate
    obtain ⟨job, hworker, hjob⟩ := worker_of_move hmove hidle
    rcases rank_of_move hmove hidle with hdone | ⟨hless, hdeadline, hnow⟩
    · refine ⟨1, ?_⟩
      rw [hworker] at hdone
      rw [List.replicate_one, run_cons, ← hdone, ← hworker]
      rfl
    · have hruns : (s.act (.step .worker)).stopped = false := by
        rw [stopped, hworker]
        exact decide_eq_false hjob
      rw [← hdeadline, ← hnow] at hlate
      obtain ⟨n, hn⟩ := ih _ (hrank ▸ hless) hruns hlate rfl
      refine ⟨n + 1, ?_⟩
      rw [List.replicate_succ, run_cons, hn, hworker]

theorem queued_of_waits {a : Action σ ρ} (ha : a.Waits) (s : Station σ ρ) : s.queued a = [] := by
  rcases ha with rfl | rfl
  · exact List.drop_length
  · exact s.queued_worker

/-- Whatever the worker is busy with, it gets idle when it has its turns and time passes. -/
theorem idle_of_waits (hs : s.stopped = false) :
    ∃ more, (∀ a ∈ more, a.Waits) ∧ (s.run more).worker = { s.worker with job := .idle } := by
  have hlate : s.worker.job.deadline ≤ s.now + s.worker.job.deadline := Nat.le_add_left _ _
  obtain ⟨n, hn⟩ := idle_of_late (s := { s with now := s.now + s.worker.job.deadline }) hs hlate
  refine ⟨List.replicate s.worker.job.deadline .tick ++ List.replicate n (.step .worker), ?_, ?_⟩
  · intro a ha
    rcases List.mem_append.mp ha with hticks | hsteps
    · exact .inl (List.eq_of_mem_replicate hticks)
    · exact .inr (List.eq_of_mem_replicate hsteps)
  · rw [run_append, run_ticks, hn]

theorem worker_of_waiting {message : Message σ ρ} {queue : List (Message σ ρ)}
    (hidle : s.worker.job = .idle) (hqueue : s.worker.queue = message :: queue) :
    (s.act (.step .worker)).stopped = true ∨ (s.act (.step .worker)).worker.queue = queue := by
  obtain ⟨hnone, -⟩ | hmove := s.act_worker
  · have hempty := queue_eq_nil_of_workerStep? hnone hidle
    rw [hqueue] at hempty
    cases hempty
  · obtain ⟨_, _, -, ht⟩ := take_of_move hmove hidle
    rw [stopped, worker_of_takeMessage? hidle hqueue ht]
    cases (s.worker.service.handle s.level message).2.1 with
    | stop => exact .inl rfl
    | _ => exact .inr rfl

theorem along_queued_of_waits {more : List (Action σ ρ)} (hmore : ∀ a ∈ more, a.Waits)
    (s : Station σ ρ) : s.along queued more = [] := by
  induction more generalizing s with
  | nil => rfl
  | cons a rest ih =>
    obtain ⟨ha, hrest⟩ := List.forall_mem_cons.mp hmore
    rw [along, queued_of_waits ha, ih hrest, List.append_nil]

/-- From every moment on, its own turns and the passing of time are enough for the worker to get
done. -/
theorem done_of_waits (s : Station σ ρ) :
    ∃ more, (∀ a ∈ more, a.Waits) ∧ (s.run more).Done := by
  induction hqueue : s.worker.queue generalizing s with
  | nil =>
    cases hs : s.stopped with
    | true => exact ⟨[], by simp, .inl hs⟩
    | false =>
      obtain ⟨more, hwaits, hidle⟩ := idle_of_waits hs
      refine ⟨more, hwaits, .inr ?_⟩
      rw [hidle]
      exact ⟨rfl, hqueue⟩
  | cons message queue ih =>
    cases hs : s.stopped with
    | true => exact ⟨[], by simp, .inl hs⟩
    | false =>
      obtain ⟨first, hfirst, hidle⟩ := idle_of_waits hs
      have hjob : (s.run first).worker.job = .idle := by rw [hidle]
      have hwaiting : (s.run first).worker.queue = message :: queue := by rw [hidle, hqueue]
      rcases worker_of_waiting hjob hwaiting with hstopped | hrest
      · refine ⟨first ++ [.step .worker], ?_, .inl ?_⟩
        · exact List.forall_mem_append.mpr ⟨hfirst, List.forall_mem_singleton.mpr (.inr rfl)⟩
        · rw [run_append]
          exact hstopped
      · obtain ⟨second, hsecond, hdone⟩ := ih _ hrest
        refine ⟨first ++ .step .worker :: second, ?_, ?_⟩
        · exact List.forall_mem_append.mpr
            ⟨hfirst, List.forall_mem_cons.mpr ⟨.inr rfl, hsecond⟩⟩
        · rw [run_append, run_cons]
          exact hdone

end Station

end ModbusSlave
