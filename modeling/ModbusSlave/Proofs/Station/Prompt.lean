import ModbusSlave.Proofs.Station.Completion
import ModbusSlave.Proofs.Station.Linearization

/-!
# A worker that keeps nobody waiting

With every turn the worker has fewer messages in front of it, or less to do with the one that it
has taken. So it comes to a point where it has to wait, for a message or for a link. A worker that
is prompt gets there before anything else happens.
-/
namespace ModbusSlave

namespace Station

variable {σ ρ : Type} {s t : Station σ ρ}

theorem unit_act (s : Station σ ρ) (a : Action σ ρ) : (s.act a).unit = s.unit := s.run_unit [a]

theorem queueFor_sublist (queue : List (Message σ ρ)) (effect : Effect ρ) :
    (queueFor queue effect).Sublist queue := by
  cases effect with
  | stop => exact List.nil_sublist _
  | _ => exact List.Sublist.refl _

theorem queue_of_workerStep? (h : s.workerStep? = some t) :
    (∃ message queue, s.worker.queue = message :: queue ∧ t.worker.queue.Sublist queue) ∨
      (s.WorkerMove t ∧ s.worker.job ≠ .idle ∧ t.worker.queue = s.worker.queue) := by
  have hmove := workerMove_of_workerStep? h
  by_cases hidle : s.worker.job = .idle
  · obtain ⟨message, queue, hqueue, htake⟩ := take_of_move hmove hidle
    refine .inl ⟨message, queue, hqueue, ?_⟩
    rw [worker_of_takeMessage? hidle hqueue htake]
    exact queueFor_sublist _ _
  · obtain ⟨job, hworker, -⟩ := worker_of_move hmove hidle
    exact .inr ⟨hmove, hidle, by rw [hworker]⟩

theorem queue_sublist_of_workerStep? (h : s.workerStep? = some t) :
    t.worker.queue.Sublist s.worker.queue := by
  obtain ⟨message, queue, hqueue, hrest⟩ | ⟨-, -, hqueue⟩ := queue_of_workerStep? h
  · rw [hqueue]
    exact hrest.cons message
  · exact hqueue ▸ List.Sublist.refl _

/-- A move of the worker leaves it fewer messages, or as many and less to do. -/
theorem worker_decreases (h : s.workerStep? = some t) :
    Prod.Lex (· < ·) (· < ·) (t.worker.queue.length, t.worker.job.rank)
      (s.worker.queue.length, s.worker.job.rank) := by
  obtain ⟨message, queue, hqueue, hrest⟩ | ⟨hmove, hbusy, hqueue⟩ := queue_of_workerStep? h
  · rw [hqueue]
    exact .left _ _ (Nat.lt_succ_of_le hrest.length_le)
  · rw [hqueue]
    refine .right _ ?_
    rcases rank_of_move hmove hbusy with hdone | ⟨hless, -, -⟩
    · rw [hdone]
      exact Job.rank_pos hbusy (of_decide_eq_false (not_stopped_of_move hmove))
    · exact hless

/-- The worker takes its turns until it has to wait. -/
def serve (s : Station σ ρ) : Station σ ρ :=
  match _h : s.workerStep? with
  | none => s
  | some t => serve t
termination_by (s.worker.queue.length, s.worker.job.rank)
decreasing_by exact worker_decreases _h

theorem serve_of_none (h : s.workerStep? = none) : s.serve = s := by
  rw [serve]
  split
  · rfl
  · next hstep =>
    rw [h] at hstep
    cases hstep

theorem serve_of_some (h : s.workerStep? = some t) : s.serve = t.serve := by
  rw [serve]
  split
  · next hstep =>
    rw [h] at hstep
    cases hstep
  · next hstep =>
    rw [h] at hstep
    cases hstep
    rfl

theorem act_worker_of_some (h : s.workerStep? = some t) : s.act (.step .worker) = t := by
  simp only [act, partStep?, h, Option.getD_some]

theorem serve_eq_run (s : Station σ ρ) :
    ∃ n, s.serve = s.run (List.replicate n (.step .worker)) := by
  induction s using serve.induct with
  | case1 s hstep => exact ⟨0, serve_of_none hstep⟩
  | case2 s t hstep ih =>
    obtain ⟨n, hn⟩ := ih
    refine ⟨n + 1, ?_⟩
    rw [serve_of_some hstep, hn, List.replicate_succ, run_cons, act_worker_of_some hstep]

theorem workerStep?_serve (s : Station σ ρ) : s.serve.workerStep? = none := by
  induction s using serve.induct with
  | case1 s hstep => rwa [serve_of_none hstep]
  | case2 s t hstep ih => rwa [serve_of_some hstep]

/-- A turn of the worker is part of what it does anyway. -/
theorem serve_act_worker (s : Station σ ρ) : (s.act (.step .worker)).serve = s.serve := by
  cases hstep : s.workerStep? with
  | none => simp only [act, partStep?, hstep, Option.getD_none]
  | some t => rw [act_worker_of_some hstep, serve_of_some hstep]

/-- An action, after which the worker takes its turns at once. -/
def prompt (s : Station σ ρ) (a : Action σ ρ) : Station σ ρ := (s.act a).serve

theorem unit_prompt (s : Station σ ρ) (a : Action σ ρ) : (prompt s a).unit = s.unit := by
  obtain ⟨n, hn⟩ := (s.act a).serve_eq_run
  rw [prompt, hn, run_unit, unit_act]

end Station

end ModbusSlave
