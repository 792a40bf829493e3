import ModbusSlave.Proofs.Station.Clock
import ModbusSlave.Proofs.Station.Output
import ModbusSlave.Proofs.Station.Persistence

/-!
# Silence in front of responses

On a serial line silence tells where a response begins. Its span is counted from the moment at which
the worker has got the lock, which is not before the worker has begun with the response, and the
worker begins with no response before it is through with the one before. So the silence is kept
however long the worker has waited, and whatever has become of what it has written before.
-/
namespace ModbusSlave

/-- A response that the worker has begun on a link: when it was begun, what it says, and the pieces
of it that have been put on the link, each with its moment. -/
structure Utterance where
  began : Nat
  response : Bytes
  pieces : List (Nat × Bytes)
deriving DecidableEq, Repr

/-- Nothing of a write goes out before `due`. -/
def WriteStage.Hushed (due now : Nat) : WriteStage → Prop
  | .entering | .locking => True
  | .silent tick => due ≤ tick
  | .pushing _ => due ≤ now

/-- Nothing that the worker writes to the link `i` goes out before `due`. -/
def Job.Hushed (i due now : Nat) : Job → Prop
  | .writing write _ => write.link = i → write.stage.Hushed due now
  | _ => True

def Job.writesOn (i : Nat) : Job → Bool
  | .writing write _ => write.link = i
  | _ => false

theorem Job.unsent_of_elsewhere {i : Nat} {job : Job} (h : job.writesOn i = false) :
    job.unsent i = [] := by
  cases job with
  | writing write deadline => exact if_neg (of_decide_eq_false h)
  | _ => rfl

theorem Job.hushed_of_elsewhere {i : Nat} {job : Job} (h : job.writesOn i = false)
    (due now : Nat) : job.Hushed i due now := by
  cases job with
  | writing write deadline => exact fun hi => absurd hi (of_decide_eq_false h)
  | _ => trivial

theorem Job.elsewhere_of_link? {i : Nat} {job : Job} (h : job.link? ≠ some i) :
    job.writesOn i = false := by
  cases job with
  | writing write deadline => exact decide_eq_false fun hi => h (congrArg some hi)
  | _ => rfl

theorem WriteStage.Hushed.later {due now later : Nat} {stage : WriteStage}
    (h : stage.Hushed due now) (hlater : now ≤ later) : stage.Hushed due later := by
  cases stage with
  | pushing rest => exact Nat.le_trans h hlater
  | _ => exact h

theorem Job.Hushed.later {i due now later : Nat} {job : Job} (h : job.Hushed i due now)
    (hlater : now ≤ later) : job.Hushed i due later := by
  cases job with
  | writing write deadline => exact fun hi => (h hi).later hlater
  | _ => exact h

/-- On a link that asks for silence, a write goes from the lock to the silence, and gets through it
only in time. -/
theorem Write.hushed_step? {w : Write} {party : Party} {now due : Nat} {link : Link}
    {step : WriteStep} {d : Duration} (h : w.step? party now link = some step)
    (hsilence : link.silence = some d) (hdue : due ≤ now + d.ticks)
    (hstage : w.stage.Hushed due now) :
    (∀ stage, step.next = .inl stage → stage.Hushed due now) ∧
      (step.link.sent = link.sent ∨ due ≤ now) := by
  obtain ⟨i, bytes, level, stage⟩ := w
  cases stage with
  | entering =>
    simp only [Write.step?] at h
    split at h
    · cases h
      refine ⟨fun stage hnext => ?_, .inl rfl⟩
      cases hnext
    · cases h
      refine ⟨fun stage hnext => ?_, .inl rfl⟩
      cases hnext
      trivial
  | locking =>
    simp only [Write.step?, Option.ite_none_right_eq_some, hsilence, Option.some.injEq] at h
    obtain ⟨-, rfl⟩ := h
    refine ⟨fun stage hnext => ?_, .inl rfl⟩
    cases hnext
    exact hdue
  | silent tick =>
    simp only [Write.step?, Option.ite_none_right_eq_some, Option.some.injEq] at h
    obtain ⟨htick, rfl⟩ := h
    refine ⟨fun stage hnext => ?_, .inl rfl⟩
    cases hnext
    exact Nat.le_trans hstage htick
  | pushing rest =>
    refine ⟨fun stage hnext => ?_, .inr hstage⟩
    cases rest with
    | nil =>
      cases h
      cases hnext
    | cons b rest =>
      simp only [Write.step?] at h
      split at h <;> cases h <;> cases hnext
      exact hstage

namespace Station

variable {σ ρ : Type} {s t : Station σ ρ} {a : Action σ ρ} {i : Nat} {link : Link}

/-- What the worker puts on the link `i`, and when. -/
def ownOn (i : Nat) (s : Station σ ρ) : Action σ ρ → List (Nat × Bytes)
  | .step .worker => newOn i s (s.act (.step .worker))
  | _ => []

/-- The response that an action begins on the link `i`. -/
def begunOn (i : Nat) (s : Station σ ρ) (a : Action σ ρ) : List Bytes :=
  ((s.begun a).filter (·.1 = i)).map (·.2)

/-- What the worker puts on the link `i` before it begins another response on it. -/
def piecesOn (i : Nat) : Station σ ρ → List (Action σ ρ) → List (Nat × Bytes)
  | _, [] => []
  | s, a :: rest => if begunOn i s a = [] then ownOn i s a ++ piecesOn i (s.act a) rest else []

/-- The responses that are begun on the link `i` in the course of a history. -/
def utterances (i : Nat) : Station σ ρ → List (Action σ ρ) → List Utterance
  | _, [] => []
  | s, a :: rest =>
    (begunOn i s a).map (⟨s.now, ·, piecesOn i (s.act a) rest⟩) ++ utterances i (s.act a) rest

/-- The link `i` asks for the silence `d`. -/
def Asks (s : Station σ ρ) (i : Nat) (d : Duration) : Prop :=
  ∀ link, s.links[i]? = some link → link.silence = some d

theorem Asks.of_run {d : Duration} {history : List (Action σ ρ)}
    (h : (s.run history).Asks i d) : s.Asks i d := by
  intro link on
  obtain ⟨after, hafter, hsame⟩ := s.sameKind_run history link on
  rw [← hsame.silence]
  exact h after hafter

theorem sentOn_congr (h : t.links[i]? = s.links[i]?) : t.sentOn i = s.sentOn i := by
  rw [sentOn, sentOn, h]

theorem sentOn_of_retains (h : s.Becomes i Link.Retains t)
    (hsize : t.links.size = s.links.size) : t.sentOn i = s.sentOn i := by
  rw [sentOn, sentOn]
  cases hlink : s.links[i]? with
  | none =>
    rw [Array.getElem?_eq_none_iff, ← hsize, ← Array.getElem?_eq_none_iff] at hlink
    rw [hlink]
  | some link =>
    obtain ⟨after, hafter, hretains⟩ := h link hlink
    rw [hafter, Option.map_some, Option.map_some, hretains.sent]

theorem sentOn_afterWrite {write : Write} {deadline : Nat} {step : WriteStep}
    (known : s.links[write.link]? = some link) :
    (s.afterWrite write deadline step).sentOn write.link = step.link.sent := by
  have hafter : ((s.setLink write.link step.link).note step.events).links[write.link]? =
      some step.link := links_setLink_self step.link known
  have hset : ((s.setLink write.link step.link).note step.events).sentOn write.link =
      step.link.sent := by
    rw [sentOn, hafter]
    rfl
  unfold afterWrite
  split
  · exact hset
  · exact hset
  · refine Eq.trans ?_ hset
    apply sentOn_of_retains
    · exact becomes_writeFailed Link.Retains.lasts.toHolds _ _ _
    · exact (sameShape_writeFailed _ _ _).links

/-- What a worker that is busy does to the link `i`: the next step of a write, or nothing that puts
anything on it. -/
inductive Utters (i : Nat) (s : Station σ ρ) : Station σ ρ → Prop
  | step {write : Write} {deadline : Nat} {link : Link} {step : WriteStep}
      (job : s.worker.job = .writing write deadline) (here : write.link = i)
      (on : s.links[i]? = some link) (step?_eq : write.step? .worker s.now link = some step) :
      Utters i s (s.afterWrite write deadline step)
  | nothing {t : Station σ ρ} (sent : t.sentOn i = s.sentOn i)
      (elsewhere : t.worker.job.writesOn i = false) : Utters i s t

theorem utters_of_move (hmove : s.WorkerMove t) (hbusy : s.worker.job ≠ .idle) :
    s.Utters i t := by
  have hretains : Link.Holds Link.Retains := Link.Retains.lasts.toHolds
  have hsize := (sameShape_of_move hmove).links
  by_cases hlink : s.worker.job.link? = some i
  · cases hmove with
    | take idle => exact absurd idle hbusy
    | @write write deadline link step job known hstep =>
      rw [job] at hlink
      obtain rfl := Option.some.inj hlink
      exact .step job rfl known hstep
    | @giveUpWrite write deadline job =>
      refine .nothing (sentOn_of_retains ?_ hsize) rfl
      have hleave : s.Becomes i Link.Retains (s.leaveLock write.link) :=
        becomes_modifyLink hretains.refl s fun link => hretains.release link .worker
      exact hleave.trans hretains.trans (becomes_writeFailed hretains _ _ _)
    | @release k deadline stage link after next job known hstep =>
      have hset : s.Becomes i Link.Retains (s.setLink k after) :=
        becomes_setLink hretains.refl known (hretains.shutdown hstep)
      cases next with
      | none => exact .nothing (sentOn_of_retains hset hsize) rfl
      | some later => exact .nothing (sentOn_of_retains hset hsize) rfl
    | @giveUpRelease k deadline stage job =>
      have hleave : s.Becomes i Link.Retains (s.leaveLock k) :=
        becomes_modifyLink hretains.refl s fun link => hretains.release link .worker
      exact .nothing (sentOn_of_retains hleave hsize) rfl
  · exact .nothing (sentOn_congr (links_of_move hmove hlink))
      (Job.elsewhere_of_link? (link?_of_move hmove hbusy hlink))

theorem Utters.unsent (h : s.Utters i t) :
    t.sentOn i ++ t.worker.job.unsent i <+: s.sentOn i ++ s.worker.job.unsent i := by
  cases h with
  | @step write deadline link step job here on hstep =>
    subst here
    rw [sentOn_afterWrite on, sentOn, on, job]
    simp only [Option.map_some, Option.getD_some, Job.unsent, if_true]
    cases Write.sends_of_step? hstep with
    | on sent =>
      simp only [afterWrite, worker_setJob, if_true]
      exact ⟨[], (List.append_nil _).trans sent⟩
    | done sent =>
      rw [sent]
      exact (List.prefix_append_right_inj _).mpr List.nil_prefix
    | failed sent =>
      rw [sent]
      exact (List.prefix_append_right_inj _).mpr List.nil_prefix
  | nothing sent elsewhere =>
    rw [sent, Job.unsent_of_elsewhere elsewhere, List.append_nil]
    exact List.prefix_append _ _

theorem Utters.hushed {d : Duration} {due : Nat} (h : s.Utters i t)
    (hasks : s.Asks i d) (hdue : due ≤ s.now + d.ticks) (hjob : s.worker.job.Hushed i due s.now) :
    t.worker.job.Hushed i due s.now ∧ (t.sentOn i = s.sentOn i ∨ due ≤ s.now) := by
  cases h with
  | @step write deadline link step job here on hstep =>
    subst here
    rw [job] at hjob
    obtain ⟨hnext, hsent⟩ := Write.hushed_step? hstep (hasks link on) hdue (hjob rfl)
    rw [sentOn_afterWrite on, sentOn, on]
    refine ⟨?_, hsent⟩
    unfold afterWrite
    split
    · next stage hstage => exact fun _ => hnext stage hstage
    · trivial
    · trivial
  | nothing sent elsewhere => exact ⟨Job.hushed_of_elsewhere elsewhere due s.now, .inl sent⟩

theorem ownOn_of_ne (ha : a ≠ .step .worker) : ownOn i s a = [] := by
  cases a with
  | step part =>
    cases part with
    | worker => exact absurd rfl ha
    | _ => rfl
  | _ => rfl

theorem Takes.ownOn {message : Message σ ρ} {queue : List (Message σ ρ)}
    (h : s.Takes a message queue) : Station.ownOn i s a = [] := by
  have hlinks := h.frame.1
  rw [h.action] at hlinks ⊢
  exact newOn_of_links hlinks

theorem answered_of_begunOn (h : begunOn i s a = []) : s.answered i a = [] := by
  rw [begunOn, List.map_eq_nil_iff] at h
  rw [answered, h, List.flatMap_nil]

/-- What an action puts on the link is the next of what the worker has to put there. -/
theorem unsent_act (hnone : begunOn i s a = []) :
    (ownOn i s a).flatMap (·.2) ++ (s.act a).worker.job.unsent i <+: s.worker.job.unsent i := by
  obtain hkeeps | ⟨message, queue, htakes⟩ := s.keeps_or_takes a
  · by_cases ha : a = .step .worker
    · subst ha
      obtain hsame | ⟨hmove, hbusy⟩ := hkeeps.busy
      · rw [ownOn, newOn_of_links (by rw [hsame]), hsame]
        exact List.prefix_rfl
      · have hunsent := (utters_of_move hmove hbusy).unsent (i := i)
        rw [sentOn_act, List.append_assoc] at hunsent
        exact (List.prefix_append_right_inj _).mp hunsent
    · rw [ownOn_of_ne ha, job_act ha]
      exact List.prefix_rfl
  · rw [htakes.ownOn, htakes.unsent, answered_of_begunOn hnone]
    exact List.nil_prefix

/-- The silence that the worker has to keep is kept by every action. -/
theorem hushed_act {d : Duration} {due : Nat}
    (hasks : s.Asks i d) (hdue : due ≤ s.now + d.ticks) (h : s.worker.job.Hushed i due s.now) :
    (s.act a).worker.job.Hushed i due (s.act a).now ∧ ∀ piece ∈ ownOn i s a, due ≤ piece.1 := by
  obtain hkeeps | ⟨message, queue, htakes⟩ := s.keeps_or_takes a
  · by_cases ha : a = .step .worker
    · subst ha
      obtain hsame | ⟨hmove, hbusy⟩ := hkeeps.busy
      · rw [ownOn, newOn_of_links (by rw [hsame]), hsame]
        exact ⟨h, List.forall_mem_nil _⟩
      · obtain ⟨hjob, hsent⟩ := (utters_of_move hmove hbusy).hushed hasks hdue h
        rw [now_of_move hmove]
        refine ⟨hjob, fun piece hpiece => ?_⟩
        rw [ownOn, newOn] at hpiece
        split at hpiece
        · cases hpiece
        · next hnew =>
          obtain rfl := List.mem_singleton.mp hpiece
          rw [now_of_move hmove]
          exact hsent.resolve_left hnew
    · rw [ownOn_of_ne ha, job_act ha]
      exact ⟨h.later (s.now_le_act a), List.forall_mem_nil _⟩
  · rw [htakes.ownOn, htakes.worker]
    refine ⟨?_, List.forall_mem_nil _⟩
    cases (s.worker.service.handle s.level message).2.1 with
    | respond k response => exact fun _ => trivial
    | _ => trivial

theorem begunOn_cases (i : Nat) (s : Station σ ρ) (a : Action σ ρ) :
    begunOn i s a = [] ∨ ∃ response, begunOn i s a = [response] ∧ ownOn i s a = [] ∧
      (s.act a).worker.job.unsent i = response ∧
        ∀ due now, (s.act a).worker.job.Hushed i due now := by
  obtain hkeeps | ⟨message, queue, htakes⟩ := s.keeps_or_takes a
  · left
    rw [begunOn, hkeeps.begun]
    rfl
  · rw [begunOn, begun, htakes.idle, htakes.worker]
    cases (s.worker.service.handle s.level message).2.1 with
    | respond k response =>
      by_cases hk : k = i
      · right
        refine ⟨response.encode, ?_, htakes.ownOn, ?_, fun _ _ _ => trivial⟩
        · simp [jobFor, hk]
        · simp [jobFor, Job.unsent, Write.left, hk]
      · left
        simp [jobFor, hk]
    | _ => exact .inl rfl

theorem of_mem_begunOn {response : Bytes} (h : response ∈ begunOn i s a) :
    (s.act a).worker.job.unsent i = response ∧
      ∀ due now, (s.act a).worker.job.Hushed i due now := by
  rcases begunOn_cases i s a with hnone | ⟨only, hone, -, hjob⟩
  · rw [hnone] at h
    cases h
  · rw [hone, List.mem_singleton] at h
    rw [h]
    exact hjob

theorem of_mem_ownOn {piece : Nat × Bytes} (h : piece ∈ ownOn i s a) :
    piece.1 = (s.act a).now ∧ piece.2 ≠ [] := by
  by_cases ha : a = .step .worker
  · subst ha
    have hsent := s.sentOn_act (.step .worker) (i := i)
    rw [ownOn, newOn] at h
    rw [newOn] at hsent
    split at h
    · cases h
    · next hnew =>
      rw [if_neg hnew] at hsent
      obtain rfl := List.mem_singleton.mp h
      refine ⟨rfl, fun hnil => hnew ?_⟩
      rw [hsent, List.flatMap_singleton, hnil, List.append_nil]
  · rw [ownOn_of_ne ha] at h
    cases h

/-- What the worker still has to put on a link is what it puts there, as far as it gets. -/
theorem piecesOn_isPrefix (i : Nat) (s : Station σ ρ) (history : List (Action σ ρ)) :
    (piecesOn i s history).flatMap (·.2) <+: s.worker.job.unsent i := by
  induction history generalizing s with
  | nil => exact List.nil_prefix
  | cons a rest ih =>
    rw [piecesOn]
    split
    · next hnone =>
      rw [List.flatMap_append]
      exact ((List.prefix_append_right_inj _).mpr (ih (s.act a))).trans (unsent_act hnone)
    · exact List.nil_prefix

theorem mem_piecesOn_cons {piece : Nat × Bytes} {rest : List (Action σ ρ)}
    (h : piece ∈ piecesOn i s (a :: rest)) :
    begunOn i s a = [] ∧ (piece ∈ ownOn i s a ∨ piece ∈ piecesOn i (s.act a) rest) := by
  rw [piecesOn] at h
  split at h
  · next hnone => exact ⟨hnone, List.mem_append.mp h⟩
  · cases h

theorem piecesOn_eq_nil {history : List (Action σ ρ)} (h : s.worker.job.unsent i = []) :
    piecesOn i s history = [] := by
  have hempty := s.piecesOn_isPrefix i history
  rw [h, List.prefix_nil, List.flatMap_eq_nil_iff] at hempty
  have hsome : ∀ piece ∈ piecesOn i s history, piece.2 ≠ [] := by
    clear h hempty
    induction history generalizing s with
    | nil => exact List.forall_mem_nil _
    | cons a rest ih =>
      intro piece hpiece
      obtain ⟨-, hnow | hlater⟩ := mem_piecesOn_cons hpiece
      · exact (of_mem_ownOn hnow).2
      · exact ih piece hlater
  exact List.eq_nil_iff_forall_not_mem.mpr fun piece hpiece =>
    hsome piece hpiece (hempty piece hpiece)

theorem due_le_of_mem_piecesOn {d : Duration} {due : Nat} {history : List (Action σ ρ)}
    (hasks : (s.run history).Asks i d) (hdue : due ≤ s.now + d.ticks)
    (h : s.worker.job.Hushed i due s.now) : ∀ piece ∈ piecesOn i s history, due ≤ piece.1 := by
  induction history generalizing s with
  | nil => exact List.forall_mem_nil _
  | cons a rest ih =>
    intro piece hpiece
    obtain ⟨hjob, hown⟩ := hushed_act hasks.of_run hdue h
    obtain ⟨-, hnow | hlater⟩ := mem_piecesOn_cons hpiece
    · exact hown piece hnow
    · refine ih hasks ?_ hjob piece hlater
      exact Nat.le_trans hdue (Nat.add_le_add_right (s.now_le_act a) _)

theorem mem_utterances_cons {u : Utterance} {rest : List (Action σ ρ)}
    (h : u ∈ utterances i s (a :: rest)) :
    (u.response ∈ begunOn i s a ∧ u = ⟨s.now, u.response, piecesOn i (s.act a) rest⟩) ∨
      u ∈ utterances i (s.act a) rest := by
  rw [utterances, List.mem_append, List.mem_map] at h
  rcases h with ⟨response, hresponse, rfl⟩ | hlater
  · exact .inl ⟨hresponse, rfl⟩
  · exact .inr hlater

theorem now_le_began {u : Utterance} {history : List (Action σ ρ)}
    (h : u ∈ utterances i s history) : s.now ≤ u.began := by
  induction history generalizing s with
  | nil => cases h
  | cons a rest ih =>
    rcases mem_utterances_cons h with ⟨-, hu⟩ | hlater
    · exact Nat.le_of_eq (congrArg Utterance.began hu).symm
    · exact Nat.le_trans (s.now_le_act a) (ih hlater)

theorem le_began_of_mem_piecesOn {u : Utterance} {piece : Nat × Bytes}
    {history : List (Action σ ρ)} (hpiece : piece ∈ piecesOn i s history)
    (h : u ∈ utterances i s history) : piece.1 ≤ u.began := by
  induction history generalizing s with
  | nil => cases h
  | cons a rest ih =>
    obtain ⟨hnone, hpiece⟩ := mem_piecesOn_cons hpiece
    rcases mem_utterances_cons h with ⟨hbegun, -⟩ | hlater
    · rw [hnone] at hbegun
      cases hbegun
    · rcases hpiece with hnow | hrest
      · rw [(of_mem_ownOn hnow).1]
        exact now_le_began hlater
      · exact ih hrest hlater

theorem pieces_isPrefix {u : Utterance} {history : List (Action σ ρ)}
    (h : u ∈ utterances i s history) : u.pieces.flatMap (·.2) <+: u.response := by
  induction history generalizing s with
  | nil => cases h
  | cons a rest ih =>
    rcases mem_utterances_cons h with ⟨hbegun, hu⟩ | hlater
    · have hprefix := (s.act a).piecesOn_isPrefix i rest
      rw [(of_mem_begunOn hbegun).1] at hprefix
      rw [hu]
      exact hprefix
    · exact ih hlater

/-- Silence is kept from the beginning of a response to its first byte. -/
theorem began_add_le {u : Utterance} {d : Duration} {history : List (Action σ ρ)}
    (hasks : (s.run history).Asks i d) (h : u ∈ utterances i s history) :
    ∀ piece ∈ u.pieces, u.began + d.ticks ≤ piece.1 := by
  induction history generalizing s with
  | nil => cases h
  | cons a rest ih =>
    rcases mem_utterances_cons h with ⟨hbegun, hu⟩ | hlater
    · rw [hu]
      refine due_le_of_mem_piecesOn hasks ?_ ((of_mem_begunOn hbegun).2 _ _)
      exact Nat.add_le_add_right (s.now_le_act a) _
    · exact ih hasks hlater

theorem pairwise_utterances {d : Duration} {history : List (Action σ ρ)}
    (hasks : (s.run history).Asks i d) :
    (utterances i s history).Pairwise fun u v =>
      ∀ piece ∈ u.pieces, ∀ later ∈ v.pieces, piece.1 + d.ticks ≤ later.1 := by
  induction history generalizing s with
  | nil => exact .nil
  | cons a rest ih =>
    rw [utterances, List.pairwise_append]
    refine ⟨?_, ih hasks, ?_⟩
    · rcases begunOn_cases i s a with hnone | ⟨response, hone, -⟩
      · rw [hnone]
        exact .nil
      · rw [hone]
        exact List.pairwise_singleton _ _
    · intro u hu v hv piece hpiece later hlater
      obtain ⟨response, -, rfl⟩ := List.mem_map.mp hu
      calc piece.1 + d.ticks
        _ ≤ v.began + d.ticks := Nat.add_le_add_right (le_began_of_mem_piecesOn hpiece hv) _
        _ ≤ later.1 := began_add_le (s := s.act a) hasks hv later hlater

theorem response_utterances (i : Nat) (s : Station σ ρ) (history : List (Action σ ρ)) :
    (utterances i s history).map (·.response) = s.along (begunOn i) history := by
  induction history generalizing s with
  | nil => rfl
  | cons a rest ih =>
    rw [utterances, along, List.map_append, ih, List.map_map]
    exact congrArg (· ++ _) (List.map_id _)

theorem pieces_utterances (i : Nat) (s : Station σ ρ) (history : List (Action σ ρ)) :
    piecesOn i s history ++ (utterances i s history).flatMap (·.pieces) =
      s.along (ownOn i) history := by
  induction history generalizing s with
  | nil => rfl
  | cons a rest ih =>
    rw [piecesOn, utterances, along, ← ih (s.act a)]
    rcases begunOn_cases i s a with hnone | ⟨response, hone, hown, -⟩
    · rw [hnone, if_pos rfl, List.map_nil, List.nil_append, List.append_assoc]
    · rw [hone, hown, if_neg (List.cons_ne_nil _ _)]
      rfl

/-- On a link that asks for silence every response is preceded by it, whatever has become of the
responses before: nothing of a response is put on the link sooner than that after the worker has
begun with it, nor sooner than that after the last piece of any response before it. The silence is
counted in ticks, that is, rounded up (`Duration.le_ticks`). What is put on the link of a response
are its first bytes, and all that the worker puts there is of some response. And a persistent link
is never closed by a failed write, only by a close, by its release or by the shutdown of the
station. -/
theorem silence_kept (settings : ServerSettings) (history : List (Action σ ρ)) (i : Nat) :
    let s : Station σ ρ := ofSettings settings
    let responses := utterances i s history
    (∀ u ∈ responses, u.pieces.flatMap (·.2) <+: u.response) ∧
    responses.map (·.response) = s.along (begunOn i) history ∧
    responses.flatMap (·.pieces) = s.along (ownOn i) history ∧
    (∀ link d, (s.run history).links[i]? = some link → link.silence = some d →
      (∀ u ∈ responses, ∀ piece ∈ u.pieces, u.began + d.ticks ≤ piece.1) ∧
      responses.Pairwise fun u v =>
        ∀ piece ∈ u.pieces, ∀ later ∈ v.pieces, piece.1 + d.ticks ≤ later.1) ∧
    (∀ a link, (∀ k peer brought, .accept k peer brought ∈ history → brought.persistent = false) →
      (s.run history).links[i]? = some link → link.persistent = true → link.closed = false →
      ((s.run history).act a).isClosed i = true → (s.run history).Shuts i a) := by
  intro s responses
  refine ⟨fun u => pieces_isPrefix, response_utterances i s history, ?_, ?_, ?_⟩
  · have hpieces := pieces_utterances i s history
    rwa [piecesOn_eq_nil rfl, List.nil_append] at hpieces
  · intro link d on hsilence
    have hasks : (s.run history).Asks i d := by
      intro other hother
      obtain rfl := Option.some.inj (hother.symm.trans on)
      exact hsilence
    exact ⟨fun u => began_add_le hasks, pairwise_utterances hasks⟩
  · intro a link haccepted on hpersistent hclosed hshut
    by_contra hshuts
    have hseated : s.Seated := seated_ofSettings settings
    have hhosted : (s.run history).Hosted := hosted_run (hosted_ofSettings settings) history
    have hcleared : (s.run history).Cleared :=
      cleared_run (cleared_ofSettings settings) hseated history
    have hfleeting : (s.run history).Fleeting :=
      fleeting_run (fleeting_ofSettings settings) hseated haccepted
    have hopen : (s.run history).isClosed i = false := by
      rw [isClosed, on]
      exact hclosed
    rw [open_act hhosted hcleared hfleeting on hpersistent hopen hshuts] at hshut
    cases hshut

/-- A serial line whose far end has room for four bytes, and two requests for it: the worker gives
up the first response in the middle, and puts the second one on the line once there is room
again. -/
def cutOff : List (Action Unit Unit) :=
  [.addPort "tty" (.fresh 8 4 false (some ⟨2000000⟩)),
    .submit (.request 0 ⟨.rtu, ⟨1⟩, 0x41, []⟩), .submit (.request 0 ⟨.rtu, ⟨1⟩, 0x42, []⟩),
    .step .worker, .step .worker, .step .worker, .tick, .tick, .step .worker, .step .worker,
    .tick, .step .worker, .collect 0 4,
    .step .worker, .step .worker, .step .worker, .tick, .tick, .step .worker, .step .worker,
    .collect 0 4, .step .worker, .step .worker]

theorem silence_kept_cutOff :
    let settings : ServerSettings := ⟨⟨1⟩, .uniform 2, ⟨3000000⟩, none, .nothing⟩
    let s : Station Unit Unit := ofSettings settings
    let responses := utterances 0 s cutOff
    responses = [⟨0, [0x01, 0xC1, 0x01, 0xB0, 0x50], [(2, [0x01, 0xC1, 0x01, 0xB0])]⟩,
      ⟨3, [0x01, 0xC2, 0x01, 0xB0, 0xA0],
        [(5, [0x01, 0xC2, 0x01, 0xB0]), (5, [0xA0])]⟩] ∧
    (∀ u ∈ responses, ∀ piece ∈ u.pieces, u.began + 2 ≤ piece.1) ∧
    (responses.Pairwise fun u v =>
      ∀ piece ∈ u.pieces, ∀ later ∈ v.pieces, piece.1 + 2 ≤ later.1) ∧
    ((s.run cutOff).act (.close 0)).isClosed 0 = true ∧ (s.run cutOff).Shuts 0 (.close 0) := by
  intro settings s responses
  let link : Link :=
    { Link.fresh 8 4 true (some ⟨2000000⟩) with
      outgoing := ⟨4, [0xA0], false, none⟩
      received := [0x01, 0xC1, 0x01, 0xB0, 0x01, 0xC2, 0x01, 0xB0] }
  have on : (s.run cutOff).links[0]? = some link := by decide +kernel
  have haccepted : ∀ k peer brought, .accept k peer brought ∈ cutOff →
      brought.persistent = false := by
    intro k peer brought hmem
    simp [cutOff] at hmem
  have hclosed : ((s.run cutOff).act (.close 0)).isClosed 0 = true := by decide +kernel
  obtain ⟨-, -, -, hsilence, hshuts⟩ := silence_kept settings cutOff 0
  obtain ⟨hbegan, hapart⟩ := hsilence link ⟨2000000⟩ on rfl
  exact ⟨by decide +kernel, hbegan, hapart, hclosed,
    hshuts (.close 0) link haccepted on rfl rfl hclosed⟩

end Station

end ModbusSlave
