import ModbusSlave.Proofs.Station.Linearization
import ModbusSlave.Proofs.Station.Links

/-!
# What is put on a link

The far end of a link takes out what has been sent without changing it, and of all that happens to a
station only a write on the link adds to it. A write by the worker adds its bytes in their order,
and begins only while the link is open.
-/
namespace ModbusSlave

structure Link.Retains (before after : Link) : Prop where
  sent : after.sent = before.sent
  persistent : after.persistent = before.persistent
  closed : before.closed = true → after.closed = true

theorem Link.Retains.refl (link : Link) : link.Retains link := ⟨rfl, rfl, id⟩

theorem Link.Retains.trans {a b c : Link} (h : a.Retains b) (h' : b.Retains c) : a.Retains c :=
  ⟨h'.sent.trans h.sent, h'.persistent.trans h.persistent, h'.closed ∘ h.closed⟩

theorem Link.retains_closed (link : Link) (closed : Bool) :
    link.Retains { link with closed := link.closed || closed } := by
  refine ⟨rfl, rfl, ?_⟩
  intro hclosed
  dsimp only
  rw [hclosed, Bool.true_or]

theorem retains_of_shutdownStep {stage : ShutdownStage} {party : Party} {link after : Link}
    {next : Option ShutdownStage} (h : stage.step? party link = some (after, next)) :
    link.Retains after := by
  unfold ShutdownStage.step? at h
  split at h
  · cases h
    exact ⟨rfl, rfl, fun _ => rfl⟩
  · split at h
    · cases h
      exact ⟨rfl, rfl, id⟩
    · cases h

theorem Link.sent_of_read? {link : Link} {outgoing : Pipe} {count : Nat}
    {got : Except IoKind Bytes} (h : link.outgoing.read? count = some (got, outgoing)) :
    ({ link with outgoing, received := link.received ++ Station.delivered got } : Link).sent =
      link.sent := by
  have hcontent : Station.delivered got ++ outgoing.content = link.outgoing.content := by
    cases got with
    | ok bytes => exact Pipe.content_read? h
    | error kind => exact Pipe.content_read?_error h
  dsimp only [sent]
  rw [List.append_assoc, hcontent]

theorem Link.Retains.lasts : Link.Lasts Link.Retains where
  refl := .refl
  trans := .trans
  closed := retains_closed
  release _ _ := ⟨rfl, rfl, id⟩
  shutdown := retains_of_shutdownStep
  incoming _ _ := ⟨rfl, rfl, id⟩
  collected hread := ⟨sent_of_read? hread, rfl, id⟩
  deafened _ := ⟨rfl, rfl, id⟩
  broken _ _ := ⟨rfl, rfl, id⟩

/-- What a write has not put on its link yet. -/
def Write.left (w : Write) : Bytes :=
  match w.stage with
  | .pushing rest => rest
  | _ => w.bytes

/-- What the worker still has to put on the link `i`. -/
def Job.unsent (i : Nat) : Job → Bytes
  | .writing write _ => if write.link = i then write.left else []
  | _ => []

theorem Job.unsent_of_ne {job : Job} {i : Nat} (h : job.link? ≠ some i) : job.unsent i = [] := by
  cases job with
  | writing write deadline => exact if_neg fun hi => h (congrArg some hi)
  | _ => rfl

/-- A step of a write neither closes the link nor mends or breaks its medium. -/
theorem frame_of_writeStep {w : Write} {party : Party} {now : Nat} {link : Link}
    {step : WriteStep} (h : w.step? party now link = some step) :
    step.link.closed = link.closed ∧ step.link.persistent = link.persistent ∧
      step.link.outgoing.broken = link.outgoing.broken := by
  unfold Write.step? at h
  split at h
  · split at h <;> cases h <;> exact ⟨rfl, rfl, rfl⟩
  · split at h
    · split at h <;> cases h <;> exact ⟨rfl, rfl, rfl⟩
    · cases h
  · split at h
    · cases h
      exact ⟨rfl, rfl, rfl⟩
    · cases h
  · cases h
    exact ⟨rfl, rfl, rfl⟩
  · split at h
    · cases h
    · cases h
      exact ⟨rfl, rfl, rfl⟩
    · next outgoing rest hwrite =>
      cases h
      obtain ⟨-, rfl, -⟩ := Pipe.write?_eq_ok hwrite
      exact ⟨rfl, rfl, rfl⟩

/-- A step of a write puts the next of its bytes on the link. It ends well only with its last byte,
and gets past its beginning only if the link is open. -/
inductive Write.Sends (w : Write) (link : Link) : WriteStep → Prop
  | on {after : Link} {stage : WriteStage} {events : List Event}
      (sent : after.sent ++ Write.left { w with stage } = link.sent ++ w.left)
      (grows : link.sent <+: after.sent) (opened : w.stage = .entering → link.closed = false)
      (begun : stage ≠ .entering) : Sends w link ⟨after, .inl stage, events⟩
  | done {after : Link} {events : List Event} (sent : after.sent = link.sent) (left : w.left = []) :
      Sends w link ⟨after, .inr (.ok ()), events⟩
  | failed {after : Link} {kind : IoKind} {events : List Event} (sent : after.sent = link.sent) :
      Sends w link ⟨after, .inr (.error kind), events⟩

theorem Write.sends_of_step? {w : Write} {party : Party} {now : Nat} {link : Link}
    {step : WriteStep} (h : w.step? party now link = some step) : w.Sends link step := by
  obtain ⟨i, bytes, level, stage⟩ := w
  cases stage with
  | entering =>
    simp only [Write.step?] at h
    split at h
    · cases h
      exact .failed rfl
    · next hopen =>
      cases h
      exact .on rfl List.prefix_rfl (fun _ => (Bool.not_eq_true _).mp hopen) (by simp)
  | locking =>
    simp only [Write.step?, Option.ite_none_right_eq_some] at h
    obtain ⟨-, h⟩ := h
    split at h <;> cases h <;> exact .on rfl List.prefix_rfl (by simp) (by simp)
  | silent tick =>
    simp only [Write.step?, Option.ite_none_right_eq_some, Option.some.injEq] at h
    obtain ⟨-, rfl⟩ := h
    exact .on rfl List.prefix_rfl (by simp) (by simp)
  | pushing rest =>
    cases rest with
    | nil =>
      cases h
      cases link.outgoing.flush with
      | error kind => exact .failed rfl
      | ok flushed => exact .done rfl rfl
    | cons b rest =>
      simp only [Write.step?] at h
      split at h
      · cases h
      · cases h
        exact .failed rfl
      · next outgoing behind hwrite =>
        cases h
        have hcontent := Pipe.content_write? hwrite
        obtain ⟨-, rfl, -⟩ := Pipe.write?_eq_ok hwrite
        refine .on ?_ ?_ (by simp) (by simp)
        · dsimp only [Link.sent, Write.left] at hcontent ⊢
          rw [List.append_assoc, hcontent, List.append_assoc]
        · dsimp only [Link.sent]
          rw [← List.append_assoc]
          exact List.prefix_append _ _

namespace Station

variable {σ ρ : Type}

section

variable {i : Nat} {s t : Station σ ρ}

theorem job_act {a : Action σ ρ} (ha : a ≠ .step .worker) :
    (s.act a).worker.job = s.worker.job := by
  obtain ⟨messages, hoffers, -⟩ := s.offers_act ha
  rw [hoffers]

/-- The response on the link that an action begins. -/
def answered (i : Nat) (s : Station σ ρ) (a : Action σ ρ) : Bytes :=
  ((s.begun a).filter (·.1 = i)).flatMap (·.2)

theorem answered_of_keeps {a : Action σ ρ} (h : s.Keeps a) : s.answered i a = [] := by
  rw [answered, h.begun]
  rfl

theorem Takes.unsent {a : Action σ ρ} {message : Message σ ρ} {queue : List (Message σ ρ)}
    (h : s.Takes a message queue) : (s.act a).worker.job.unsent i = s.answered i a := by
  rw [answered, Station.begun, h.idle, h.worker]
  cases (s.worker.service.handle s.level message).2.1 with
  | respond k response =>
    by_cases hk : k = i
    · simp [jobFor, Job.unsent, Write.left, hk]
    · simp [jobFor, Job.unsent, hk]
  | _ => rfl

theorem links_setLink_self {before : Link} (link : Link) (h : s.links[i]? = some before) :
    (s.setLink i link).links[i]? = some link := by
  obtain ⟨hi, -⟩ := Array.getElem?_eq_some_iff.mp h
  exact Array.getElem?_setIfInBounds_self_of_lt hi

theorem closed_writeFailed {link : Link} (on : s.links[i]? = some link)
    (hpersistent : link.persistent = false) (fault : WriteFault) :
    (s.writeFailed i fault).links[i]? = some link.close := by
  simp [writeFailed, on, hpersistent, closeLink, note, Array.getElem?_modify]

theorem closed_afterWrite {write : Write} {deadline : Nat} {before after : Link} {kind : IoKind}
    {events : List Event} (on : s.links[write.link]? = some before)
    (hpersistent : after.persistent = false) :
    (s.afterWrite write deadline ⟨after, .inr (.error kind), events⟩).links[write.link]? =
      some after.close := by
  have hafter : ((s.setLink write.link after).note events).links[write.link]? = some after :=
    links_setLink_self after on
  exact closed_writeFailed hafter hpersistent _

theorem closed_giveUpWrite {write : Write} {link : Link} (on : s.links[write.link]? = some link)
    (hpersistent : link.persistent = false) :
    (s.giveUpWrite write).links[write.link]? = some (link.release .worker).close := by
  have hafter : (s.leaveLock write.link).links[write.link]? = some (link.release .worker) := by
    rw [leaveLock, Array.getElem?_modify, if_pos rfl, on, Option.map_some]
  exact closed_writeFailed hafter hpersistent _

end

end Station

end ModbusSlave
