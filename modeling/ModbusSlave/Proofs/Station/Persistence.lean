import ModbusSlave.Proofs.Station.Locks
import ModbusSlave.Proofs.Station.Stages

/-!
# Persistent links

Whether a failed write closes a link, and what silence it asks for, is settled when the link is
brought. What a listener accepts is never persistent, so neither the limit of sessions nor the end
of a session closes a persistent link; only a close, a release or the shutdown does.
-/
namespace ModbusSlave

structure Link.SameKind (before after : Link) : Prop where
  persistent : after.persistent = before.persistent
  silence : after.silence = before.silence

theorem sameKind_of_shutdownStep {stage : ShutdownStage} {party : Party} {link after : Link}
    {next : Option ShutdownStage} (h : stage.step? party link = some (after, next)) :
    link.SameKind after := by
  unfold ShutdownStage.step? at h
  split at h
  · cases h
    exact ⟨rfl, rfl⟩
  · split at h
    · cases h
      exact ⟨rfl, rfl⟩
    · cases h

theorem sameKind_of_writeStep {write : Write} {party : Party} {now : Nat} {link : Link}
    {step : WriteStep} (h : write.step? party now link = some step) : link.SameKind step.link := by
  refine ⟨(frame_of_writeStep h).2.1, ?_⟩
  obtain ⟨i, bytes, level, stage⟩ := write
  cases stage with
  | entering =>
    simp only [Write.step?] at h
    split at h <;> cases h <;> rfl
  | locking =>
    simp only [Write.step?, Option.ite_none_right_eq_some] at h
    obtain ⟨-, h⟩ := h
    split at h <;> cases h <;> rfl
  | silent tick =>
    simp only [Write.step?, Option.ite_none_right_eq_some, Option.some.injEq] at h
    obtain ⟨-, rfl⟩ := h
    rfl
  | pushing rest =>
    cases rest with
    | nil =>
      cases h
      rfl
    | cons b rest =>
      simp only [Write.step?] at h
      split at h <;> cases h <;> rfl

theorem Link.SameKind.lasts : Link.Lasts Link.SameKind where
  refl _ := ⟨rfl, rfl⟩
  trans h h' := ⟨h'.persistent.trans h.persistent, h'.silence.trans h.silence⟩
  closed _ _ := ⟨rfl, rfl⟩
  release _ _ := ⟨rfl, rfl⟩
  shutdown := sameKind_of_shutdownStep
  incoming _ _ := ⟨rfl, rfl⟩
  collected _ := ⟨rfl, rfl⟩
  deafened _ := ⟨rfl, rfl⟩
  broken _ _ := ⟨rfl, rfl⟩

/-- The link is as open as it has been before. -/
def Link.SameEnd (before after : Link) : Prop := after.closed = before.closed

theorem Link.SameEnd.endures : Link.Endures Link.SameEnd where
  refl _ := rfl
  trans h h' := h'.trans h
  incoming _ _ := rfl
  collected _ := rfl
  deafened _ := rfl
  broken _ _ := rfl

namespace Station

variable {σ ρ : Type} {s t : Station σ ρ} {a : Action σ ρ} {i : Nat} {link : Link}

theorem sameKind_act (s : Station σ ρ) (a : Action σ ρ) :
    s.Becomes i Link.SameKind (s.act a) :=
  becomes_act_of_writes Link.SameKind.lasts sameKind_of_writeStep s a

theorem sameKind_run (s : Station σ ρ) (actions : List (Action σ ρ)) :
    s.Becomes i Link.SameKind (s.run actions) := by
  induction actions generalizing s with
  | nil => exact becomes_of_eq Link.SameKind.lasts.refl rfl
  | cons a rest ih => exact (s.sameKind_act a).trans Link.SameKind.lasts.trans (ih (s.act a))

/-- No listener has accepted a persistent link. -/
def Fleeting (s : Station σ ρ) : Prop :=
  ∀ (n : Nat) (session : Session), s.sessions[n]? = some session → session.isAccepted = true →
    ∀ link, s.links[session.link]? = some link → link.persistent = false

theorem persistent_accept {k : Nat} {peer : String} {brought : Link}
    (hfresh : s.links.size < (s.accept k peer brought).links.size)
    (on : (s.accept k peer brought).links[s.links.size]? = some link) :
    link.persistent = brought.persistent := by
  rcases frame_of_accept (i := 0) (j := 0) s k peer brought with
    ⟨hsame, -⟩ | ⟨u, cancelled, id, hsame, -, haccept⟩
  · rw [hsame] at hfresh
    exact absurd hfresh (Nat.lt_irrefl _)
  · rw [haccept, attach, ← hsame.links, Array.getElem?_push_size, Option.some.injEq] at on
    rw [← on]

theorem fleeting_act (h : s.Fleeting) (hseated : s.Seated)
    (ha : ∀ k peer link, a = .accept k peer link → link.persistent = false) :
    (s.act a).Fleeting := by
  intro n session known accepted link on
  have hold {before : Session} (hbefore : s.sessions[n]? = some before)
      (hlink : before.link = session.link) (haccepted : before.isAccepted = true) :
      link.persistent = false := by
    have hi := hseated n before hbefore
    obtain ⟨after, hafter, hsame⟩ := s.sameKind_act a _ (Array.getElem?_eq_getElem hi)
    rw [hlink, on, Option.some.injEq] at hafter
    rw [hafter, hsame.persistent]
    exact h n before hbefore haccepted _ (Array.getElem?_eq_getElem hi)
  rcases seats_cases (s.seats_act a) with hseats | ⟨new, hlink, hfresh, hrole, hsessions⟩
  · obtain ⟨before, hbefore, hlink, hrole⟩ := session_of_seats hseats known
    refine hold hbefore hlink ?_
    rw [Session.isAccepted, hrole]
    exact accepted
  · rw [hsessions, Array.getElem?_push] at known
    split at known
    · cases known
      obtain ⟨listener, id, haccepted⟩ := Session.isAccepted_iff.mp accepted
      obtain ⟨peer, brought, rfl⟩ := hrole listener id haccepted
      rw [hlink] at on
      exact (persistent_accept hfresh on).trans (ha _ _ _ rfl)
    · exact hold known rfl accepted

theorem fleeting_run {actions : List (Action σ ρ)} (h : s.Fleeting) (hseated : s.Seated)
    (hactions : ∀ k peer link, .accept k peer link ∈ actions → link.persistent = false) :
    (s.run actions).Fleeting := by
  induction actions generalizing s with
  | nil => exact h
  | cons a rest ih =>
    apply ih (fleeting_act h hseated ?_) (seated_act hseated a)
    · intro k peer link hmem
      exact hactions k peer link (List.mem_cons_of_mem a hmem)
    · rintro k peer link rfl
      exact hactions k peer link List.mem_cons_self

theorem fleeting_ofSettings (settings : ServerSettings) :
    (ofSettings settings : Station σ ρ).Fleeting := by
  intro n session known
  simp [ofSettings] at known

theorem Fleeting.of_admitted (h : s.Fleeting) {k : Nat} {entry : Nat × Nat}
    (hentry : entry ∈ s.admitted k) (on : s.links[entry.2]? = some link) :
    link.persistent = false := by
  obtain ⟨n, session, known, hrole, hlink⟩ := mem_admitted hentry
  rw [← hlink] at on
  exact h n session known (Session.isAccepted_iff.mpr ⟨_, _, hrole⟩) link on

/-- Why a link has been closed that a failed write does not close: somebody has closed it, the
worker has come to its release, or the station is shutting down. -/
inductive Shuts (i : Nat) (s : Station σ ρ) : Action σ ρ → Prop
  | close : Shuts i s (.close i)
  | release {deadline : Nat} (job : s.worker.job = .releasing i .entering deadline) :
      Shuts i s (.step .worker)
  | shutdown (closing : s.isOpen = false) : Shuts i s (.step .closing)

theorem isClosed_of_becomes (on : s.links[i]? = some link) (h : s.Becomes i Link.SameEnd t) :
    t.isClosed i = s.isClosed i := by
  obtain ⟨after, hafter, hsame⟩ := h link on
  rw [isClosed, isClosed, hafter, on]
  exact hsame

theorem links_writeFailed_of_persistent (on : s.links[i]? = some link)
    (hpersistent : link.persistent = true) (fault : WriteFault) :
    (s.writeFailed i fault).links = s.links := by
  rw [writeFailed, on, Option.map_some, Option.getD_some, hpersistent]
  rfl

/-- The worker closes a persistent link only when it comes to its release. -/
theorem isClosed_of_move (on : s.links[i]? = some link) (hpersistent : link.persistent = true)
    (hrelease : ∀ deadline, s.worker.job ≠ .releasing i .entering deadline)
    (hmove : s.WorkerMove t) : t.isClosed i = s.isClosed i := by
  by_cases hlink : s.worker.job.link? = some i
  · have hset {after : Link} (hsame : after.closed = link.closed) :
        (s.setLink i after).isClosed i = s.isClosed i :=
      isClosed_of_becomes on (becomes_setLink (R := Link.SameEnd) (fun _ => rfl) on hsame)
    have hleave : (s.leaveLock i).isClosed i = s.isClosed i :=
      isClosed_of_becomes on
        (becomes_modifyLink (R := Link.SameEnd) (fun _ => rfl) s fun _ => rfl)
    cases hmove with
    | take idle =>
      rw [idle] at hlink
      cases hlink
    | @write write deadline before step job known hstep =>
      rw [job] at hlink
      obtain rfl := Option.some.inj hlink
      obtain rfl := Option.some.inj (on.symm.trans known)
      obtain ⟨hclosed, hkind, -⟩ := frame_of_writeStep hstep
      have hafter : ((s.setLink write.link step.link).note step.events).links[write.link]? =
          some step.link := links_setLink_self step.link on
      unfold afterWrite
      split
      · exact hset hclosed
      · exact hset hclosed
      · rw [← hset hclosed]
        exact isClosed_congr (congrArg (·[write.link]?)
          (links_writeFailed_of_persistent hafter (hkind.trans hpersistent) _))
    | @giveUpWrite write deadline job =>
      rw [job] at hlink
      obtain rfl := Option.some.inj hlink
      have hafter : (s.leaveLock write.link).links[write.link]? = some (link.release .worker) := by
        rw [leaveLock, Array.getElem?_modify, if_pos rfl, on, Option.map_some]
      rw [← hleave]
      exact isClosed_congr (congrArg (·[write.link]?)
        (links_writeFailed_of_persistent hafter hpersistent _))
    | @release k deadline stage before after next job known hstep =>
      rw [job] at hlink
      obtain rfl := Option.some.inj hlink
      obtain rfl := Option.some.inj (on.symm.trans known)
      cases stage with
      | entering => exact absurd job (hrelease deadline)
      | locking =>
        simp only [ShutdownStage.step?, Option.ite_none_right_eq_some, Option.some.injEq,
          Prod.mk.injEq] at hstep
        obtain ⟨-, rfl, rfl⟩ := hstep
        exact hset rfl
    | @giveUpRelease k deadline stage job =>
      rw [job] at hlink
      obtain rfl := Option.some.inj hlink
      exact hleave
  · exact isClosed_congr (links_of_move hmove hlink)

theorem isClosed_accept_of_persistent (hhosted : s.Hosted) (hfleeting : s.Fleeting)
    (on : s.links[i]? = some link) (hpersistent : link.persistent = true)
    (hopen : s.isClosed i = false) (k : Nat) (peer : String) (brought : Link) :
    (s.accept k peer brought).isClosed i = false := by
  by_cases hhost : ∃ host, s.listeners[k]? = some host ∧ host.running = true
  · obtain ⟨host, hhost, hrunning⟩ := hhost
    rw [← Bool.not_eq_true, isClosed_accept hhost hrunning peer brought (lt_of_isClosed hopen)]
    rintro (hclosed | hgone)
    · rw [hopen] at hclosed
      cases hclosed
    · obtain ⟨entry, hentry, rfl⟩ := List.mem_map.mp hgone
      rw [(hhosted.known k host hhost).gone] at hentry
      have hadmitted := (Tracker.mem_alive.mp (List.mem_of_mem_take hentry)).1
      rw [hfleeting.of_admitted hadmitted on] at hpersistent
      cases hpersistent
  · rw [accept_of_still, hopen]
    intro listener hlistener
    exact (Bool.not_eq_true _).mp fun hrunning => hhost ⟨listener, hlistener, hrunning⟩

theorem isClosed_of_halts {k : Nat} (hhosted : s.Hosted) (hfleeting : s.Fleeting)
    (on : s.links[i]? = some link) (hpersistent : link.persistent = true)
    (hopen : s.isClosed i = false) (hhalts : s.Halts k t) : t.isClosed i = false := by
  obtain @⟨listener, events, hlistener, -⟩ := hhalts
  have hclosed := isClosed_foldl (·.2) (fun s (x : Nat × Nat) => s.closeLink x.2)
    (fun _ _ => rfl) (s.note events) listener.tracker.sessions i
  refine (Bool.not_eq_true _).mp fun hafter => ?_
  rcases hclosed.mp hafter with hbefore | htold
  · rw [show (s.note _).isClosed i = s.isClosed i from rfl, hopen] at hbefore
    cases hbefore
  · obtain ⟨entry, hentry, rfl⟩ := List.mem_map.mp htold
    have hadmitted := (hhosted.known k listener hlistener).given entry hentry
    rw [hfleeting.of_admitted hadmitted on] at hpersistent
    cases hpersistent

theorem isClosed_of_sessionStep? {k : Nat} (hcleared : s.Cleared) (hfleeting : s.Fleeting)
    (on : s.links[i]? = some link) (hpersistent : link.persistent = true)
    (hstep : s.sessionStep? k = some t) : t.isClosed i = s.isClosed i := by
  refine isClosed_of_becomes on (becomes_sessionStep? Link.SameEnd.endures hstep ?_)
  intro session fault stage before after next known hphase hi hbefore _
  have hrole := (hcleared k session known).departing fault stage hphase
  have haccepted := Session.isAccepted_iff.mpr hrole
  subst hi
  rw [hfleeting k session known haccepted link on] at hpersistent
  cases hpersistent

/-- Whatever else happens, a persistent link that is open stays open. -/
theorem open_act (hhosted : s.Hosted) (hcleared : s.Cleared) (hfleeting : s.Fleeting)
    (on : s.links[i]? = some link) (hpersistent : link.persistent = true)
    (hopen : s.isClosed i = false) (hshuts : ¬ s.Shuts i a) : (s.act a).isClosed i = false := by
  cases a with
  | accept k peer brought =>
    exact isClosed_accept_of_persistent hhosted hfleeting on hpersistent hopen k peer brought
  | failAccept k kind =>
    rcases s.act_failAccept k kind with hsame | hhalts
    · rwa [hsame]
    · exact isClosed_of_halts hhosted hfleeting on hpersistent hopen hhalts
  | close k =>
    by_cases hk : k = i
    · rw [hk] at hshuts
      exact absurd .close hshuts
    · exact (isClosed_congr (links_closeLink_of_ne s hk)).trans hopen
  | step part =>
    cases part with
    | session k =>
      simp only [act, partStep?]
      cases hstep : s.sessionStep? k with
      | none => exact hopen
      | some t =>
        exact (isClosed_of_sessionStep? hcleared hfleeting on hpersistent hstep).trans hopen
    | writer k =>
      have hbecomes : s.Becomes i Link.SameEnd (s.act (.step (.writer k))) :=
        s.becomes_writer Link.SameEnd.endures.refl k fun h => (frame_of_writeStep h).1
      exact (isClosed_of_becomes on hbecomes).trans hopen
    | listener k =>
      rcases s.act_listener k with hsame | hhalts
      · rwa [hsame]
      · exact isClosed_of_halts hhosted hfleeting on hpersistent hopen hhalts
    | closing =>
      cases hclosing : s.isOpen with
      | false => exact absurd (.shutdown hclosing) hshuts
      | true =>
        have hstill : s.act (.step .closing) = s := by
          simp only [act, partStep?, closingStep?, of_decide_eq_true hclosing, Option.getD_none]
        rwa [hstill]
    | worker =>
      obtain ⟨-, hsame⟩ | hmove := s.act_worker
      · rwa [hsame]
      · refine (isClosed_of_move on hpersistent ?_ hmove).trans hopen
        intro deadline job
        exact hshuts (.release job)
  | _ =>
    refine (isClosed_of_becomes on ?_).trans hopen
    exact becomes_quiet Link.SameEnd.endures s trivial

end Station

end ModbusSlave
