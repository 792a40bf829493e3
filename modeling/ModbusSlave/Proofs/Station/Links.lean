import ModbusSlave.Proofs.Station.Neighbours

/-!
# What becomes of a link

Much of what is said of a link compares it with what it is later on. Such a relation survives
whatever happens to a station as soon as it survives the few things that are done to links: one end
sends or reads, the medium fails, the link is closed, its lock changes hands, it is shut down, or a
write takes a step on it.
-/
namespace ModbusSlave

/-- What the station does to a link apart from reading and writing leaves such a relation true. -/
structure Link.Holds (R : Link → Link → Prop) : Prop where
  refl (link : Link) : R link link
  trans {a b c : Link} : R a b → R b c → R a c
  closed (link : Link) (closed : Bool) : R link { link with closed := link.closed || closed }
  release (link : Link) (party : Party) : R link (link.release party)
  shutdown {stage : ShutdownStage} {party : Party} {link after : Link}
    {next : Option ShutdownStage} : stage.step? party link = some (after, next) → R link after

theorem Link.Holds.close {R : Link → Link → Prop} (h : Link.Holds R) (link : Link) :
    R link link.close := by
  have hclosed := h.closed link true
  rwa [Bool.or_true] at hclosed

/-- So does what happens at the two ends of a link, and the failure of its medium. -/
structure Link.Endures (R : Link → Link → Prop) : Prop where
  refl (link : Link) : R link link
  trans {a b c : Link} : R a b → R b c → R a c
  incoming (link : Link) (incoming : Pipe) : R link { link with incoming }
  collected {link : Link} {outgoing : Pipe} {count : Nat} {got : Except IoKind Bytes} :
    link.outgoing.read? count = some (got, outgoing) →
      R link { link with outgoing, received := link.received ++ Station.delivered got }
  deafened (link : Link) : R link { link with outgoing := link.outgoing.close }
  broken (link : Link) (kind : IoKind) : R link { link with
    incoming := { link.incoming with broken := some kind }
    outgoing := { link.outgoing with broken := some kind } }

/-- So does everything but a write. -/
structure Link.Lasts (R : Link → Link → Prop) : Prop extends Link.Holds R, Link.Endures R

/-- So does everything that neither the worker nor a write past the queue does. -/
structure Link.Outlasts (R : Link → Link → Prop) : Prop extends Link.Endures R where
  closed (link : Link) (closed : Bool) : R link { link with closed := link.closed || closed }
  shutdown {stage : ShutdownStage} {party : Party} {link after : Link}
    {next : Option ShutdownStage} : party ≠ .worker →
      stage.step? party link = some (after, next) → R link after

theorem Link.Lasts.outlasts {R : Link → Link → Prop} (h : Link.Lasts R) : Link.Outlasts R where
  toEndures := h.toEndures
  closed := h.closed
  shutdown _ := h.shutdown

/-- A link that has been closed is not opened again, and neither is a stream that has ended. -/
structure Link.Wanes (before after : Link) : Prop where
  closed : before.closed = true → after.closed = true
  ended : before.outgoing.closed = true → after.outgoing.closed = true

theorem wanes_of_shutdownStep {stage : ShutdownStage} {party : Party} {link after : Link}
    {next : Option ShutdownStage} (h : stage.step? party link = some (after, next)) :
    link.Wanes after := by
  unfold ShutdownStage.step? at h
  split at h
  · cases h
    exact ⟨fun _ => rfl, id⟩
  · split at h
    · cases h
      exact ⟨id, fun _ => rfl⟩
    · cases h

theorem wanes_of_writeStep {write : Write} {party : Party} {now : Nat} {link : Link}
    {step : WriteStep} (h : write.step? party now link = some step) : link.Wanes step.link := by
  unfold Write.step? at h
  split at h
  · split at h <;> cases h <;> exact ⟨id, id⟩
  · split at h
    · split at h <;> cases h <;> exact ⟨id, id⟩
    · cases h
  · split at h
    · cases h
      exact ⟨id, id⟩
    · cases h
  · cases h
    exact ⟨id, id⟩
  · split at h
    · cases h
    · cases h
      exact ⟨id, id⟩
    · next outgoing rest hwrite =>
      cases h
      obtain ⟨-, rfl, -⟩ := Pipe.write?_eq_ok hwrite
      exact ⟨id, id⟩

theorem Link.Wanes.lasts : Link.Lasts Link.Wanes where
  refl _ := ⟨id, id⟩
  trans h h' := ⟨h'.closed ∘ h.closed, h'.ended ∘ h.ended⟩
  closed link closed := by
    refine ⟨?_, id⟩
    intro hclosed
    dsimp only
    rw [hclosed, Bool.true_or]
  release _ _ := ⟨id, id⟩
  shutdown := wanes_of_shutdownStep
  incoming _ _ := ⟨id, id⟩
  collected hread := by
    refine ⟨id, ?_⟩
    intro hended
    rw [← hended]
    exact (Pipe.read?_eq_some hread).2
  deafened _ := ⟨id, fun _ => rfl⟩
  broken _ _ := ⟨id, id⟩

/-- The actions that close no link: they touch nothing of it but its two ends. -/
def Action.Quiet {σ ρ : Type} : Action σ ρ → Prop
  | .accept _ _ _ | .failAccept _ _ | .close _ | .step _ => False
  | _ => True

namespace Station

variable {σ ρ : Type} {R : Link → Link → Prop} {i : Nat} {s t : Station σ ρ}

theorem becomes_writeFailed (h : Link.Holds R) (s : Station σ ρ) (k : Nat) (fault : WriteFault) :
    s.Becomes i R (s.writeFailed k fault) := by
  unfold writeFailed
  dsimp only
  split
  · exact becomes_of_eq h.refl rfl
  · exact becomes_modifyLink h.refl (s.note _) fun link => h.close link

/-- The worker, whose writes are told apart. -/
theorem becomes_of_move (h : Link.Holds R) (hmove : s.WorkerMove t)
    (hwrite : ∀ {write : Write} {deadline : Nat} {link : Link} {step : WriteStep},
      s.worker.job = .writing write deadline → write.step? .worker s.now link = some step →
        R link step.link) : s.Becomes i R t := by
  have same : ∀ {u v : Station σ ρ}, v.links = u.links → u.Becomes i R v := becomes_of_eq h.refl
  have hleave : ∀ k, s.Becomes i R (s.leaveLock k) := by
    intro k
    exact becomes_modifyLink h.refl s fun link => h.release link .worker
  have hfails : ∀ {u : Station σ ρ} {k : Nat} {fault : WriteFault}, s.Becomes i R u →
      s.Becomes i R ((u.writeFailed k fault).setJob .idle) := by
    intro u k fault hu
    have hfailed := hu.trans (R := R) h.trans (becomes_writeFailed h u k fault)
    exact hfailed.trans h.trans (same rfl)
  cases hmove with
  | take idle waiting taken => exact same (frame_of_takeMessage? taken).1
  | @write write deadline link step job known hstep =>
    have hset : s.Becomes i R ((s.setLink write.link step.link).note step.events) :=
      (becomes_setLink h.refl known (hwrite job hstep)).trans h.trans (same rfl)
    unfold afterWrite
    split
    · exact hset.trans h.trans (same rfl)
    · exact hset.trans h.trans (same rfl)
    · exact hfails hset
  | giveUpWrite job => exact hfails (hleave _)
  | @release k deadline stage link after next job known hstep =>
    have hset := becomes_setLink (i := i) h.refl known (h.shutdown hstep)
    cases next with
    | none => exact hset.trans h.trans (same rfl)
    | some stage => exact hset.trans h.trans (same rfl)
  | giveUpRelease job => exact (hleave _).trans h.trans (same rfl)

theorem becomes_leave (h : Link.Endures R) (s : Station σ ρ) (k : Nat) (session : Session)
    (fault : RequestFault) : s.Becomes i R (s.leave k session fault) := by
  unfold leave
  split
  · have hclose : s.Becomes i R (s.modifyLink session.link fun l =>
        { l with incoming := l.incoming.close }) :=
      becomes_modifyLink h.refl s fun link => h.incoming link _
    exact hclose.trans h.trans (becomes_of_eq h.refl rfl)
  · exact becomes_of_eq h.refl rfl
  · dsimp only
    split
    · exact becomes_of_eq h.refl rfl
    · exact becomes_of_eq h.refl (links_enqueue (s.note _) _)

theorem becomes_carryOut (h : Link.Endures R) (s : Station σ ρ) (k : Nat)
    (step : Session × Demand × List Event) : s.Becomes i R (s.carryOut k step) := by
  obtain ⟨session, demand, events⟩ := step
  cases demand with
  | nothing => exact becomes_of_eq h.refl rfl
  | leave fault => exact becomes_leave h (s.note events) k session fault
  | submit frame =>
    simp only [carryOut]
    split
    · exact becomes_leave h (s.note events) k session .shutdown
    · exact becomes_of_eq h.refl (links_enqueue (s.note events) _)

theorem becomes_sessionStep? (h : Link.Endures R) {k : Nat} (hstep : s.sessionStep? k = some t)
    (hdeparts : ∀ {session : Session} {fault : RequestFault} {stage : ShutdownStage}
      {link after : Link} {next : Option ShutdownStage}, s.sessions[k]? = some session →
        session.phase = .departing fault stage → session.link = i →
          s.links[session.link]? = some link →
            stage.step? (.session k) link = some (after, next) → R link after) :
    s.Becomes i R t := by
  cases hk : s.sessions[k]? with
  | none => simp [sessionStep?, hk] at hstep
  | some session =>
    cases hp : session.phase with
    | parsing level =>
      simp only [sessionStep?, hk, hp, Option.bind_eq_bind, Option.bind_some,
        Option.some.injEq] at hstep
      subst hstep
      exact becomes_carryOut h s k _
    | reading level =>
      simp only [sessionStep?, hk, hp, Option.bind_eq_bind, Option.bind_some,
        Option.bind_eq_some_iff, Option.some.injEq] at hstep
      obtain ⟨link, hlink, ⟨got, incoming⟩, -, rfl⟩ := hstep
      have hset : s.Becomes i R (s.setLink session.link { link with incoming }) :=
        becomes_setLink h.refl hlink (h.incoming link incoming)
      exact hset.trans h.trans (becomes_carryOut h _ k _)
    | departing fault stage =>
      simp only [sessionStep?, hk, hp, Option.bind_eq_bind, Option.bind_some,
        Option.bind_eq_some_iff, Option.some.injEq] at hstep
      obtain ⟨link, hlink, ⟨after, next⟩, hshut, rfl⟩ := hstep
      have hset : s.Becomes i R (s.setLink session.link after) := by
        by_cases hi : session.link = i
        · exact becomes_setLink h.refl hlink (hdeparts hk hp hi hlink hshut)
        · intro before hbefore
          exact ⟨before, by rw [links_setLink_of_ne s after hi, hbefore], h.refl before⟩
      exact hset.trans h.trans (becomes_of_eq h.refl rfl)
    | «over» fault => simp [sessionStep?, hk, hp] at hstep

theorem becomes_sessionStop? (h : Link.Endures R) {k : Nat} (hstop : s.sessionStop? k = some t) :
    s.Becomes i R t := by
  simp only [sessionStop?, Option.bind_eq_bind, Option.bind_eq_some_iff,
    Option.ite_none_right_eq_some, Option.some.injEq] at hstop
  obtain ⟨session, -, -, rfl⟩ := hstop
  exact becomes_leave h s k session .shutdown

/-- The shutdown closes links and ends streams. -/
theorem becomes_of_closingMove (h : Link.Outlasts R) (hmove : s.ClosingMove t) :
    s.Becomes i R t := by
  have same : ∀ {u v : Station σ ρ}, v.links = u.links → u.Becomes i R v := becomes_of_eq h.refl
  cases hmove with
  | cancels => exact (frame_of_cancelListener (j := 0) s _).2.becomes h.closed
  | @closes port rest =>
    have hclose : s.Becomes i R (s.closeLink port.link) :=
      (leaves_closeLink (j := 0) s port.link).becomes h.closed
    exact hclose.trans h.trans (same rfl)
  | @shutting port rest stage next link after closing known hstep =>
    have hset : s.Becomes i R (s.setLink port.link after) :=
      becomes_setLink h.refl known (h.shutdown (by simp) hstep)
    exact hset.trans h.trans (same rfl)
  | @shut port rest stage link after closing known hstep =>
    have hset : s.Becomes i R
        (s.setLink port.link { after with incoming := after.incoming.close }) :=
      becomes_setLink h.refl known (h.trans (h.shutdown (by simp) hstep) (h.incoming after _))
    exact hset.trans h.trans (same rfl)
  | stops => exact same (links_enqueue s .stop)
  | _ => exact same rfl

theorem becomes_attach (hR : ∀ link, R link link) (s : Station σ ρ) (brought : Link)
    (parser : Parser) (policy : FaultPolicy) (role : Role) :
    s.Becomes i R (s.attach brought parser policy role) := by
  intro link on
  obtain ⟨hi, -⟩ := Array.getElem?_eq_some_iff.mp on
  refine ⟨link, ?_, hR link⟩
  rw [attach, Array.getElem?_push_lt hi, ← on, Array.getElem?_eq_getElem hi]

theorem becomes_quiet (h : Link.Endures R) (s : Station σ ρ) {a : Action σ ρ} (ha : a.Quiet) :
    s.Becomes i R (s.act a) := by
  cases a with
  | arrive k bytes =>
    rcases s.act_arrive k bytes with hact | ⟨link, incoming, rest, hlink, -, hact⟩
    · rw [hact]
      exact becomes_of_eq h.refl rfl
    · rw [hact]
      exact becomes_setLink h.refl hlink (h.incoming link incoming)
  | collect k count =>
    rcases s.act_collect k count with hact | ⟨link, outgoing, got, hlink, hread, hact⟩
    · rw [hact]
      exact becomes_of_eq h.refl rfl
    · rw [hact]
      exact becomes_setLink h.refl hlink (h.collected hread)
  | finish k => exact becomes_modifyLink h.refl s fun link => h.incoming link _
  | deafen k => exact becomes_modifyLink h.refl s h.deafened
  | breakDown k kind => exact becomes_modifyLink h.refl s fun link => h.broken link kind
  | attach brought parser policy => exact becomes_attach h.refl s brought parser policy _
  | addPort name brought =>
    simp only [act, addPort]
    split
    · exact becomes_attach h.refl { s.note _ with ports := _ } _ _ _ _
    · exact becomes_of_eq h.refl rfl
  | listen address =>
    simp only [act, listen]
    split <;> exact becomes_of_eq h.refl rfl
  | submit message => exact becomes_of_eq h.refl (links_enqueue s message)
  | call run =>
    simp only [act, call]
    split
    · exact becomes_of_eq h.refl rfl
    · exact becomes_of_eq h.refl (links_enqueue s _)
  | shutDown =>
    simp only [act, shutDown]
    split <;> exact becomes_of_eq h.refl rfl
  | sessionStop k =>
    simp only [act]
    cases hstop : s.sessionStop? k with
    | none => exact becomes_of_eq h.refl rfl
    | some t => exact becomes_sessionStop? h hstop
  | write k bytes level => exact becomes_of_eq h.refl rfl
  | setLevel level => exact becomes_of_eq h.refl rfl
  | tick => exact becomes_of_eq h.refl rfl
  | _ => exact ha.elim

/-- Any action, where the worker and those who write past the queue are told apart. -/
theorem becomes_act (h : Link.Outlasts R) (s : Station σ ρ) {a : Action σ ρ}
    (hworker : a = .step .worker → s.Becomes i R (s.act a))
    (hwriter : ∀ k, a = .step (.writer k) → s.Becomes i R (s.act a)) :
    s.Becomes i R (s.act a) := by
  have same : s.Becomes i R s := becomes_of_eq h.refl rfl
  have aloof (ha : a.Aloof) : s.Becomes i R (s.act a) :=
    (leaves_of_aloof (j := 0) s ha).becomes h.closed
  cases a with
  | accept k peer link => exact aloof trivial
  | failAccept k kind => exact aloof trivial
  | close k => exact aloof trivial
  | step part =>
    cases part with
    | worker => exact hworker rfl
    | writer k => exact hwriter k rfl
    | session k =>
      simp only [act, partStep?]
      cases hstep : s.sessionStep? k with
      | none => exact same
      | some t =>
        exact becomes_sessionStep? h.toEndures hstep fun _ _ _ _ => h.shutdown (by simp)
    | listener k => exact aloof trivial
    | closing =>
      rcases s.act_closing with hsame | hmove
      · rw [hsame]
        exact same
      · exact becomes_of_closingMove h hmove
  | _ => exact becomes_quiet h.toEndures s trivial

theorem becomes_writer (s : Station σ ρ) (hR : ∀ link, R link link) (k : Nat)
    (hwrite : ∀ {write : Write} {link : Link} {step : WriteStep},
      write.step? (.writer k) s.now link = some step → R link step.link) :
    s.Becomes i R (s.act (.step (.writer k))) := by
  simp only [act, partStep?]
  cases hstep : s.writerStep? k with
  | none => exact becomes_of_eq hR rfl
  | some t =>
    simp only [writerStep?, Option.bind_eq_bind, Option.bind_eq_some_iff] at hstep
    obtain ⟨writer, -, hstep⟩ := hstep
    split at hstep
    · cases hstep
    · simp only [Option.bind_eq_some_iff, Option.some.injEq] at hstep
      obtain ⟨link, hlink, step, hstep?, rfl⟩ := hstep
      exact becomes_setLink (s := s) hR hlink (hwrite hstep?)

theorem becomes_act_of_writes (h : Link.Lasts R)
    (hwrite : ∀ {write : Write} {party : Party} {now : Nat} {link : Link} {step : WriteStep},
      write.step? party now link = some step → R link step.link)
    (s : Station σ ρ) (a : Action σ ρ) : s.Becomes i R (s.act a) := by
  have same : s.Becomes i R s := becomes_of_eq h.refl rfl
  apply s.becomes_act h.outlasts
  · rintro rfl
    obtain ⟨-, hsame⟩ | hmove := s.act_worker
    · rwa [hsame]
    · exact becomes_of_move h.toHolds hmove fun _ => hwrite
  · rintro k rfl
    exact s.becomes_writer h.refl k hwrite

theorem wanes_act (s : Station σ ρ) (a : Action σ ρ) : s.Becomes i Link.Wanes (s.act a) :=
  becomes_act_of_writes Link.Wanes.lasts wanes_of_writeStep s a

theorem wanes_run (s : Station σ ρ) (actions : List (Action σ ρ)) :
    s.Becomes i Link.Wanes (s.run actions) := by
  induction actions generalizing s with
  | nil => exact becomes_of_eq Link.Wanes.lasts.refl rfl
  | cons a rest ih => exact (s.wanes_act a).trans Link.Wanes.lasts.trans (ih (s.act a))

/-- Closed links stay closed. -/
theorem isClosed_act {a : Action σ ρ} (hi : i < s.links.size) (h : s.isClosed i = true) :
    (s.act a).isClosed i = true := by
  have on : s.links[i]? = some s.links[i] := Array.getElem?_eq_getElem hi
  obtain ⟨after, hafter, hwanes⟩ := s.wanes_act a _ on
  rw [isClosed, on] at h
  rw [isClosed, hafter]
  exact hwanes.closed h

theorem lt_of_isClosed (h : s.isClosed i = false) : i < s.links.size := by
  by_cases hi : i < s.links.size
  · exact hi
  · rw [isClosed, Array.getElem?_eq_none (Nat.le_of_not_lt hi)] at h
    cases h

end Station

end ModbusSlave
