import ModbusSlave.Proofs.Station.Delivery

/-!
# The turns of a session

A session whose stream has come to its end leaves after so many turns of its own, whatever happens
between them: each turn hands a frame over, reads a byte at least, or finds that it has to read.
-/
namespace ModbusSlave

def Action.isTurn {σ ρ : Type} (j : Nat) : Action σ ρ → Bool
  | .step (.session k) => k = j
  | _ => false

/-- A parse may come before the next read. -/
def SessionPhase.weight : SessionPhase → Nat
  | .parsing _ => 1
  | _ => 0

/-- Behind some frames, the stream goes on with a header that makes no sense. -/
def Mbap.Rejects (stream : Bytes) : Prop :=
  ∃ frames rest fault behind, Consumes frames stream rest ∧
    first? rest = some (.error fault, behind)

theorem Mbap.Consumes.not_rejects {frames : List Frame} {stream waiting : Bytes}
    (h : Consumes frames stream waiting) (hwaits : first? waiting = none) : ¬ Rejects stream := by
  induction frames generalizing stream with
  | nil =>
    cases h
    rintro ⟨others, rest, fault, behind, hothers, hfault⟩
    cases others with
    | nil =>
      cases hothers
      rw [hwaits] at hfault
      cases hfault
    | cons other others =>
      obtain ⟨next, hnext, -⟩ := hothers
      rw [hwaits] at hnext
      cases hnext
  | cons frame frames ih =>
    obtain ⟨next, hnext, hframes⟩ := h
    rintro ⟨others, rest, fault, behind, hothers, hfault⟩
    cases others with
    | nil =>
      cases hothers
      rw [hnext] at hfault
      cases hfault
    | cons other others =>
      obtain ⟨next', hnext', hothers⟩ := hothers
      rw [hnext] at hnext'
      cases hnext'
      exact ih hframes ⟨others, rest, fault, behind, hothers, hfault⟩

namespace Station

variable {σ ρ : Type}

/-- The session `j` reads its link. -/
def Live (j : Nat) (s : Station σ ρ) : Prop :=
  ∃ session, s.sessions[j]? = some session ∧ session.fault? = none

/-- Nothing will come on the link `i` behind `arrived` that could be a request. -/
def Finished (i : Nat) (s : Station σ ρ) (arrived : Bytes) : Prop :=
  (∃ link, s.links[i]? = some link ∧ link.incoming.closed = true) ∨ Mbap.Rejects arrived

/-- How many turns of the session `j` are left that hand no frame over. -/
def work (i j : Nat) (s : Station σ ρ) : Nat :=
  match s.links[i]?, s.sessions[j]? with
  | some link, some session => 2 * link.incoming.content.length + session.phase.weight
  | _, _ => 0

variable {i j : Nat} {s : Station σ ρ} {arrived : Bytes} {said : List (Message σ ρ)}

theorem work_eq {session : Session} {link : Link} (known : s.sessions[j]? = some session)
    (on : s.links[i]? = some link) :
    s.work i j = 2 * link.incoming.content.length + session.phase.weight := by
  simp only [work, on, known]

theorem live_of_act {a : Action σ ρ} (hintake : s.Intake i j arrived said)
    (hlive : (s.act a).Live j) : s.Live j := by
  obtain ⟨session, known, -⟩ := hintake.owner
  cases hfault : session.fault? with
  | none => exact ⟨session, known, hfault⟩
  | some fault =>
    obtain ⟨phase, hgone, hafter⟩ := fault?_act (a := a) known hfault
    obtain ⟨session', hsession', hnone⟩ := hlive
    obtain rfl := Option.some.inj (hafter.symm.trans hsession')
    rw [hnone] at hgone
    cases hgone

theorem finished_act {a : Action σ ρ} (h : s.Finished i arrived)
    (hintake : s.Intake i j arrived said) (hapart : s.Apart i j) (ha : a.Spares i)
    (hlive : s.Live j) : (s.act a).Finished i arrived := by
  rcases h with ⟨link, on, hclosed⟩ | hrejects
  · left
    by_cases hworker : a = .step .worker
    · subst hworker
      obtain ⟨-, hsame⟩ | hmove := s.act_worker
      · rw [hsame]
        exact ⟨link, on, hclosed⟩
      · obtain ⟨after, hafter, hfollows⟩ := follows_of_move hmove link on
        exact ⟨after, hafter, hfollows.finished hclosed⟩
    · obtain ⟨session, known, owns⟩ := hintake.owner
      obtain ⟨session', known', hnone⟩ := hlive
      obtain rfl := Option.some.inj (known.symm.trans known')
      have hdeparts : ∀ fault stage, session.phase ≠ .departing fault stage := by
        intro fault stage hphase
        simp [Session.fault?, hphase] at hnone
      obtain ⟨after, hafter, hstays⟩ :=
        stays_act hapart ha known owns hworker (fun _ => hdeparts) link on
      exact ⟨after, hafter, hstays.finished hclosed⟩
  · exact .inr hrejects

theorem not_live_of_fault? {t : Station σ ρ} {session : Session} {fault : RequestFault}
    (known : t.sessions[j]? = some session) (hfault : session.fault? = some fault) :
    ¬ t.Live j := by
  rintro ⟨session', known', hnone⟩
  obtain rfl := Option.some.inj (known.symm.trans known')
  rw [hnone] at hfault
  cases hfault

theorem not_live_leave {u : Station σ ρ} {before after : Session} (fault : RequestFault)
    (owns : after.Owns i) (known : u.sessions[j]? = some before) :
    ¬ (u.leave j after fault).Live j := by
  obtain ⟨-, -, listener, id, hrole⟩ := owns
  simp only [leave, hrole]
  split
  · exact not_live_of_fault? (sessions_setSession (s := u.note _) _ known) rfl
  · have hknown : ((u.note [.sessionEnded id fault]).enqueue
        (.release after.link)).sessions[j]? = some before := by
      rw [sessions_enqueue]
      exact known
    exact not_live_of_fault? (sessions_setSession _ hknown) rfl

/-- A turn after which the session still reads has handed a frame over or has left less to do. -/
theorem work_turn (h : s.Intake i j arrived said) (hend : s.Finished i arrived) (hs : s.Live j)
    (hlive : (s.act (.step (.session j))).Live j) :
    (s.act (.step (.session j))).work i j + 1 ≤
      s.work i j + (s.spoken i (.step (.session j))).length := by
  cases h with
  | gone known on owns fault?_eq => exact absurd hs (not_live_of_fault? known fault?_eq)
  | @live session link frames waiting known on owns sound phase awaits consumes said_eq =>
    have hset : ∀ after : Link, (s.setLink i after).links[i]? = some after :=
      fun after => links_setLink_self after on
    have hturn := turn_of_live known on owns sound phase awaits
    rw [work_eq known on]
    generalize hact : s.act (.step (.session j)) = t at hturn hlive ⊢
    cases hturn with
    | @frame after level frame left events before owns phase awaits first =>
      rw [spoken_of_carryOut hact rfl owns]
      simp only [carryOut] at hlive ⊢
      split at hlive
      · exact absurd hlive (not_live_leave (u := s.note events) .shutdown owns known)
      · next hruns =>
        have hon : ((s.note events).enqueue (.request after.link frame)).links[i]? = some link := by
          rw [links_enqueue]
          exact on
        have hknown : ((s.note events).enqueue (.request after.link frame)).sessions[j]? =
            some session := by
          rw [sessions_enqueue]
          exact known
        have hstopped : s.stopped = false := (Bool.not_eq_true _).mp hruns
        have hwork := work_eq (sessions_setSession after hknown) hon
        rw [if_neg hruns, hwork, before, phase, hstopped, if_neg Bool.false_ne_true]
        simp only [SessionPhase.weight, Demand.messages, List.length_singleton]
        omega
    | @fault after fault behind events owns first =>
      exact absurd hlive (not_live_leave (u := s.note events) (.badFrame fault) owns known)
    | @waits after level next events before owns phase awaits first =>
      have hwork := work_eq (sessions_setSession (s := s.note events) after known) on
      simp only [carryOut]
      rw [hwork, before, phase]
      simp only [SessionPhase.weight]
      omega
    | idle first empty unfinished =>
      rcases hend with ⟨link', on', hclosed⟩ | hrejects
      · obtain rfl := Option.some.inj (on.symm.trans on')
        rw [unfinished] at hclosed
        cases hclosed
      · rw [empty, List.append_nil] at consumes
        exact absurd hrejects (consumes.not_rejects first)
    | @finished after events owns first empty ended =>
      exact absurd hlive
        (not_live_leave (u := (s.setLink i link).note events) (.io .unexpectedEof) owns known)
    | @bytes after level x bytes content events owns phase awaits split =>
      have hafter := hset { link with incoming := { link.incoming with content } }
      have hknown := sessions_setSession (s := (s.setLink i
        { link with incoming := { link.incoming with content } }).note events) after known
      have hwork := work_eq hknown hafter
      simp only [carryOut]
      rw [hwork, phase, split]
      simp only [SessionPhase.weight, List.length_append, List.length_cons]
      omega

theorem work_act {a : Action σ ρ} (h : s.Intake i j arrived said) (hapart : s.Apart i j)
    (ha : a.Spares i) (hfed : s.fed i a = []) (hend : s.Finished i arrived) (hs : s.Live j)
    (hlive : (s.act a).Live j) :
    (s.act a).work i j + (if a.isTurn j then 1 else 0) ≤
      s.work i j + (s.spoken i a).length := by
  by_cases hstep : a = .step (.session j)
  · subst hstep
    simp only [Action.isTurn, decide_true, if_true]
    exact work_turn h hend hs hlive
  have hturn : a.isTurn j = false := by
    cases a with
    | step part =>
      cases part with
      | session k => exact decide_eq_false fun hk => hstep (by rw [hk])
      | _ => rfl
    | _ => rfl
  rw [hturn, if_neg Bool.false_ne_true]
  by_cases hstop : a = .sessionStop j
  · subst hstop
    cases hstopped : s.sessionStop? j with
    | none =>
      have hact : s.act (.sessionStop j) = s := by simp [act, hstopped]
      rw [hact]
      exact Nat.le_add_right _ _
    | some t =>
      have hact : s.act (.sessionStop j) = t := by simp [act, hstopped]
      obtain ⟨session, known, owns⟩ := h.owner
      simp only [sessionStop?, known, Option.bind_eq_bind, Option.bind_some,
        Option.ite_none_right_eq_some, Option.some.injEq] at hstopped
      obtain ⟨-, rfl⟩ := hstopped
      rw [hact] at hlive
      exact absurd hlive (not_live_leave .shutdown owns known)
  · cases h with
    | gone known on owns fault?_eq => exact absurd hs (not_live_of_fault? known fault?_eq)
    | @live session link frames waiting known on owns sound phase awaits consumes said_eq =>
      obtain ⟨after, hafter, hfollows⟩ := follows_act hapart ha hstep hstop hfed link on
      rw [work_eq known on, work_eq (session_act hapart ha hstep hstop known) hafter,
        hfollows.content]
      exact Nat.le_add_right _ _

theorem live_of_run {actions : List (Action σ ρ)} (h : s.Intake i j arrived said)
    (hapart : s.Apart i j) (hactions : ∀ a ∈ actions, a.Spares i) (hi : i < s.links.size)
    (hlive : (s.run actions).Live j) : s.Live j := by
  induction actions generalizing s arrived said with
  | nil => exact hlive
  | cons a rest ih =>
    have ha := hactions a List.mem_cons_self
    apply live_of_act h
    exact ih (intake_act h hapart ha) (apart_act hapart ha (.inr hi))
      (fun b hb => hactions b (List.mem_cons_of_mem a hb))
      (Nat.lt_of_lt_of_le hi (s.size_links_act a)) hlive

/-- Along a history at whose end the session still reads, its turns are as few as the work and the
frames handed over allow. -/
theorem work_run {actions : List (Action σ ρ)} (h : s.Intake i j arrived said)
    (hapart : s.Apart i j) (hactions : ∀ a ∈ actions, a.Spares i) (hi : i < s.links.size)
    (hfed : s.along (fed i) actions = []) (hend : s.Finished i arrived)
    (hlive : (s.run actions).Live j) :
    actions.countP (·.isTurn j) ≤ s.work i j + (s.along (spoken i) actions).length := by
  induction actions generalizing s said with
  | nil => exact Nat.zero_le _
  | cons a rest ih =>
    have ha := hactions a List.mem_cons_self
    rw [along, List.append_eq_nil_iff] at hfed
    obtain ⟨hfed, hrest⟩ := hfed
    have hnext := intake_act h hapart ha
    rw [hfed, List.append_nil] at hnext
    have hapart' := apart_act hapart ha (.inr hi)
    have hi' := Nat.lt_of_lt_of_le hi (s.size_links_act a)
    have hactions' := fun b hb => hactions b (List.mem_cons_of_mem a hb)
    have hlater := live_of_run hnext hapart' hactions' hi' hlive
    have hs := live_of_act h hlater
    have hturns := ih hnext hapart' hactions' hi' hrest (finished_act hend h hapart ha hs) hlive
    have hturn := work_act h hapart ha hfed hend hs hlater
    rw [List.countP_cons, along, List.length_append]
    omega

end Station

end ModbusSlave
