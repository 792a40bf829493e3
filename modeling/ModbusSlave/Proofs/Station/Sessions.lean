import ModbusSlave.Proofs.Station.Intake

/-!
# What becomes of the sessions

A session changes in its own turns only. It keeps its link and its role, reads until it leaves, and
never reads again after that. Whoever leaves puts a release behind its requests if it was accepted
by a listener, or shuts its link down itself once the service has stopped.
-/
namespace ModbusSlave

theorem Session.role_parse (session : Session) (level : DecodeLevel) :
    (session.parse level).1.role = session.role := by
  unfold parse
  dsimp only
  split
  · rfl
  · rfl
  · split <;> rfl

theorem Session.role_receive (session : Session) (level : DecodeLevel) (got : Except IoKind Bytes) :
    (session.receive level got).1.role = session.role := by
  unfold receive
  dsimp only
  split <;> rfl

theorem Session.fault?_parse {session : Session} (level : DecodeLevel)
    (h : session.fault? = none) : (session.parse level).1.fault? = none := by
  unfold parse
  dsimp only
  split
  · rfl
  · rfl
  · split
    · rfl
    · exact h

theorem Session.fault?_receive {session : Session} (level : DecodeLevel)
    (got : Except IoKind Bytes) (h : session.fault? = none) :
    (session.receive level got).1.fault? = none := by
  unfold receive
  dsimp only
  split
  · rfl
  · exact h

/-- The link and the role of a session, which never change. -/
def Session.seat (session : Session) : Nat × Role := (session.link, session.role)

def Link.Reads (before after : Link) : Prop := ∃ incoming, after = { before with incoming }

theorem Link.Reads.refl (link : Link) : link.Reads link := ⟨link.incoming, rfl⟩

/-- The phase behind a stage of a departure. -/
def SessionPhase.departed (fault : RequestFault) : Option ShutdownStage → SessionPhase
  | some stage => .departing fault stage
  | none => .over fault

theorem Session.fault?_departed (session : Session) (fault : RequestFault)
    (next : Option ShutdownStage) :
    fault? { session with phase := .departed fault next } = some fault := by
  cases next <;> rfl

namespace Station

variable {σ ρ : Type}

/-- A turn of the session `k`, which has been `before`. -/
inductive Turned (s : Station σ ρ) (k : Nat) (before : Session) : Station σ ρ → Prop
  | reads {after : Session} {t : Station σ ρ} (live : before.fault? = none)
      (link : after.link = before.link) (role : after.role = before.role)
      (still : after.fault? = none) (sessions : t.sessions = s.sessions.setIfInBounds k after) :
      Turned s k before t
  | leaves {after : Session} {fault : RequestFault} {u : Station σ ρ}
      (live : before.fault? = none) (link : after.link = before.link)
      (role : after.role = before.role) (sessions : u.sessions = s.sessions)
      (worker : u.worker = s.worker) (links : s.Becomes before.link Link.Reads u) :
      Turned s k before (u.leave k after fault)
  | departs {fault : RequestFault} {stage : ShutdownStage} {link after : Link}
      {next : Option ShutdownStage} (phase : before.phase = .departing fault stage)
      (on : s.links[before.link]? = some link)
      (step?_eq : stage.step? (.session k) link = some (after, next)) :
      Turned s k before ((s.setLink before.link after).setSession k
        { before with phase := .departed fault next })

section

variable {s t : Station σ ρ} {k : Nat} {before : Session}

theorem turned_carryOut {u : Station σ ρ} {step : Session × Demand × List Event}
    (live : before.fault? = none) (link : step.1.link = before.link)
    (role : step.1.role = before.role) (still : step.1.fault? = none)
    (sessions : u.sessions = s.sessions) (worker : u.worker = s.worker)
    (links : s.Becomes before.link Link.Reads u) : s.Turned k before (u.carryOut k step) := by
  obtain ⟨after, demand, events⟩ := step
  cases demand with
  | nothing =>
    refine .reads live link role still ?_
    rw [← sessions]
    rfl
  | leave fault => exact .leaves (u := u.note events) live link role sessions worker links
  | submit frame =>
    simp only [carryOut]
    split
    · exact .leaves (u := u.note events) live link role sessions worker links
    · refine .reads live link role still ?_
      rw [setSession, sessions_enqueue, ← sessions]
      rfl

theorem turned_of_sessionStep? (h : s.sessionStep? k = some t) :
    ∃ before, s.sessions[k]? = some before ∧ s.Turned k before t := by
  cases hk : s.sessions[k]? with
  | none => simp [sessionStep?, hk] at h
  | some session =>
    refine ⟨session, rfl, ?_⟩
    cases hp : session.phase with
    | parsing level =>
      simp only [sessionStep?, hk, hp, Option.bind_eq_bind, Option.bind_some,
        Option.some.injEq] at h
      subst h
      have live : session.fault? = none := by rw [Session.fault?, hp]
      exact turned_carryOut live (link_parse _ _) (session.role_parse _)
        (session.fault?_parse _ live) rfl rfl (becomes_of_eq Link.Reads.refl rfl)
    | reading level =>
      simp only [sessionStep?, hk, hp, Option.bind_eq_bind, Option.bind_some,
        Option.bind_eq_some_iff, Option.some.injEq] at h
      obtain ⟨link, hlink, ⟨got, incoming⟩, -, rfl⟩ := h
      have live : session.fault? = none := by rw [Session.fault?, hp]
      exact turned_carryOut live (link_receive _ _ _) (session.role_receive _ _)
        (session.fault?_receive _ _ live) rfl rfl
        (becomes_setLink Link.Reads.refl hlink ⟨incoming, rfl⟩)
    | departing fault stage =>
      simp only [sessionStep?, hk, hp, Option.bind_eq_bind, Option.bind_some,
        Option.bind_eq_some_iff, Option.some.injEq] at h
      obtain ⟨link, hlink, ⟨after, next⟩, hstep, rfl⟩ := h
      cases next with
      | some stage => exact .departs hp hlink hstep
      | none => exact .departs hp hlink hstep
    | «over» fault => simp [sessionStep?, hk, hp] at h

theorem turned_of_sessionStop? (h : s.sessionStop? k = some t) :
    ∃ before, s.sessions[k]? = some before ∧ s.Turned k before t := by
  cases hk : s.sessions[k]? with
  | none => simp [sessionStop?, hk] at h
  | some session =>
    simp only [sessionStop?, hk, Option.bind_eq_bind, Option.bind_some,
      Option.ite_none_right_eq_some, Option.some.injEq] at h
    obtain ⟨⟨hlive, -⟩, rfl⟩ := h
    have live : session.fault? = none := by
      rwa [Session.live, Option.isNone_iff_eq_none] at hlive
    exact ⟨session, rfl, .leaves live rfl rfl rfl rfl (becomes_of_eq Link.Reads.refl rfl)⟩

theorem leave_of_running {session : Session} {listener id : Nat} (s : Station σ ρ) (k : Nat)
    (fault : RequestFault) (hrole : session.role = .accepted listener id)
    (hs : s.stopped = false) :
    s.leave k session fault =
      ((s.note [.sessionEnded id fault]).enqueue (.release session.link)).setSession k
        { session with phase := .over fault } := by
  simp only [leave, hrole]
  exact if_neg (by rw [Bool.not_eq_true]; exact hs)

theorem leave_of_stopped {session : Session} {listener id : Nat} (s : Station σ ρ) (k : Nat)
    (fault : RequestFault) (hrole : session.role = .accepted listener id)
    (hs : s.stopped = true) :
    s.leave k session fault =
      (s.note [.sessionEnded id fault]).setSession k
        { session with phase := .departing fault .entering } := by
  simp only [leave, hrole]
  exact if_pos hs

theorem sessions_leave (s : Station σ ρ) (k : Nat) (session : Session) (fault : RequestFault) :
    ∃ phase, Session.fault? { session with phase } = some fault ∧
      (s.leave k session fault).sessions =
        s.sessions.setIfInBounds k { session with phase } := by
  cases hr : session.role with
  | bare =>
    refine ⟨.over fault, rfl, ?_⟩
    simp only [leave, hr]
    rfl
  | port name =>
    refine ⟨.over fault, rfl, ?_⟩
    simp only [leave, hr]
    rfl
  | accepted listener id =>
    cases hs : s.stopped with
    | false =>
      refine ⟨.over fault, rfl, ?_⟩
      rw [leave_of_running s k fault hr hs, setSession, sessions_enqueue, ← hr]
      rfl
    | true =>
      refine ⟨.departing fault .entering, rfl, ?_⟩
      rw [leave_of_stopped s k fault hr hs, ← hr]
      rfl

theorem Turned.sessions (h : s.Turned k before t) :
    ∃ after, t.sessions = s.sessions.setIfInBounds k after ∧ after.link = before.link ∧
      after.role = before.role := by
  cases h with
  | reads live link role still sessions => exact ⟨_, sessions, link, role⟩
  | @leaves after fault u live link role sessions =>
    obtain ⟨phase, -, hleave⟩ := u.sessions_leave k after fault
    rw [hleave, sessions]
    exact ⟨_, rfl, link, role⟩
  | departs => exact ⟨_, rfl, rfl, rfl⟩

theorem session_of_set {sessions : Array Session} {after session : Session}
    (known : sessions[k]? = some before)
    (h : (sessions.setIfInBounds k after)[k]? = some session) : after = session := by
  obtain ⟨hk, -⟩ := Array.getElem?_eq_some_iff.mp known
  rwa [Array.getElem?_setIfInBounds, if_pos rfl, if_pos hk, Option.some.injEq] at h

theorem same_of_turned {session : Session} (h : s.Turned k before t)
    (known : s.sessions[k]? = some before) (hsession : t.sessions[k]? = some session) :
    session.link = before.link ∧ session.role = before.role := by
  obtain ⟨after, hsessions, hlink, hrole⟩ := h.sessions
  rw [hsessions] at hsession
  rw [← session_of_set known hsession]
  exact ⟨hlink, hrole⟩

/-- What an action does to the sessions of a station. -/
inductive Seats (s : Station σ ρ) (a : Action σ ρ) (t : Station σ ρ) : Prop
  | kept (sessions : t.sessions = s.sessions)
  | turned {k : Nat} {before : Session} (action : a = .step (.session k) ∨ a = .sessionStop k)
      (known : s.sessions[k]? = some before) (turned : s.Turned k before t)
  | joined {session : Session} (link : session.link = s.links.size)
      (fresh : s.links.size < t.links.size) (live : session.fault? = none)
      (role : ∀ listener id, session.role = .accepted listener id →
        ∃ peer link, a = .accept listener peer link)
      (port : ∀ name, session.role = .port name → ∃ link, a = .addPort name link)
      (sessions : t.sessions = s.sessions.push session)

theorem isClosed_closeLink (s : Station σ ρ) (i j : Nat) :
    (s.closeLink i).isClosed j = true ↔ s.isClosed j = true ∨ j = i := by
  by_cases h : i = j
  · subst h
    have hclosed : (s.closeLink i).isClosed i = true := by
      rw [isClosed, closeLink, Array.getElem?_modify, if_pos rfl]
      cases s.links[i]? <;> rfl
    simp [hclosed]
  · rw [isClosed_congr (links_closeLink_of_ne s h)]
    simp [Ne.symm h]

theorem isClosed_foldl {α : Type} (link : α → Nat) (f : Station σ ρ → α → Station σ ρ)
    (h : ∀ s x, (f s x).links = (s.closeLink (link x)).links) (s : Station σ ρ) (l : List α)
    (j : Nat) :
    (l.foldl f s).isClosed j = true ↔ s.isClosed j = true ∨ j ∈ l.map link := by
  induction l generalizing s with
  | nil => simp
  | cons x l ih =>
    have hfirst : (f s x).isClosed j = (s.closeLink (link x)).isClosed j := by
      rw [isClosed, h, isClosed]
    rw [List.foldl_cons, ih, hfirst, isClosed_closeLink, List.map_cons, List.mem_cons, or_assoc]

theorem sessions_of_halts (h : s.Halts k t) : t.sessions = s.sessions := by
  cases h
  exact foldl_fixed (·.sessions) (fun s (x : Nat × Nat) => s.closeLink x.2) (fun _ _ => rfl) _ _

theorem sessions_writerStep? (h : s.writerStep? k = some t) : t.sessions = s.sessions := by
  simp only [writerStep?, Option.bind_eq_bind, Option.bind_eq_some_iff] at h
  obtain ⟨writer, -, h⟩ := h
  split at h
  · cases h
  · simp only [Option.bind_eq_some_iff, Option.some.injEq] at h
    obtain ⟨link, -, step, -, rfl⟩ := h
    rfl

theorem sessions_of_closingMove (h : s.ClosingMove t) : t.sessions = s.sessions := by
  cases h with
  | cancels =>
    exact foldl_fixed (·.sessions) (fun s (session : Session) => s.closeLink session.link)
      (fun _ _ => rfl) _ _
  | stops => exact sessions_enqueue s .stop
  | _ => rfl

/-- A running listener that accepts a link gives it the next number and closes the links for which
there is no place any more. -/
theorem accept_of_running {listener : Listener} (hlistener : s.listeners[k]? = some listener)
    (hrunning : listener.running = true) (peer : String) (link : Link) :
    let added := listener.tracker.add s.isClosed s.links.size
    ∃ u : Station σ ρ, s.accept k peer link =
        u.attach { link with closed := listener.cancelled } (.mbap .start) .close
          (.accepted k added.2.1) ∧
      u.sessions = s.sessions ∧ u.links.size = s.links.size ∧
      u.listeners = s.listeners.setIfInBounds k { listener with tracker := added.1 } ∧
      ∀ j, u.isClosed j = true ↔ s.isClosed j = true ∨ j ∈ added.2.2.map (·.2) := by
  intro added
  let evict (s : Station σ ρ) (x : Nat × Nat) : Station σ ρ :=
    (s.note [.evicted x.1]).closeLink x.2
  let u : Station σ ρ := (added.2.2.foldl evict s).note [.accepted added.2.1 peer]
  have hsessions : (added.2.2.foldl evict s).sessions = s.sessions :=
    foldl_fixed (·.sessions) evict (fun _ _ => rfl) _ _
  have hlisteners : (added.2.2.foldl evict s).listeners = s.listeners :=
    foldl_fixed (·.listeners) evict (fun _ _ => rfl) _ _
  have hsize : (added.2.2.foldl evict s).links.size = s.links.size :=
    foldl_fixed (·.links.size) evict (fun _ _ => Array.size_modify) _ _
  have hclosed := isClosed_foldl (·.2) evict (fun _ _ => rfl) s added.2.2
  refine ⟨{ u with
    listeners := u.listeners.setIfInBounds k { listener with tracker := added.1 } }, ?_,
    hsessions, hsize, ?_, hclosed⟩
  · unfold accept
    rw [hlistener]
    exact if_pos hrunning
  · rw [← hlisteners]
    rfl

/-- Nothing comes of a link that arrives at any other listener. -/
theorem accept_of_still (h : ∀ listener, s.listeners[k]? = some listener → listener.running = false)
    (peer : String) (link : Link) : s.accept k peer link = s := by
  unfold accept
  split
  · rfl
  · next listener hlistener =>
    rw [h listener hlistener]
    rfl

theorem seats_attach {a : Action σ ρ} {u : Station σ ρ} (link : Link) (parser : Parser)
    (policy : FaultPolicy) {role : Role} (hsessions : u.sessions = s.sessions)
    (hsize : u.links.size = s.links.size)
    (hrole : ∀ listener id, role = .accepted listener id →
      ∃ peer link, a = .accept listener peer link)
    (hport : ∀ name, role = .port name → ∃ link, a = .addPort name link) :
    s.Seats a (u.attach link parser policy role) := by
  have hstart : (Session.start u.links.size parser policy role).link = s.links.size := hsize
  refine .joined hstart ?_ rfl hrole hport ?_
  · rw [attach, Array.size_push, hsize]
    exact Nat.lt_succ_self _
  · rw [attach, hsessions]

theorem seats_act (s : Station σ ρ) (a : Action σ ρ) : s.Seats a (s.act a) := by
  have same : s.Seats a s := .kept rfl
  cases a with
  | arrive k bytes =>
    rcases s.act_arrive k bytes with hact | ⟨link, incoming, rest, -, -, hact⟩
    · rwa [hact]
    · rw [hact]
      exact .kept rfl
  | collect k count =>
    rcases s.act_collect k count with hact | ⟨link, outgoing, got, -, -, hact⟩
    · rwa [hact]
    · rw [hact]
      exact .kept rfl
  | finish k => exact .kept rfl
  | deafen k => exact .kept rfl
  | breakDown k kind => exact .kept rfl
  | attach link parser policy =>
    apply seats_attach link parser policy rfl rfl
    · intro listener id hrole
      cases hrole
    · intro name hrole
      cases hrole
  | listen address =>
    simp only [act, listen]
    split
    · exact .kept rfl
    · exact same
  | accept k peer link =>
    simp only [act]
    by_cases hrunning : ∃ listener, s.listeners[k]? = some listener ∧ listener.running = true
    · obtain ⟨listener, hlistener, hrunning⟩ := hrunning
      obtain ⟨u, haccept, hsessions, hsize, -⟩ := accept_of_running hlistener hrunning peer link
      rw [haccept]
      apply seats_attach _ _ _ hsessions hsize
      · intro listener id hrole
        cases hrole
        exact ⟨peer, link, rfl⟩
      · intro name hrole
        cases hrole
    · rw [accept_of_still fun listener hlistener => ?_]
      · exact same
      · exact (Bool.not_eq_true _).mp fun h => hrunning ⟨listener, hlistener, h⟩
  | failAccept k kind =>
    rcases s.act_failAccept k kind with hsame | hhalts
    · rwa [hsame]
    · exact .kept (sessions_of_halts hhalts)
  | addPort name link =>
    simp only [act, addPort]
    split
    · refine seats_attach _ _ _ ?_ ?_ ?_ ?_
      · rfl
      · rfl
      · intro listener id hrole
        cases hrole
      · intro other hrole
        cases hrole
        exact ⟨link, rfl⟩
    · exact same
  | submit message => exact .kept (sessions_enqueue s message)
  | call run =>
    simp only [act, call]
    split
    · exact .kept rfl
    · exact .kept (sessions_enqueue s _)
  | close k => exact .kept rfl
  | write k bytes level => exact .kept rfl
  | setLevel level => exact .kept rfl
  | shutDown =>
    simp only [act, shutDown]
    split
    · exact .kept rfl
    · exact same
  | tick => exact .kept rfl
  | sessionStop k =>
    simp only [act]
    cases hstop : s.sessionStop? k with
    | none => exact same
    | some t =>
      obtain ⟨before, known, turned⟩ := turned_of_sessionStop? hstop
      exact .turned (.inr rfl) known turned
  | step part =>
    cases part with
    | worker =>
      obtain ⟨-, hsame⟩ | hmove := s.act_worker
      · rwa [hsame]
      · exact .kept (sessions_of_move hmove)
    | session k =>
      simp only [act, partStep?]
      cases hstep : s.sessionStep? k with
      | none => exact same
      | some t =>
        obtain ⟨before, known, turned⟩ := turned_of_sessionStep? hstep
        exact .turned (.inl rfl) known turned
    | writer k =>
      simp only [act, partStep?]
      cases hstep : s.writerStep? k with
      | none => exact same
      | some t => exact .kept (sessions_writerStep? hstep)
    | listener k =>
      rcases s.act_listener k with hsame | hhalts
      · rwa [hsame]
      · exact .kept (sessions_of_halts hhalts)
    | closing =>
      rcases s.act_closing with hsame | hmove
      · rw [hsame]
        exact same
      · exact .kept (sessions_of_closingMove hmove)

theorem seats_setIfInBounds {before after : Session} (known : s.sessions[k]? = some before)
    (link : after.link = before.link) (role : after.role = before.role) :
    (s.sessions.setIfInBounds k after).map Session.seat = s.sessions.map Session.seat := by
  apply Array.ext_getElem?
  intro n
  rw [Array.getElem?_map, Array.getElem?_map, Array.getElem?_setIfInBounds]
  by_cases h : k = n
  · obtain ⟨hk, -⟩ := Array.getElem?_eq_some_iff.mp known
    rw [← h, if_pos rfl, if_pos hk, known, Option.map_some, Option.map_some, Session.seat,
      Session.seat, link, role]
  · rw [if_neg h]

theorem seats_cases {a : Action σ ρ} (h : s.Seats a t) :
    t.sessions.map Session.seat = s.sessions.map Session.seat ∨
      ∃ session, session.link = s.links.size ∧ s.links.size < t.links.size ∧
        (∀ listener id, session.role = .accepted listener id →
          ∃ peer link, a = .accept listener peer link) ∧
        t.sessions = s.sessions.push session := by
  cases h with
  | kept sessions => exact .inl (by rw [sessions])
  | turned action known turned =>
    obtain ⟨after, sessions, link, role⟩ := turned.sessions
    left
    rw [sessions]
    exact seats_setIfInBounds known link role
  | joined link fresh live role port sessions => exact .inr ⟨_, link, fresh, role, sessions⟩

theorem session_of_seats (h : t.sessions.map Session.seat = s.sessions.map Session.seat)
    {n : Nat} {session : Session} (known : t.sessions[n]? = some session) :
    ∃ before, s.sessions[n]? = some before ∧ before.link = session.link ∧
      before.role = session.role := by
  have hseat : (s.sessions.map Session.seat)[n]? = some session.seat := by
    rw [← h, Array.getElem?_map, known, Option.map_some]
  rw [Array.getElem?_map, Option.map_eq_some_iff] at hseat
  obtain ⟨before, hbefore, hsame⟩ := hseat
  exact ⟨before, hbefore, congrArg Prod.fst hsame, congrArg Prod.snd hsame⟩

theorem session_cases {a : Action σ ρ} (h : s.Seats a t) {n : Nat} {session : Session}
    (known : t.sessions[n]? = some session) :
    s.sessions[n]? = some session ∨ session.fault? = none ∨
      ∃ before, s.sessions[n]? = some before ∧ s.Turned n before t := by
  cases h with
  | kept sessions =>
    rw [sessions] at known
    exact .inl known
  | joined link fresh live role port sessions =>
    rw [sessions, Array.getElem?_push] at known
    split at known
    · cases known
      exact .inr (.inl live)
    · exact .inl known
  | @turned k before action held turned =>
    by_cases hn : n = k
    · subst hn
      exact .inr (.inr ⟨before, held, turned⟩)
    · obtain ⟨after, sessions, -⟩ := turned.sessions
      rw [sessions, Array.getElem?_setIfInBounds_ne (Ne.symm hn)] at known
      exact .inl known

theorem entered_cases {a : Action σ ρ} (h : s.Seats a t) {n : Nat} {session : Session}
    (known : t.sessions[n]? = some session) :
    (∃ before, s.sessions[n]? = some before ∧ before.link = session.link ∧
        before.role = session.role) ∨
      (session.link = s.links.size ∧ s.links.size < t.links.size ∧ session.fault? = none ∧
        (∀ listener id, session.role = .accepted listener id →
          ∃ peer link, a = .accept listener peer link) ∧
        ∀ name, session.role = .port name → ∃ link, a = .addPort name link) := by
  cases h with
  | kept sessions =>
    rw [sessions] at known
    exact .inl ⟨session, known, rfl, rfl⟩
  | joined link fresh live role port sessions =>
    rw [sessions, Array.getElem?_push] at known
    split at known
    · cases known
      exact .inr ⟨link, fresh, live, role, port⟩
    · exact .inl ⟨session, known, rfl, rfl⟩
  | turned action held turned =>
    obtain ⟨after, sessions, link, role⟩ := turned.sessions
    have hseats := seats_setIfInBounds held link role
    rw [← sessions] at hseats
    exact .inl (session_of_seats hseats known)

/-- Who sits in a place stays as he is, unless it is his turn. -/
theorem place_cases {n : Nat} {session : Session} (a : Action σ ρ)
    (known : s.sessions[n]? = some session) :
    (s.act a).sessions[n]? = some session ∨
      ((a = .step (.session n) ∨ a = .sessionStop n) ∧ s.Turned n session (s.act a)) := by
  cases s.seats_act a with
  | kept sessions => exact .inl (by rw [sessions, known])
  | joined link fresh live role port sessions =>
    obtain ⟨hn, -⟩ := Array.getElem?_eq_some_iff.mp known
    left
    rw [sessions, Array.getElem?_push, if_neg (Nat.ne_of_lt hn), known]
  | @turned k before action held turned =>
    by_cases hk : k = n
    · subst hk
      obtain rfl := Option.some.inj (held.symm.trans known)
      exact .inr ⟨action, turned⟩
    · obtain ⟨after, sessions, -⟩ := turned.sessions
      left
      rw [sessions, Array.getElem?_setIfInBounds_ne hk, known]

theorem seat_act {a : Action σ ρ} {n : Nat} {session : Session}
    (known : s.sessions[n]? = some session) :
    ∃ after, (s.act a).sessions[n]? = some after ∧ after.link = session.link ∧
      after.role = session.role := by
  rcases place_cases a known with hsame | ⟨-, hturned⟩
  · exact ⟨session, hsame, rfl, rfl⟩
  · obtain ⟨after, sessions, link, role⟩ := hturned.sessions
    obtain ⟨hn, -⟩ := Array.getElem?_eq_some_iff.mp known
    refine ⟨after, ?_, link, role⟩
    rw [sessions, Array.getElem?_setIfInBounds_self_of_lt hn]

theorem seat_run {n : Nat} {session : Session} (known : s.sessions[n]? = some session)
    (actions : List (Action σ ρ)) :
    ∃ after, (s.run actions).sessions[n]? = some after ∧ after.link = session.link ∧
      after.role = session.role := by
  induction actions generalizing s session with
  | nil => exact ⟨session, known, rfl, rfl⟩
  | cons a rest ih =>
    obtain ⟨next, hnext, hlink, hrole⟩ := seat_act (a := a) known
    obtain ⟨after, hafter, hlink', hrole'⟩ := ih hnext
    exact ⟨after, hafter, hlink'.trans hlink, hrole'.trans hrole⟩

theorem not_over_of_turned (h : s.Turned k before t) {fault : RequestFault} :
    before.phase ≠ .over fault := by
  intro ended
  cases h with
  | reads live =>
    rw [Session.fault?, ended] at live
    cases live
  | leaves live =>
    rw [Session.fault?, ended] at live
    cases live
  | departs phase =>
    rw [ended] at phase
    cases phase

theorem over_act {a : Action σ ρ} {n : Nat} {session : Session} {fault : RequestFault}
    (known : s.sessions[n]? = some session) (ended : session.phase = .over fault) :
    (s.act a).sessions[n]? = some session := by
  rcases place_cases a known with hsame | ⟨-, hturned⟩
  · exact hsame
  · exact absurd ended (not_over_of_turned hturned)

/-- In a turn of its own, a session that has ended can only go on with its departure. -/
theorem fault?_of_turned (h : s.Turned k before t) (known : s.sessions[k]? = some before)
    {fault : RequestFault} (ended : before.fault? = some fault) :
    ∃ phase, Session.fault? { before with phase } = some fault ∧
      t.sessions[k]? = some { before with phase } := by
  cases h with
  | reads live =>
    rw [live] at ended
    cases ended
  | leaves live =>
    rw [live] at ended
    cases ended
  | @departs fault' stage link after next phase =>
    obtain rfl : fault' = fault := by simpa [Session.fault?, phase] using ended
    exact ⟨_, before.fault?_departed fault' next,
      sessions_setSession (s := s.setLink before.link after) _ known⟩

/-- A session that has ended never reads again, and the reason stays. -/
theorem fault?_act {a : Action σ ρ} {n : Nat} {session : Session} {fault : RequestFault}
    (known : s.sessions[n]? = some session) (ended : session.fault? = some fault) :
    ∃ phase, Session.fault? { session with phase } = some fault ∧
      (s.act a).sessions[n]? = some { session with phase } := by
  rcases place_cases a known with hsame | ⟨-, hturned⟩
  · exact ⟨session.phase, ended, hsame⟩
  · exact fault?_of_turned hturned known ended

def Seated (s : Station σ ρ) : Prop :=
  ∀ (n : Nat) (session : Session), s.sessions[n]? = some session → session.link < s.links.size

theorem seated_act (h : s.Seated) (a : Action σ ρ) : (s.act a).Seated := by
  intro n session known
  rcases seats_cases (s.seats_act a) with hseats | ⟨new, hlink, hfresh, -, hsessions⟩
  · obtain ⟨before, hbefore, hlink, -⟩ := session_of_seats hseats known
    rw [← hlink]
    exact Nat.lt_of_lt_of_le (h n before hbefore) (s.size_links_act a)
  · rw [hsessions, Array.getElem?_push] at known
    split at known
    · cases known
      rw [hlink]
      exact hfresh
    · exact Nat.lt_of_lt_of_le (h n session known) (s.size_links_act a)

theorem seated_run (h : s.Seated) (actions : List (Action σ ρ)) : (s.run actions).Seated := by
  induction actions generalizing s with
  | nil => exact h
  | cons a rest ih => exact ih (seated_act h a)

theorem seated_ofSettings (settings : ServerSettings) :
    (ofSettings settings : Station σ ρ).Seated := by
  intro n session known
  simp [ofSettings] at known

end

end Station

end ModbusSlave
