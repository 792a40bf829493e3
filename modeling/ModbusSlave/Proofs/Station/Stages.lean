import ModbusSlave.Proofs.Station.Admission
import ModbusSlave.Proofs.Station.Release

/-!
# The stages of the shutdown

Each stage of the shutdown leaves behind what the next one relies on. Once the listeners are gone
nobody is accepted any more; once their sessions are gone nothing else needs a release; and when a
port is shut down, its session does not read any more. A link that comes in while its listener is
being stopped is closed from the start, so it does not keep the shutdown waiting.
-/
namespace ModbusSlave

theorem Session.isAccepted_iff {session : Session} :
    session.isAccepted = true ↔ ∃ listener id, session.role = .accepted listener id := by
  rw [isAccepted]
  cases session.role <;> simp

theorem Session.isServing_iff {session : Session} :
    session.isServing = true ↔ ∃ name, session.role = .port name := by
  rw [isServing]
  cases session.role <;> simp

theorem Session.isOver_iff {session : Session} :
    session.isOver = true ↔ ∃ fault, session.phase = .over fault := by
  rw [isOver]
  cases session.phase <;> simp

namespace Station

variable {σ ρ : Type}

/-- What the shutdown has done about the port of a session, and what it still knows of it. -/
def Handled (s : Station σ ρ) (session : Session) (port : Port) : Prop :=
  match s.closing with
  | .notYet | .listeners _ | .sessions => port ∈ s.ports
  | .portLinks rest => port ∈ s.ports ∧ (port ∈ rest ∨ s.isClosed port.link = true)
  | .portSessions => port ∈ s.ports ∧ s.isClosed port.link = true
  | .ports rest _ =>
    session.isOver = true ∧ s.isClosed port.link = true ∧ (port ∈ rest ∨ s.Ended port.link)
  | .worker | .done => session.isOver = true ∧ s.Ended port.link

/-- What can be relied on, however far the shutdown has come. -/
structure Orderly (s : Station σ ρ) : Prop where
  hosted : s.Hosted
  joined : ∀ (k : Nat) (listener : Listener), s.listeners[k]? = some listener →
    k ∈ s.closing.awaited s.listeners.size ∨ listener.Gone
  /-- Whoever has been accepted is told to stop together with the listener. -/
  told : ∀ (n : Nat) (session : Session) (k id : Nat) (listener : Listener),
    s.sessions[n]? = some session → session.role = .accepted k id →
      s.listeners[k]? = some listener → listener.cancelled = true →
        s.isClosed session.link = true
  guests : 3 ≤ s.closing.rank → ∀ (n : Nat) (session : Session),
    s.sessions[n]? = some session → session.isAccepted = true → session.isOver = true
  lines : ∀ (n : Nat) (session : Session) (name : String), s.sessions[n]? = some session →
    session.role = .port name → s.Handled session ⟨name, session.link⟩
  halted : s.closing = .done → s.stopped = true

section

variable {s t : Station σ ρ} {a : Action σ ρ} {k n : Nat} {session : Session}

theorem host_of_fresh {peer : String} {link : Link}
    (h : s.links.size < (s.accept k peer link).links.size) :
    ∃ host, s.listeners[k]? = some host ∧ host.running = true := by
  by_contra hnone
  rw [accept_of_still] at h
  · exact Nat.lt_irrefl _ h
  · intro listener hlistener
    exact (Bool.not_eq_true _).mp fun hrunning => hnone ⟨listener, hlistener, hrunning⟩

theorem size_listeners_run (s : Station σ ρ) (actions : List (Action σ ρ)) :
    s.listeners.size ≤ (s.run actions).listeners.size := by
  induction actions generalizing s with
  | nil => exact Nat.le_refl _
  | cons a rest ih => exact Nat.le_trans (s.size_listeners_act a) (ih (s.act a))

theorem listener_act {a : Action σ ρ} {before : Listener}
    (known : s.listeners[k]? = some before) :
    ∃ after, (s.act a).listeners[k]? = some after ∧ after.address = before.address := by
  obtain ⟨hk, -⟩ := Array.getElem?_eq_some_iff.mp known
  have hafter := Array.getElem?_eq_getElem (Nat.lt_of_lt_of_le hk (s.size_listeners_act a))
  refine ⟨_, hafter, ?_⟩
  cases attends_of_rearranges (s.rearranges_act a) hafter with
  | earlier held address | cancels held closing state address =>
    rw [known, Option.some.injEq] at held
    rw [address, held]
  | fresh place => exact absurd hk (by rw [place]; exact Nat.lt_irrefl _)

theorem listener_run {before : Listener} (known : s.listeners[k]? = some before)
    (actions : List (Action σ ρ)) :
    ∃ after, (s.run actions).listeners[k]? = some after ∧ after.address = before.address := by
  induction actions generalizing s before with
  | nil => exact ⟨before, known, rfl⟩
  | cons a rest ih =>
    obtain ⟨next, hnext, haddress⟩ := listener_act (a := a) known
    obtain ⟨after, hafter, haddress'⟩ := ih hnext
    exact ⟨after, hafter, haddress'.trans haddress⟩

theorem still_act {a : Action σ ρ} {before : Listener} (known : s.listeners[k]? = some before)
    (ended : before.running = false) :
    ∃ after, (s.act a).listeners[k]? = some after ∧ after.running = false := by
  obtain ⟨after, hafter, -⟩ := listener_act (a := a) known
  refine ⟨after, hafter, ?_⟩
  cases attends_of_rearranges (s.rearranges_act a) hafter with
  | earlier held address cancelled stays =>
    rw [known, Option.some.injEq] at held
    exact stays (held ▸ ended)
  | cancels held closing state address running =>
    rw [known, Option.some.injEq] at held
    rw [running, ← held, ended]
  | fresh place =>
    obtain ⟨hk, -⟩ := Array.getElem?_eq_some_iff.mp known
    exact absurd hk (by rw [place]; exact Nat.lt_irrefl _)

theorem still_run {before : Listener} (known : s.listeners[k]? = some before)
    (ended : before.running = false) (actions : List (Action σ ρ)) :
    ∃ after, (s.run actions).listeners[k]? = some after ∧ after.running = false := by
  induction actions generalizing s before with
  | nil => exact ⟨before, known, ended⟩
  | cons a rest ih =>
    obtain ⟨next, hnext, hended⟩ := still_act (a := a) known ended
    exact ih hnext hended

/-- A listener that cannot accept closes the links it remembers, and nobody comes in through it
any more. -/
theorem failAccept_ends {listener : Listener} (known : s.listeners[k]? = some listener)
    (running : listener.running = true) (kind : IoKind) :
    let t := s.act (.failAccept k kind)
    (∀ entry ∈ listener.tracker.sessions, t.isClosed entry.2 = true) ∧
      ∀ actions peer link, (t.run actions).act (.accept k peer link) = t.run actions := by
  intro t
  have hhalts : s.Halts k t := by
    simp only [t, act, failAccept, known, if_pos running]
    exact .intro known running
  obtain ⟨host, hhost, hlisteners, hclosed⟩ := listeners_of_halts hhalts
  obtain rfl := Option.some.inj (known.symm.trans hhost)
  refine ⟨hclosed, fun actions peer link => ?_⟩
  obtain ⟨hk, -⟩ := Array.getElem?_eq_some_iff.mp known
  have hstill : t.listeners[k]? =
      some { listener with running := false, tracker := listener.tracker.clear } := by
    rw [hlisteners, Array.getElem?_setIfInBounds_self_of_lt hk]
  obtain ⟨later, hlater, hended⟩ := still_run hstill rfl actions
  apply accept_of_still
  intro other hother
  rwa [← Option.some.inj (hlater.symm.trans hother)]

theorem isClosed_newcomer {host : Listener} (hhost : s.listeners[k]? = some host)
    (hrunning : host.running = true) (peer : String) (link : Link) :
    (s.accept k peer link).isClosed s.links.size = host.cancelled := by
  obtain ⟨u, haccept, -, hsize, -⟩ := accept_of_running hhost hrunning peer link
  rw [haccept, attach, isClosed, Array.getElem?_push, ← hsize, if_pos rfl]
  rfl

theorem awaited_of_closingMove (h : s.ClosingMove t)
    (hk : k ∈ s.closing.awaited s.listeners.size) :
    k ∈ t.closing.awaited t.listeners.size ∨
      ∀ listener, s.listeners[k]? = some listener → listener.Gone := by
  cases h with
  | @skips i rest closing unknown =>
    rw [closing] at hk
    rcases List.mem_cons.mp hk with rfl | hrest
    · right
      intro listener hlistener
      rw [unknown] at hlistener
      cases hlistener
    · exact .inl hrest
  | @cancels i rest listener closing =>
    rw [closing_cancelListener, closing]
    rw [closing] at hk
    exact .inl hk
  | @joins i rest listener closing known cancelled ended =>
    rw [closing] at hk
    rcases List.mem_cons.mp hk with rfl | hrest
    · right
      intro other hother
      obtain rfl := Option.some.inj (known.symm.trans hother)
      exact ⟨cancelled, ended⟩
    · exact .inl hrest
  | listenersGone closing | sessionsGone closing | linksClosed closing | closes closing
  | portsGone closing | shutting closing | shut closing | stops closing | skipsStop closing
  | closed closing =>
    rw [closing] at hk
    exact absurd hk List.not_mem_nil

/-- The shutdown passes over no listener that has not stopped. -/
theorem awaited_act (s : Station σ ρ) (a : Action σ ρ)
    (hk : k ∈ s.closing.awaited s.listeners.size) :
    k ∈ (s.act a).closing.awaited (s.act a).listeners.size ∨
      ∀ listener, s.listeners[k]? = some listener → listener.Gone := by
  rcases s.closing_cases a with hsame | ⟨-, hopen, hact⟩ | hmove
  · left
    rw [hsame]
    cases hc : s.closing with
    | notYet =>
      rw [hc] at hk
      exact List.mem_range.mpr
        (Nat.lt_of_lt_of_le (List.mem_range.mp hk) (s.size_listeners_act a))
    | _ =>
      rw [hc] at hk
      exact hk
  · left
    rw [closing_of_open hopen] at hk
    rw [hact, closing_shutDown hopen]
    exact hk
  · exact awaited_of_closingMove hmove hk

theorem joined_act (h : s.Orderly) (a : Action σ ρ) (listener : Listener)
    (known : (s.act a).listeners[k]? = some listener) :
    k ∈ (s.act a).closing.awaited (s.act a).listeners.size ∨ listener.Gone := by
  cases attends_of_rearranges (s.rearranges_act a) known with
  | earlier held address cancelled ended =>
    have hgone : (∀ other, s.listeners[k]? = some other → other.Gone) → listener.Gone := by
      intro hall
      obtain ⟨hcancelled, hended⟩ := hall _ held
      exact ⟨cancelled.trans hcancelled, ended hended⟩
    rcases h.joined k _ held with hwaits | hover
    · exact (s.awaited_act a hwaits).imp_right hgone
    · refine .inr (hgone ?_)
      intro other hother
      rwa [← Option.some.inj (held.symm.trans hother)]
  | fresh place opened state =>
    obtain ⟨hk, -⟩ := Array.getElem?_eq_some_iff.mp known
    rw [state, closing_listen, closing_of_open opened, ← state]
    exact .inl (List.mem_range.mpr hk)
  | cancels held closing state =>
    rw [state, closing_cancelListener, closing]
    exact .inl List.mem_cons_self

theorem isClosed_cancelListener {j : Nat} (hsession : session ∈ s.acceptedBy j) :
    (s.cancelListener j).isClosed session.link = true := by
  have hclosed := isClosed_foldl (·.link) (fun s (session : Session) => s.closeLink session.link)
    (fun _ _ => rfl)
    { s with listeners := s.listeners.modify j fun l => { l with cancelled := true } }
    (s.acceptedBy j) session.link
  exact hclosed.mpr (.inr (List.mem_map_of_mem hsession))

/-- Whoever belongs to a cancelled listener has a closed link. -/
theorem told_act (h : s.Orderly) (a : Action σ ρ) {id : Nat} {listener : Listener}
    (known : (s.act a).sessions[n]? = some session) (role : session.role = .accepted k id)
    (host : (s.act a).listeners[k]? = some listener) (cancelled : listener.cancelled = true) :
    (s.act a).isClosed session.link = true := by
  have hattends := attends_of_rearranges (s.rearranges_act a) host
  rcases entered_cases (s.seats_act a) known with
    ⟨before, held, hlink, hrole⟩ | ⟨hlink, hfresh, -, haccept, -⟩
  · rw [← hlink]
    rw [← hrole] at role
    have hstays : ∀ earlier : Listener, s.listeners[k]? = some earlier →
        earlier.cancelled = true → (s.act a).isClosed before.link = true :=
      fun earlier hearlier hcancelled => isClosed_act (h.hosted.seated n before held)
        (h.told n before k id earlier held role hearlier hcancelled)
    cases hattends with
    | earlier hearlier address same => exact hstays _ hearlier (same.symm.trans cancelled)
    | fresh place opened state uncancelled =>
      rw [uncancelled] at cancelled
      cases cancelled
    | cancels hearlier closing state =>
      rw [state]
      exact isClosed_cancelListener (mem_acceptedBy.mpr ⟨⟨n, held⟩, id, role⟩)
  · obtain ⟨peer, link, rfl⟩ := haccept k id role
    obtain ⟨earlier, hearlier, hrunning⟩ := host_of_fresh hfresh
    rw [hlink, act, isClosed_newcomer hearlier hrunning]
    obtain ⟨u, hu, -, -, hlisteners, -⟩ := accept_of_running hearlier hrunning peer link
    obtain ⟨hk, -⟩ := Array.getElem?_eq_some_iff.mp hearlier
    rw [act, hu, attach, hlisteners, Array.getElem?_setIfInBounds, if_pos rfl, if_pos hk,
      Option.some.injEq] at host
    rw [← host] at cancelled
    exact cancelled

/-- The shutdown goes on from the sessions of listeners when all of them are over. -/
theorem guests_gone (s : Station σ ρ) (a : Action σ ρ) (hs : s.closing.rank < 3)
    (ht : 3 ≤ (s.act a).closing.rank) :
    (s.act a).sessions = s.sessions ∧
      ∀ session ∈ s.sessions, session.isAccepted = true → session.isOver = true := by
  rcases s.closing_cases a with hsame | ⟨-, hopen, hact⟩ | hmove
  · rw [hsame] at ht
    exact absurd hs (Nat.not_lt.mpr ht)
  · rw [hact, closing_shutDown hopen] at ht
    exact absurd ht (by simp [Closing.rank])
  · refine ⟨sessions_of_closingMove hmove, ?_⟩
    generalize s.act a = t at ht hmove
    cases hmove with
    | sessionsGone closing ended => exact ended
    | cancels =>
      rw [closing_cancelListener] at ht
      exact absurd hs (Nat.not_lt.mpr ht)
    | listenersGone | skips | joins => exact absurd ht (by simp [Closing.rank])
    | linksClosed closing | closes closing | portsGone closing | shutting closing | shut closing
    | stops closing | skipsStop closing | closed closing =>
      rw [closing] at hs
      exact absurd hs (by simp [Closing.rank])

theorem guests_act (h : s.Orderly) (a : Action σ ρ) (ht : 3 ≤ (s.act a).closing.rank)
    (known : (s.act a).sessions[n]? = some session) (accepted : session.isAccepted = true) :
    session.isOver = true := by
  by_cases hs : 3 ≤ s.closing.rank
  · rcases entered_cases (s.seats_act a) known with
      ⟨before, held, -, hrole⟩ | ⟨-, hfresh, -, haccept, -⟩
    · have hover : before.isOver = true := by
        apply h.guests hs n before held
        rw [Session.isAccepted, hrole]
        exact accepted
      obtain ⟨fault, ended⟩ := Session.isOver_iff.mp hover
      rw [over_act held ended] at known
      rwa [← Option.some.inj known]
    · -- nobody is taken in when all listeners have stopped
      obtain ⟨k, id, role⟩ := Session.isAccepted_iff.mp accepted
      obtain ⟨peer, link, rfl⟩ := haccept k id role
      obtain ⟨host, hhost, hrunning⟩ := host_of_fresh hfresh
      rcases h.joined k host hhost with hwaits | ⟨-, hended⟩
      · rw [Closing.awaited_eq_nil (Nat.le_trans (by decide) hs)] at hwaits
        cases hwaits
      · rw [hrunning] at hended
        cases hended
  · obtain ⟨hsessions, hended⟩ := s.guests_gone a (Nat.lt_of_not_le hs) ht
    rw [hsessions] at known
    exact hended session (Array.mem_of_getElem? known) accepted

theorem mem_stopOrder_of_mem {port : Port} (h : port ∈ s.ports) : port ∈ s.stopOrder := by
  rw [stopOrder]
  cases hlast : s.ports.getLast? with
  | none =>
    rw [List.getLast?_eq_none_iff] at hlast
    rw [hlast] at h
    cases h
  | some last =>
    rw [← List.dropLast_append_getLast? last hlast, List.mem_append] at h
    exact List.mem_append.mpr h.symm

theorem handled_of_closingMove {port : Port} (h : s.Handled session port) (move : s.ClosingMove t)
    (known : session ∈ s.sessions) (serving : session.isServing = true)
    (closed : s.isClosed port.link = true → t.isClosed port.link = true)
    (ended : s.Ended port.link → t.Ended port.link) : t.Handled session port := by
  cases move with
  | listenersGone closing | skips closing | joins closing | closed closing =>
    simp only [Handled, closing] at h ⊢
    exact h
  | @cancels i rest listener closing =>
    simp only [Handled, closing, closing_cancelListener] at h ⊢
    rwa [(frame_of_cancelListener (i := 0) (j := 0) s i).1.ports]
  | sessionsGone closing =>
    simp only [Handled, closing] at h ⊢
    exact ⟨h, .inl (mem_stopOrder_of_mem h)⟩
  | linksClosed closing =>
    simp only [Handled, closing] at h ⊢
    obtain ⟨hport, hrest | hclosed⟩ := h
    · cases hrest
    · exact ⟨hport, hclosed⟩
  | @closes other rest closing =>
    simp only [Handled, closing] at h ⊢
    obtain ⟨hport, hrest⟩ := h
    refine ⟨hport, ?_⟩
    rcases hrest with hrest | hclosed
    · rcases List.mem_cons.mp hrest with rfl | hlater
      · exact .inr ((isClosed_closeLink s port.link port.link).mpr (.inr rfl))
      · exact .inl hlater
    · exact .inr (closed hclosed)
  | portsGone closing finished =>
    simp only [Handled, closing] at h ⊢
    exact ⟨finished session known serving, h.2, .inl h.1⟩
  | shutting closing =>
    simp only [Handled, closing] at h ⊢
    exact ⟨h.1, closed h.2.1, h.2.2.imp_right ended⟩
  | @shut other rest stage link after closing held step?_eq =>
    simp only [Handled, closing] at h ⊢
    obtain ⟨hover, hclosed, hrest⟩ := h
    refine ⟨hover, closed hclosed, ?_⟩
    rcases hrest with hrest | hended
    · rcases List.mem_cons.mp hrest with rfl | hlater
      · right
        cases stage with
        | entering => cases step?_eq
        | locking =>
          simp only [ShutdownStage.step?, Option.ite_none_right_eq_some,
            Option.some.injEq] at step?_eq
          obtain ⟨-, hstep⟩ := step?_eq
          cases hstep
          refine ⟨_, links_setLink_self _ held, ?_, rfl⟩
          rw [isClosed, held] at hclosed
          exact hclosed
      · exact .inl hlater
    · exact .inr (ended hended)
  | stops closing | skipsStop closing =>
    simp only [Handled, closing] at h ⊢
    obtain ⟨hover, hclosed, hrest | hended⟩ := h
    · cases hrest
    · exact ⟨hover, ended hended⟩

theorem handled_of_same {port : Port} {after : Session} (h : s.Handled session port)
    (closing : t.closing = s.closing) (ports : ∀ port ∈ s.ports, port ∈ t.ports)
    (finished : session.isOver = true → after.isOver = true)
    (closed : s.isClosed port.link = true → t.isClosed port.link = true)
    (ended : s.Ended port.link → t.Ended port.link) : t.Handled after port := by
  unfold Handled at h ⊢
  rw [closing]
  cases hc : s.closing with
  | notYet | listeners rest | sessions =>
    rw [hc] at h
    exact ports port h
  | portLinks rest =>
    rw [hc] at h
    exact ⟨ports port h.1, h.2.imp_right closed⟩
  | portSessions =>
    rw [hc] at h
    exact ⟨ports port h.1, closed h.2⟩
  | ports rest stage =>
    rw [hc] at h
    exact ⟨finished h.1, closed h.2.1, h.2.2.imp_right ended⟩
  | worker | done =>
    rw [hc] at h
    exact ⟨finished h.1, ended h.2⟩

/-- The shutdown loses sight of no port. -/
theorem lines_act (h : s.Orderly) (a : Action σ ρ) {name : String}
    (known : (s.act a).sessions[n]? = some session) (role : session.role = .port name) :
    (s.act a).Handled session ⟨name, session.link⟩ := by
  rcases entered_cases (s.seats_act a) known with
    ⟨before, held, hlink, hrole⟩ | ⟨hlink, hfresh, -, -, hserves⟩
  · have hbefore := h.lines n before name held (hrole.trans role)
    rw [hlink] at hbefore
    have hseated := h.hosted.seated n before held
    rw [hlink] at hseated
    have hover : before.isOver = true → session.isOver = true := by
      intro hbefore
      obtain ⟨fault, hphase⟩ := Session.isOver_iff.mp hbefore
      rw [over_act held hphase] at known
      rwa [← Option.some.inj known]
    have hclosed : s.isClosed session.link = true → (s.act a).isClosed session.link = true :=
      isClosed_act hseated
    have hended : s.Ended session.link → (s.act a).Ended session.link :=
      fun hbefore => ended_act hbefore a
    have same (closing : (s.act a).closing = s.closing)
        (ports : ∀ port ∈ s.ports, port ∈ (s.act a).ports) :
        (s.act a).Handled session ⟨name, session.link⟩ :=
      handled_of_same hbefore closing ports hover hclosed hended
    cases s.rearranges_act a with
    | same listeners ports closing => exact same closing (by rw [ports]; exact fun _ => id)
    | listening action opened state =>
      refine same (by rw [state, closing_listen]) ?_
      rw [state, listen, if_pos opened]
      exact fun _ => id
    | @serving other link action opened state =>
      refine same (by rw [state, closing_addPort]) ?_
      rw [state, addPort, if_pos opened]
      exact fun port hport => List.mem_append_left _ hport
    | accepting action held running state ports closing =>
      exact same closing (by rw [ports]; exact fun _ => id)
    | stopping calm held gone listeners ports closing =>
      exact same closing (by rw [ports]; exact fun _ => id)
    | beginning action opened state =>
      rw [state, shutDown, if_pos opened]
      simp only [Handled, closing_of_open opened] at hbefore ⊢
      exact hbefore
    | closing action move =>
      have hsame : s.sessions[n]? = some session := by rw [← sessions_of_closingMove move, known]
      obtain rfl := Option.some.inj (held.symm.trans hsame)
      exact handled_of_closingMove hbefore move (Array.mem_of_getElem? held)
        (Session.isServing_iff.mpr ⟨name, role⟩) hclosed hended
  · obtain ⟨link, rfl⟩ := hserves name role
    by_cases hopen : s.isOpen = true
    · have hport : ⟨name, s.links.size⟩ ∈ (s.act (.addPort name link)).ports := by
        rw [act, addPort, if_pos hopen]
        exact List.mem_append_right _ (List.mem_singleton_self _)
      have hclosing : (s.act (.addPort name link)).closing = .notYet :=
        (closing_addPort s name link).trans (closing_of_open hopen)
      rw [Handled, hclosing, hlink]
      exact hport
    · rw [act, addPort, if_neg hopen] at hfresh
      exact absurd hfresh (Nat.lt_irrefl _)

theorem halted_act (h : s.Orderly) (a : Action σ ρ) (done : (s.act a).closing = .done) :
    (s.act a).stopped = true := by
  have hstays (hs : s.stopped = true) : (s.act a).stopped = true := stopped_act a hs
  rcases s.closing_cases a with hsame | ⟨-, hopen, hact⟩ | hmove
  · exact hstays (h.halted (hsame.symm.trans done))
  · rw [hact, closing_shutDown hopen] at done
    cases done
  · apply hstays
    generalize s.act a = t at done hmove
    cases hmove with
    | closed closing stopped => exact stopped
    | cancels closing =>
      rw [closing_cancelListener, closing] at done
      cases done
    | _ => cases done

theorem orderly_act (h : s.Orderly) (a : Action σ ρ) : (s.act a).Orderly where
  hosted := hosted_act h.hosted a
  joined _ listener known := joined_act h a listener known
  told _ _ _ _ _ known role host cancelled := told_act h a known role host cancelled
  guests ht _ _ known accepted := guests_act h a ht known accepted
  lines _ _ _ known role := lines_act h a known role
  halted done := halted_act h a done

theorem orderly_run (h : s.Orderly) (actions : List (Action σ ρ)) : (s.run actions).Orderly := by
  induction actions generalizing s with
  | nil => exact h
  | cons a rest ih => exact ih (orderly_act h a)

theorem orderly_ofSettings (settings : ServerSettings) :
    (ofSettings settings : Station σ ρ).Orderly where
  hosted := hosted_ofSettings settings
  joined k listener known := by simp [ofSettings] at known
  told n session k id listener known := by simp [ofSettings] at known
  guests h := absurd h (by simp [ofSettings, Closing.rank])
  lines n session name known := by simp [ofSettings] at known
  halted h := by cases h

end

end Station

end ModbusSlave
