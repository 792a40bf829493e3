import ModbusSlave.Proofs.Station.Departure
import ModbusSlave.Proofs.Station.Listeners
import ModbusSlave.Proofs.Station.SessionLimit

/-!
# Who has to go for a newcomer

A listener closes the oldest of its open links when another one comes in and there is no place. A
session that has ended keeps its place as long as its link is open, and its link is open as long as
the release behind its requests waits for the worker.
-/
namespace ModbusSlave

open Tracker (alive mem_alive)

/-- The number and the link under which a listener remembers a session. -/
def Session.entry (session : Session) : Nat × Nat :=
  match session.role with
  | .accepted _ id => (id, session.link)
  | _ => (0, session.link)

@[simp] theorem Session.link_entry (session : Session) : session.entry.2 = session.link := by
  rw [entry]
  cases session.role <;> rfl

namespace Station

variable {σ ρ : Type}

/-- What the listener `i` has accepted, oldest first. -/
def admitted (s : Station σ ρ) (i : Nat) : List (Nat × Nat) :=
  (s.acceptedBy i).map Session.entry

/-- The sessions of the listener `i` whose links are open, oldest first. -/
def standing (s : Station σ ρ) (i : Nat) : List Session :=
  (s.acceptedBy i).filter fun session => !s.isClosed session.link

/-- Every tracker is right about the links that its listener has accepted. -/
structure Hosted (s : Station σ ρ) : Prop where
  seated : s.Seated
  owners : ∀ (n : Nat) (session : Session), s.sessions[n]? = some session →
    ∀ listener id, session.role = .accepted listener id → listener < s.listeners.size
  known : ∀ (i : Nat) (listener : Listener), s.listeners[i]? = some listener →
    listener.tracker.Knows s.isClosed (s.admitted i)

section

variable {s t : Station σ ρ} {i k : Nat}

theorem mem_acceptedBy {session : Session} :
    session ∈ s.acceptedBy i ↔
      (∃ n : Nat, s.sessions[n]? = some session) ∧ ∃ id, session.role = .accepted i id := by
  rw [acceptedBy, List.mem_filter, Array.mem_toList_iff, Array.mem_iff_getElem?]
  apply and_congr_right
  intro _
  cases session.role with
  | accepted l id => simp
  | _ => simp

theorem admitted_eq (s : Station σ ρ) (i : Nat) :
    s.admitted i = ((s.sessions.map Session.seat).toList.filter fun seat =>
        match seat.2 with
        | .accepted l _ => l = i
        | _ => false).map fun seat =>
      match seat.2 with
      | .accepted _ id => (id, seat.1)
      | _ => (0, seat.1) := by
  rw [Array.toList_map, List.filter_map, List.map_map]
  rfl

theorem admitted_congr (h : t.sessions.map Session.seat = s.sessions.map Session.seat) (i : Nat) :
    t.admitted i = s.admitted i := by
  rw [admitted_eq, h, ← admitted_eq]

theorem admitted_push {session : Session} {listener id : Nat}
    (hrole : session.role = .accepted listener id)
    (hsessions : t.sessions = s.sessions.push session) (i : Nat) :
    t.admitted i = s.admitted i ++ if listener = i then [(id, session.link)] else [] := by
  rw [admitted, acceptedBy, hsessions, Array.toList_push, List.filter_append, List.map_append,
    ← acceptedBy, ← admitted]
  congr 1
  by_cases h : listener = i
  · simp [hrole, h, Session.entry]
  · simp [hrole, h]

theorem admitted_push_other {session : Session}
    (hrole : ∀ listener id, session.role ≠ .accepted listener id)
    (hsessions : t.sessions = s.sessions.push session) (i : Nat) :
    t.admitted i = s.admitted i := by
  rw [admitted, acceptedBy, hsessions, Array.toList_push, List.filter_append, List.map_append,
    ← acceptedBy, ← admitted]
  cases h : session.role with
  | accepted listener id => exact absurd h (hrole listener id)
  | _ => simp [h]

theorem mem_admitted {entry : Nat × Nat} (h : entry ∈ s.admitted i) :
    ∃ (n : Nat) (session : Session), s.sessions[n]? = some session ∧
      session.role = .accepted i entry.1 ∧ session.link = entry.2 := by
  obtain ⟨session, hsession, rfl⟩ := List.mem_map.mp h
  obtain ⟨⟨n, hn⟩, id, hrole⟩ := mem_acceptedBy.mp hsession
  refine ⟨n, session, hn, ?_, session.link_entry.symm⟩
  rw [hrole, Session.entry, hrole]

theorem Hosted.link_lt (h : s.Hosted) {entry : Nat × Nat} (hentry : entry ∈ s.admitted i) :
    entry.2 < s.links.size := by
  obtain ⟨n, session, hn, -, hlink⟩ := mem_admitted hentry
  rw [← hlink]
  exact h.seated n session hn

theorem admitted_act {a : Action σ ρ}
    (h : ∀ k peer link, a = .accept k peer link → s.act a = s) :
    (s.act a).admitted i = s.admitted i := by
  rcases seats_cases (s.seats_act a) with hseats | ⟨session, -, hfresh, hrole, hsessions⟩
  · exact admitted_congr hseats i
  · apply admitted_push_other _ hsessions
    intro listener id haccepted
    obtain ⟨peer, link, ha⟩ := hrole listener id haccepted
    rw [h listener peer link ha] at hfresh
    exact Nat.lt_irrefl _ hfresh

theorem lt_of_accepted {a : Action σ ρ} {peer : String} {link : Link}
    (ha : a = .accept i peer link) (hfresh : s.links.size < (s.act a).links.size) :
    i < s.listeners.size := by
  by_cases hi : i < s.listeners.size
  · exact hi
  · rw [ha, act, accept_of_still fun listener hlistener => ?_] at hfresh
    · exact absurd hfresh (Nat.lt_irrefl _)
    · rw [Array.getElem?_eq_none (Nat.le_of_not_lt hi)] at hlistener
      cases hlistener

theorem size_listeners_act (s : Station σ ρ) (a : Action σ ρ) :
    s.listeners.size ≤ (s.act a).listeners.size := by
  cases s.hosts_act a with
  | kept trackers => simpa using Nat.le_of_eq (congrArg Array.size trackers).symm
  | listening tracker listeners => simp [listeners]
  | @accepting k peer link listener action known running =>
    obtain ⟨u, haccept, -, -, hlisteners, -⟩ := accept_of_running known running peer link
    have hsize : (s.act a).listeners.size = s.listeners.size := by
      rw [action, act, haccept, attach, hlisteners, Array.size_setIfInBounds]
    exact Nat.le_of_eq hsize.symm
  | stopping calm known tracker listeners => simp [listeners]

theorem owners_act (h : s.Hosted) (a : Action σ ρ) (n : Nat) (session : Session)
    (known : (s.act a).sessions[n]? = some session) (listener id : Nat)
    (hrole : session.role = .accepted listener id) : listener < (s.act a).listeners.size := by
  apply Nat.lt_of_lt_of_le _ (s.size_listeners_act a)
  rcases seats_cases (s.seats_act a) with hseats | ⟨new, -, hfresh, hnew, hsessions⟩
  · obtain ⟨before, hbefore, -, hsame⟩ := session_of_seats hseats known
    exact h.owners n before hbefore listener id (hsame.trans hrole)
  · rw [hsessions, Array.getElem?_push] at known
    split at known
    · cases known
      obtain ⟨peer, link, ha⟩ := hnew listener id hrole
      exact lt_of_accepted ha hfresh
    · exact h.owners n session known listener id hrole

theorem Hosted.admitted_eq_nil (h : s.Hosted) (hi : s.listeners.size ≤ i) :
    s.admitted i = [] := by
  rw [List.eq_nil_iff_forall_not_mem]
  intro entry hentry
  obtain ⟨n, session, hn, hrole, -⟩ := mem_admitted hentry
  exact absurd (h.owners n session hn i entry.1 hrole) (Nat.not_lt.mpr hi)

/-- A newcomer closes the links that the tracker names. -/
theorem isClosed_accept {host : Listener} (hhost : s.listeners[k]? = some host)
    (hrunning : host.running = true) (peer : String) (link : Link) {j : Nat}
    (hj : j < s.links.size) :
    (s.accept k peer link).isClosed j = true ↔ s.isClosed j = true ∨
      j ∈ (host.tracker.add s.isClosed s.links.size).2.2.map (·.2) := by
  obtain ⟨u, haccept, -, hsize, -, hgone⟩ := accept_of_running hhost hrunning peer link
  rw [← hgone j, haccept, attach, isClosed, isClosed, Array.getElem?_push, hsize,
    if_neg (Nat.ne_of_lt hj)]

theorem admitted_accept {host : Listener} (hhost : s.listeners[k]? = some host)
    (hrunning : host.running = true) (peer : String) (link : Link) (i : Nat) :
    (s.accept k peer link).admitted i =
      s.admitted i ++ if k = i then [(host.tracker.nextId, s.links.size)] else [] := by
  obtain ⟨u, haccept, hsessions, hsize, -⟩ := accept_of_running hhost hrunning peer link
  have hpushed : (s.accept k peer link).sessions = s.sessions.push
      (.start u.links.size (.mbap .start) .close
        (.accepted k (host.tracker.add s.isClosed s.links.size).2.1)) := by
    rw [haccept, attach, hsessions]
  rw [admitted_push rfl hpushed, Tracker.add_id, Session.start, hsize]

theorem known_accept (h : s.Hosted) {listener host : Listener} {peer : String} {link : Link}
    (hhost : s.listeners[k]? = some host) (hrunning : host.running = true)
    (hlistener : (s.accept k peer link).listeners[i]? = some listener) :
    listener.tracker.Knows (s.accept k peer link).isClosed ((s.accept k peer link).admitted i) := by
  obtain ⟨u, haccept, -, -, hlisteners, -⟩ := accept_of_running hhost hrunning peer link
  have hclosed : ∀ entry ∈ s.admitted i, (s.accept k peer link).isClosed entry.2 = true ↔
      s.isClosed entry.2 = true ∨
        entry.2 ∈ (host.tracker.add s.isClosed s.links.size).2.2.map (·.2) :=
    fun entry hentry => isClosed_accept hhost hrunning peer link (h.link_lt hentry)
  rw [haccept, attach, hlisteners, Array.getElem?_setIfInBounds] at hlistener
  rw [admitted_accept hhost hrunning]
  by_cases hk : k = i
  · subst hk
    obtain ⟨hin, -⟩ := Array.getElem?_eq_some_iff.mp hhost
    rw [if_pos rfl, if_pos hin, Option.some.injEq] at hlistener
    subst hlistener
    rw [if_pos rfl]
    apply (h.known k host hhost).add _ hclosed
    intro hold
    obtain ⟨entry, hentry, hfresh⟩ := List.mem_map.mp hold
    exact Nat.ne_of_lt (h.link_lt hentry) hfresh
  · rw [if_neg hk] at hlistener
    rw [if_neg hk, List.append_nil]
    apply (h.known i listener hlistener).close
    intro entry hentry hbefore
    exact (hclosed entry hentry).mpr (.inl hbefore)

/-- Whatever happens, the trackers stay right. -/
theorem hosted_act (h : s.Hosted) (a : Action σ ρ) : (s.act a).Hosted := by
  refine ⟨seated_act h.seated a, owners_act h a, ?_⟩
  intro i listener hlistener
  have hmore : ∀ entry ∈ s.admitted i,
      s.isClosed entry.2 = true → (s.act a).isClosed entry.2 = true :=
    fun entry hentry => isClosed_act (h.link_lt hentry)
  cases s.hosts_act a with
  | kept trackers calm =>
    have hsame : (s.listeners.map (·.tracker))[i]? = some listener.tracker := by
      rw [← trackers, Array.getElem?_map, hlistener, Option.map_some]
    rw [Array.getElem?_map, Option.map_eq_some_iff] at hsame
    obtain ⟨before, hbefore, htracker⟩ := hsame
    rw [admitted_act calm, ← htracker]
    exact (h.known i before hbefore).close hmore
  | @listening new tracker listeners links sessions =>
    have hsame : (s.act a).admitted i = s.admitted i := admitted_congr (by rw [sessions]) i
    rw [listeners, Array.getElem?_push] at hlistener
    rw [hsame]
    split at hlistener
    · next hi =>
      cases hlistener
      rw [h.admitted_eq_nil (Nat.le_of_eq hi.symm), tracker]
      exact .ofLimit _ _
    · exact (h.known i listener hlistener).close hmore
  | accepting action known running =>
    subst action
    exact known_accept h known running hlistener
  | @stopping k before after calm known tracker listeners closed =>
    have hsame : (s.act a).admitted i = s.admitted i :=
      admitted_act fun j peer link haccept => absurd haccept (calm j peer link)
    rw [listeners, Array.getElem?_setIfInBounds] at hlistener
    rw [hsame]
    split at hlistener
    · next hi =>
      subst hi
      split at hlistener
      · cases hlistener
        rw [tracker]
        exact ((h.known k before known).clear hmore closed).1
      · cases hlistener
    · exact (h.known i listener hlistener).close hmore

theorem hosted_run (h : s.Hosted) (actions : List (Action σ ρ)) : (s.run actions).Hosted := by
  induction actions generalizing s with
  | nil => exact h
  | cons a rest ih => exact ih (hosted_act h a)

theorem hosted_ofSettings (settings : ServerSettings) :
    (ofSettings settings : Station σ ρ).Hosted where
  seated := seated_ofSettings settings
  owners n session known := by simp [ofSettings] at known
  known i listener known := by simp [ofSettings] at known

theorem alive_admitted (s : Station σ ρ) (i : Nat) :
    alive s.isClosed (s.admitted i) = (s.standing i).map Session.entry := by
  rw [alive, admitted, List.filter_map, standing]
  congr 2
  funext session
  rw [Function.comp_apply, Session.link_entry]

theorem isClosed_of_closed (h : s.Closed k) : s.isClosed k = true := by
  obtain ⟨link, on, hclosed⟩ := h
  rw [isClosed, on]
  exact hclosed

/-- Whoever has an open link reads it, or its release is still to come. -/
theorem live_or_awaits (h : s.Cleared) {session : Session} (hsession : session ∈ s.standing i) :
    session.live = true ∨ s.Awaits session.link := by
  obtain ⟨haccepted, hopen⟩ := List.mem_filter.mp hsession
  obtain ⟨⟨n, known⟩, id, hrole⟩ := mem_acceptedBy.mp haccepted
  cases hfault : session.fault? with
  | none =>
    left
    rw [Session.live, hfault]
    rfl
  | some fault =>
    right
    have hended := (h n session known).ended i id hrole (by rw [hfault]; simp)
    apply hended.resolve_left
    intro hclosed
    rw [isClosed_of_closed hclosed] at hopen
    cases hopen

/-- When a listener closes a link for a newcomer, as many of its links are open as it may keep, and
this one is the oldest of them. Who is on one of these links still reads it, or has ended and the
worker has not begun with the release. So if nobody who has ended waits for a release, the limit is
reached by those who read. -/
theorem accept_evicts (settings : ServerSettings) (actions : List (Action σ ρ)) {s : Station σ ρ}
    (reached : (ofSettings settings).run actions = s) {i m : Nat} {listener : Listener}
    (known : s.listeners[i]? = some listener) (limit : listener.tracker.limit = some m)
    {k : Nat} {peer : String} {link : Link} (opened : s.isClosed k = false)
    (gone : (s.act (.accept i peer link)).isClosed k = true) :
    ∃ oldest rest, s.standing i = oldest :: rest ∧ oldest.link = k ∧
      rest.length + 1 = max m 1 ∧
      (∀ session ∈ s.standing i, session.live = true ∨ s.Awaits session.link) ∧
      ((∀ session ∈ s.acceptedBy i, session.live = false → ¬ s.Awaits session.link) →
        oldest.live = true ∧ max m 1 ≤ (s.acceptedBy i).countP (·.live)) := by
  have hhosted : s.Hosted := reached ▸ hosted_run (hosted_ofSettings settings) actions
  have hcleared : s.Cleared :=
    reached ▸ cleared_run (cleared_ofSettings settings) (seated_ofSettings settings) actions
  cases hrunning : listener.running with
  | false =>
    rw [act, accept_of_still fun other hother => ?_, opened] at gone
    · cases gone
    · rw [known, Option.some.injEq] at hother
      rwa [← hother]
  | true =>
    rw [act, isClosed_accept known hrunning peer link (lt_of_isClosed opened)] at gone
    obtain ⟨entry, hentry, hlink⟩ := List.mem_map.mp
      (gone.resolve_left fun hclosed => Bool.false_ne_true (opened.symm.trans hclosed))
    obtain ⟨others, hstanding, hlength⟩ :=
      (hhosted.known i listener known).oldest_of_gone limit hentry
    rw [alive_admitted, List.map_eq_cons_iff] at hstanding
    obtain ⟨oldest, rest, hstanding, holdest, rfl⟩ := hstanding
    rw [List.length_map] at hlength
    have hlive := fun session (h : session ∈ s.standing i) => live_or_awaits hcleared h
    refine ⟨oldest, rest, hstanding, ?_, hlength, hlive, ?_⟩
    · rw [← hlink, ← holdest, Session.link_entry]
    · intro hbegun
      have hreads : ∀ session ∈ s.standing i, session.live = true := by
        intro session hsession
        by_contra hended
        have haccepted := (List.mem_filter.mp hsession).1
        rcases hlive session hsession with hlive | hawaits
        · exact hended hlive
        · exact hbegun session haccepted ((Bool.not_eq_true _).mp hended) hawaits
      refine ⟨hreads oldest (by rw [hstanding]; exact List.mem_cons_self), ?_⟩
      calc
        max m 1 = (s.standing i).length := by rw [hstanding, List.length_cons, hlength]
        _ = (s.standing i).countP (·.live) := (List.countP_eq_length.mpr hreads).symm
        _ ≤ (s.acceptedBy i).countP (·.live) := List.Sublist.countP_le List.filter_sublist

/-- A listener that keeps two links, after two have come in. -/
def crowd : List (Action Unit Unit) :=
  [.listen "here", .accept 0 "a" (.fresh 64 64 false none), .accept 0 "b" (.fresh 64 64 false none)]

/-- Both read, so the older goes. -/
theorem accept_evicts_reading :
    let s := (ofSettings ⟨⟨1⟩, .uniform 2, .ofSeconds 1, some 2, .nothing⟩).run crowd
    s.isClosed 0 = false ∧
      (s.act (.accept 0 "c" (.fresh 64 64 false none))).isClosed 0 = true ∧
      ∃ oldest rest, s.standing 0 = oldest :: rest ∧ oldest.link = 0 ∧ oldest.live = true ∧
        2 ≤ (s.acceptedBy 0).countP (·.live) := by
  intro s
  have opened : s.isClosed 0 = false := by decide
  have gone : (s.act (.accept 0 "c" (.fresh 64 64 false none))).isClosed 0 = true := by decide
  have hreads : ∀ session ∈ s.acceptedBy 0, session.live = true := by decide
  obtain ⟨oldest, rest, hstanding, hlink, -, -, hbegun⟩ :=
    accept_evicts _ crowd (s := s) rfl (i := 0) rfl rfl opened gone
  obtain ⟨hlive, hcount⟩ := hbegun fun session hsession hended =>
    absurd (hreads session hsession) (by rw [hended]; exact Bool.false_ne_true)
  exact ⟨opened, gone, oldest, rest, hstanding, hlink, hlive, hcount⟩

/-- The younger has ended, and its release waits for the worker. The older reads, and goes. -/
theorem live_evicted_for_ended :
    let s := (ofSettings ⟨⟨1⟩, .uniform 2, .ofSeconds 1, some 2, .nothing⟩).run
      (crowd ++ [.finish 1, .step (.session 1), .step (.session 1)])
    s.listeners[0]?.map (·.tracker.limit) = some (some 2) ∧
      (s.acceptedBy 0).map (fun session => (session.link, session.live)) =
        [(0, true), (1, false)] ∧
      s.worker.queue = [.release 1] ∧
      s.isClosed 0 = false ∧
      (s.act (.accept 0 "c" (.fresh 64 64 false none))).isClosed 0 = true :=
  ⟨rfl, by decide, rfl, by decide, by decide⟩

end

end Station

end ModbusSlave
