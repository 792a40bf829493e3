import ModbusSlave.Proofs.Station.Worker

/-!
# Links and their neighbours

Most of what happens to a station has nothing to do with a given link: it can at most be closed. The
link belongs to one session and to nothing else, and that stays so as long as nobody outside names
it.
-/
namespace ModbusSlave

/-- The ports that the shutdown still has to deal with. -/
def Closing.remaining : Closing → List Port
  | .portLinks rest => rest
  | .ports rest _ => rest
  | _ => []

/-- An action that does not reach for the link past its two ends and the station: no message about
it comes from outside, nothing is written past the queue, and its medium does not fail. -/
def Action.Spares {σ ρ : Type} (i : Nat) : Action σ ρ → Prop
  | .submit message => message.link? ≠ some i
  | .write link _ _ => link ≠ i
  | .breakDown link _ => link ≠ i
  | _ => True

instance {σ ρ : Type} (i : Nat) : (a : Action σ ρ) → Decidable (a.Spares i)
  | .submit message => inferInstanceAs (Decidable (message.link? ≠ some i))
  | .write link _ _ => inferInstanceAs (Decidable (link ≠ i))
  | .breakDown link _ => inferInstanceAs (Decidable (link ≠ i))
  | .arrive _ _ | .finish _ | .collect _ _ | .deafen _ | .attach _ _ _ | .listen _
  | .accept _ _ _ | .failAccept _ _ | .addPort _ _ | .call _ | .close _ | .setLevel _ | .shutDown
  | .tick | .sessionStop _ | .step _ => isTrue trivial

/-- The actions that may do more to the link or its session than close the link. -/
def Action.Concerns {σ ρ : Type} (i j : Nat) : Action σ ρ → Prop
  | .arrive link _ | .finish link | .collect link _ | .deafen link => link = i
  | .step .worker => True
  | .step (.session index) | .sessionStop index => index = j
  | _ => False

/-- The actions that add to the station, ask something of it or close links, and touch nothing of a
link but that. -/
def Action.Aloof {σ ρ : Type} : Action σ ρ → Prop
  | .attach _ _ _ | .listen _ | .accept _ _ _ | .failAccept _ _ | .addPort _ _ | .submit _
  | .call _ | .close _ | .write _ _ _ | .setLevel _ | .shutDown | .tick
  | .step (.listener _) => True
  | _ => False

namespace Station

variable {σ ρ : Type}

structure SameShape (s t : Station σ ρ) : Prop where
  sessions : t.sessions.map (·.link) = s.sessions.map (·.link)
  links : t.links.size = s.links.size
  writers : t.writers.map (·.write.link) = s.writers.map (·.write.link)
  ports : t.ports = s.ports
  closing : t.closing = s.closing

/-- The link `i` belongs to the session `j` at most. -/
structure Apart (i j : Nat) (s : Station σ ρ) : Prop where
  sessions : ∀ k session, s.sessions[k]? = some session → session.link = i → k = j
  writers : ∀ writer ∈ s.writers, writer.write.link ≠ i
  ports : ∀ port ∈ s.ports, port.link ≠ i
  closing : ∀ port ∈ s.closing.remaining, port.link ≠ i

/-- The link `i` is closed at most, and the session `j` stays as it is. -/
structure Leaves (i j : Nat) (s t : Station σ ρ) : Prop where
  link : ∀ link, s.links[i]? = some link →
    ∃ closed, t.links[i]? = some { link with closed := link.closed || closed }
  session : ∀ session, s.sessions[j]? = some session → t.sessions[j]? = some session

/-- The link `i` of `t` is what the link `i` of `s` may become. -/
def Becomes (i : Nat) (R : Link → Link → Prop) (s t : Station σ ρ) : Prop :=
  ∀ link, s.links[i]? = some link → ∃ after, t.links[i]? = some after ∧ R link after

theorem SameShape.refl (s : Station σ ρ) : s.SameShape s := ⟨rfl, rfl, rfl, rfl, rfl⟩

theorem SameShape.trans {s t u : Station σ ρ} (h : s.SameShape t) (h' : t.SameShape u) :
    s.SameShape u :=
  ⟨h'.sessions.trans h.sessions, h'.links.trans h.links, h'.writers.trans h.writers,
    h'.ports.trans h.ports, h'.closing.trans h.closing⟩

section

variable {i j : Nat} {s t u : Station σ ρ}

theorem Leaves.refl : s.Leaves i j s := by
  constructor
  · intro link h
    exact ⟨false, by rw [h, Bool.or_false]⟩
  · intro session h
    exact h

theorem Leaves.trans (h : s.Leaves i j t) (h' : t.Leaves i j u) : s.Leaves i j u := by
  constructor
  · intro link hlink
    obtain ⟨closed, ht⟩ := h.link link hlink
    obtain ⟨closed', hu⟩ := h'.link _ ht
    exact ⟨closed || closed', by rw [hu, Bool.or_assoc]⟩
  · intro session hsession
    exact h'.session session (h.session session hsession)

theorem leaves_of_eq (hlinks : t.links = s.links) (hsessions : t.sessions = s.sessions) :
    s.Leaves i j t := by
  constructor
  · intro link h
    exact ⟨false, by rw [hlinks, h, Bool.or_false]⟩
  · intro session h
    rw [hsessions, h]

theorem becomes_of_eq {R : Link → Link → Prop} (hR : ∀ link, R link link)
    (h : t.links = s.links) : s.Becomes i R t := by
  intro link hlink
  exact ⟨link, by rw [h, hlink], hR link⟩

theorem Becomes.trans {R : Link → Link → Prop} (hR : ∀ {a b c}, R a b → R b c → R a c)
    (h : s.Becomes i R t) (h' : t.Becomes i R u) : s.Becomes i R u := by
  intro link hlink
  obtain ⟨after, hafter, hfirst⟩ := h link hlink
  obtain ⟨last, hlast, hsecond⟩ := h' after hafter
  exact ⟨last, hlast, hR hfirst hsecond⟩

theorem Leaves.becomes {R : Link → Link → Prop}
    (hR : ∀ (link : Link) (closed : Bool), R link { link with closed := link.closed || closed })
    (h : s.Leaves i j t) : s.Becomes i R t := by
  intro link hlink
  obtain ⟨closed, hafter⟩ := h.link link hlink
  exact ⟨_, hafter, hR link closed⟩

theorem becomes_setLink {R : Link → Link → Prop} (hR : ∀ link, R link link) {k : Nat}
    {before after : Link} (hk : s.links[k]? = some before) (h : R before after) :
    s.Becomes i R (s.setLink k after) := by
  intro link hlink
  by_cases hki : k = i
  · subst hki
    obtain ⟨hsize, -⟩ := Array.getElem?_eq_some_iff.mp hk
    obtain rfl := Option.some.inj (hk.symm.trans hlink)
    exact ⟨after, Array.getElem?_setIfInBounds_self_of_lt hsize, h⟩
  · exact ⟨link, by rw [links_setLink_of_ne s after hki, hlink], hR link⟩

theorem becomes_modifyLink {R : Link → Link → Prop} (hR : ∀ link, R link link)
    (s : Station σ ρ) {k : Nat} {f : Link → Link} (h : ∀ link, R link (f link)) :
    s.Becomes i R (s.modifyLink k f) := by
  intro link hlink
  by_cases hki : k = i
  · refine ⟨f link, ?_, h link⟩
    rw [modifyLink, hki, Array.getElem?_modify, if_pos rfl, hlink, Option.map_some]
  · refine ⟨link, ?_, hR link⟩
    rw [modifyLink, Array.getElem?_modify, if_neg hki, hlink]

theorem leaves_note (s : Station σ ρ) (events : List Event) : s.Leaves i j (s.note events) :=
  leaves_of_eq rfl rfl

theorem leaves_setLink (s : Station σ ρ) {k : Nat} (link : Link) (h : k ≠ i) :
    s.Leaves i j (s.setLink k link) := by
  constructor
  · intro before hbefore
    exact ⟨false, by rw [links_setLink_of_ne s link h, hbefore, Bool.or_false]⟩
  · intro session hsession
    exact hsession

theorem leaves_closeLink (s : Station σ ρ) (k : Nat) : s.Leaves i j (s.closeLink k) := by
  constructor
  · intro link hlink
    by_cases h : k = i
    · refine ⟨true, ?_⟩
      rw [closeLink, h, Array.getElem?_modify, if_pos rfl, hlink, Bool.or_true]
      rfl
    · exact ⟨false, by rw [links_closeLink_of_ne s h, hlink, Bool.or_false]⟩
  · intro session hsession
    exact hsession

theorem leaves_modifyLink (s : Station σ ρ) {k : Nat} (f : Link → Link) (h : k ≠ i) :
    s.Leaves i j (s.modifyLink k f) := by
  constructor
  · intro link hlink
    exact ⟨false, by rw [modifyLink, Array.getElem?_modify, if_neg h, hlink, Bool.or_false]⟩
  · intro session hsession
    exact hsession

theorem leaves_setSession (s : Station σ ρ) {k : Nat} (session : Session) (h : k ≠ j) :
    s.Leaves i j (s.setSession k session) := by
  constructor
  · intro link hlink
    exact ⟨false, by rw [setSession, hlink, Bool.or_false]⟩
  · intro before hbefore
    rw [setSession, Array.getElem?_setIfInBounds_ne h, hbefore]

theorem leaves_attach (s : Station σ ρ) (link : Link) (parser : Parser) (policy : FaultPolicy)
    (role : Role) : s.Leaves i j (s.attach link parser policy role) := by
  constructor
  · intro before hbefore
    obtain ⟨hi, -⟩ := Array.getElem?_eq_some_iff.mp hbefore
    refine ⟨false, ?_⟩
    rw [attach, Array.getElem?_push_lt hi, Bool.or_false, ← hbefore, Array.getElem?_eq_getElem hi]
  · intro session hsession
    obtain ⟨hj, -⟩ := Array.getElem?_eq_some_iff.mp hsession
    rw [attach, Array.getElem?_push_lt hj, ← hsession, Array.getElem?_eq_getElem hj]

theorem leaves_foldl {α : Type} (f : Station σ ρ → α → Station σ ρ)
    (h : ∀ (s : Station σ ρ) a, s.Leaves i j (f s a)) (s : Station σ ρ) (l : List α) :
    s.Leaves i j (l.foldl f s) := by
  induction l generalizing s with
  | nil => exact .refl
  | cons a l ih => exact (h s a).trans (ih (f s a))

theorem sameShape_foldl {α : Type} (f : Station σ ρ → α → Station σ ρ)
    (h : ∀ (s : Station σ ρ) a, s.SameShape (f s a)) (s : Station σ ρ) (l : List α) :
    s.SameShape (l.foldl f s) := by
  induction l generalizing s with
  | nil => exact .refl s
  | cons a l ih => exact (h s a).trans (ih (f s a))

theorem sameShape_note (s : Station σ ρ) (events : List Event) : s.SameShape (s.note events) :=
  ⟨rfl, rfl, rfl, rfl, rfl⟩

@[simp] theorem links_enqueue (s : Station σ ρ) (message : Message σ ρ) :
    (s.enqueue message).links = s.links := by
  unfold enqueue
  split <;> rfl

@[simp] theorem sessions_enqueue (s : Station σ ρ) (message : Message σ ρ) :
    (s.enqueue message).sessions = s.sessions := by
  unfold enqueue
  split <;> rfl

theorem sameShape_enqueue (s : Station σ ρ) (message : Message σ ρ) :
    s.SameShape (s.enqueue message) := by
  unfold enqueue
  split <;> exact ⟨rfl, rfl, rfl, rfl, rfl⟩

theorem sameShape_setLink (s : Station σ ρ) (k : Nat) (link : Link) :
    s.SameShape (s.setLink k link) := by
  refine ⟨rfl, ?_, rfl, rfl, rfl⟩
  rw [setLink, Array.size_setIfInBounds]

theorem sameShape_closeLink (s : Station σ ρ) (k : Nat) : s.SameShape (s.closeLink k) := by
  refine ⟨rfl, ?_, rfl, rfl, rfl⟩
  rw [closeLink, Array.size_modify]

theorem sameShape_modifyLink (s : Station σ ρ) (k : Nat) (f : Link → Link) :
    s.SameShape (s.modifyLink k f) := by
  refine ⟨rfl, ?_, rfl, rfl, rfl⟩
  rw [modifyLink, Array.size_modify]

theorem sameShape_setSession (s : Station σ ρ) {k : Nat} {before : Session} (session : Session)
    (hbefore : s.sessions[k]? = some before) (hlink : session.link = before.link) :
    s.SameShape (s.setSession k session) := by
  refine ⟨?_, rfl, rfl, rfl, rfl⟩
  apply Array.ext_getElem?
  intro n
  rw [setSession, Array.getElem?_map, Array.getElem?_map, Array.getElem?_setIfInBounds]
  by_cases h : k = n
  · obtain ⟨hk, -⟩ := Array.getElem?_eq_some_iff.mp hbefore
    rw [← h, if_pos rfl, if_pos hk, hbefore, Option.map_some, Option.map_some, hlink]
  · rw [if_neg h]

theorem leaves_leave (s : Station σ ρ) {k : Nat} (session : Session) (fault : RequestFault)
    (hk : k ≠ j) (hlink : session.link ≠ i) : s.Leaves i j (s.leave k session fault) := by
  unfold leave
  split
  · have hclose := leaves_modifyLink (j := j) s
      (fun l => { l with incoming := l.incoming.close }) hlink
    exact hclose.trans (leaves_setSession _ _ hk)
  · exact (leaves_note s _).trans (leaves_setSession _ _ hk)
  · dsimp only
    split
    · exact (leaves_note s _).trans (leaves_setSession _ _ hk)
    · refine Leaves.trans ?_ (leaves_setSession _ _ hk)
      exact leaves_of_eq (links_enqueue _ _) (sessions_enqueue _ _)

theorem leaves_carryOut (s : Station σ ρ) {k : Nat} (step : Session × Demand × List Event)
    (hk : k ≠ j) (hlink : step.1.link ≠ i) : s.Leaves i j (s.carryOut k step) := by
  obtain ⟨session, demand, events⟩ := step
  have hnote : s.Leaves i j (s.note events) := s.leaves_note events
  cases demand with
  | nothing => exact hnote.trans (leaves_setSession _ _ hk)
  | leave fault => exact hnote.trans (leaves_leave _ _ _ hk hlink)
  | submit frame =>
    simp only [carryOut]
    split
    · exact hnote.trans (leaves_leave _ _ _ hk hlink)
    · refine Leaves.trans ?_ (leaves_setSession _ _ hk)
      exact hnote.trans (leaves_of_eq (links_enqueue _ _) (sessions_enqueue _ _))

theorem sameShape_leave (s : Station σ ρ) {k : Nat} {before : Session} (session : Session)
    (fault : RequestFault) (hbefore : s.sessions[k]? = some before)
    (hlink : session.link = before.link) : s.SameShape (s.leave k session fault) := by
  cases hr : session.role with
  | bare =>
    simp only [leave, hr]
    have hclose := s.sameShape_modifyLink session.link
      fun l => { l with incoming := l.incoming.close }
    exact hclose.trans (sameShape_setSession (s.modifyLink _ _) _ hbefore hlink)
  | port name =>
    simp only [leave, hr]
    exact (sameShape_note s _).trans (sameShape_setSession (s.note _) _ hbefore hlink)
  | accepted listener id =>
    simp only [leave, hr]
    have hnote := s.sameShape_note [.sessionEnded id fault]
    split
    · exact hnote.trans (sameShape_setSession (s.note _) _ hbefore hlink)
    · have hqueue := sameShape_enqueue (s.note [.sessionEnded id fault]) (.release session.link)
      have hsame :
          ((s.note [.sessionEnded id fault]).enqueue (.release session.link)).sessions[k]? =
          some before := by
        rw [sessions_enqueue]
        exact hbefore
      exact (hnote.trans hqueue).trans (sameShape_setSession _ _ hsame hlink)

theorem sameShape_carryOut (s : Station σ ρ) {k : Nat} {before : Session}
    (step : Session × Demand × List Event) (hbefore : s.sessions[k]? = some before)
    (hlink : step.1.link = before.link) : s.SameShape (s.carryOut k step) := by
  obtain ⟨session, demand, events⟩ := step
  have hnote := s.sameShape_note events
  cases demand with
  | nothing => exact hnote.trans (sameShape_setSession (s.note events) session hbefore hlink)
  | leave fault => exact hnote.trans (sameShape_leave (s.note events) session fault hbefore hlink)
  | submit frame =>
    simp only [carryOut]
    split
    · exact hnote.trans (sameShape_leave (s.note events) session _ hbefore hlink)
    · refine (hnote.trans (sameShape_enqueue (s.note events) _)).trans
        (sameShape_setSession _ session ?_ hlink)
      rw [sessions_enqueue]
      exact hbefore

theorem frame_of_sessionStep? {k : Nat} (h : s.sessionStep? k = some t) :
    s.SameShape t ∧ ∃ session, s.sessions[k]? = some session ∧
      (k ≠ j → session.link ≠ i → s.Leaves i j t) := by
  cases hk : s.sessions[k]? with
  | none => simp [sessionStep?, hk] at h
  | some session =>
    cases hp : session.phase with
    | parsing level =>
      simp only [sessionStep?, hk, hp, Option.bind_eq_bind, Option.bind_some,
        Option.some.injEq] at h
      subst h
      refine ⟨sameShape_carryOut s _ hk (link_parse _ _), session, rfl, ?_⟩
      intro hne hlink
      exact leaves_carryOut s _ hne (by rwa [link_parse])
    | reading level =>
      simp only [sessionStep?, hk, hp, Option.bind_eq_bind, Option.bind_some,
        Option.bind_eq_some_iff, Option.some.injEq] at h
      obtain ⟨link, -, ⟨got, incoming⟩, -, rfl⟩ := h
      refine ⟨?_, session, rfl, ?_⟩
      · refine (sameShape_setLink s _ _).trans (sameShape_carryOut _ _ ?_ (link_receive _ _ _))
        exact hk
      · intro hne hlink
        exact (leaves_setLink s _ hlink).trans (leaves_carryOut _ _ hne (by rwa [link_receive]))
    | departing fault stage =>
      simp only [sessionStep?, hk, hp, Option.bind_eq_bind, Option.bind_some,
        Option.bind_eq_some_iff, Option.some.injEq] at h
      obtain ⟨link, -, ⟨after, next⟩, -, rfl⟩ := h
      refine ⟨?_, session, rfl, ?_⟩
      · exact (sameShape_setLink s _ _).trans (sameShape_setSession _ _ hk rfl)
      · intro hne hlink
        exact (leaves_setLink s _ hlink).trans (leaves_setSession _ _ hne)
    | «over» fault => simp [sessionStep?, hk, hp] at h

theorem frame_of_sessionStop? {k : Nat} (h : s.sessionStop? k = some t) :
    s.SameShape t ∧ ∃ session, s.sessions[k]? = some session ∧
      (k ≠ j → session.link ≠ i → s.Leaves i j t) := by
  cases hk : s.sessions[k]? with
  | none => simp [sessionStop?, hk] at h
  | some session =>
    simp only [sessionStop?, hk, Option.bind_eq_bind, Option.bind_some,
      Option.ite_none_right_eq_some, Option.some.injEq] at h
    obtain ⟨-, rfl⟩ := h
    refine ⟨sameShape_leave s session _ hk rfl, session, rfl, ?_⟩
    intro hne hlink
    exact leaves_leave s session _ hne hlink

theorem frame_of_writerStep? {k : Nat} (h : s.writerStep? k = some t) :
    s.SameShape t ∧ ∃ writer ∈ s.writers, writer.write.link ≠ i → s.Leaves i j t := by
  simp only [writerStep?, Option.bind_eq_bind, Option.bind_eq_some_iff] at h
  obtain ⟨writer, hwriter, h⟩ := h
  have hmem : writer ∈ s.writers := Array.mem_of_getElem? hwriter
  split at h
  · cases h
  · simp only [Option.bind_eq_some_iff, Option.some.injEq] at h
    obtain ⟨link, -, step, -, rfl⟩ := h
    have hsame := (sameShape_setLink s writer.write.link step.link).trans
      (sameShape_note _ step.events)
    refine ⟨⟨hsame.sessions, hsame.links, ?_, hsame.ports, hsame.closing⟩, writer, hmem, ?_⟩
    · have hwriters : ((s.setLink writer.write.link step.link).note step.events).writers =
          s.writers := rfl
      apply Array.ext_getElem?
      intro n
      rw [Array.getElem?_map, Array.getElem?_map, Array.getElem?_setIfInBounds, hwriters]
      by_cases hk : k = n
      · obtain ⟨hsize, -⟩ := Array.getElem?_eq_some_iff.mp hwriter
        rw [← hk, if_pos rfl, if_pos hsize, hwriter, Option.map_some, Option.map_some]
        cases step.next <;> rfl
      · rw [if_neg hk]
    · intro hlink
      have hleaves := (leaves_setLink (j := j) s step.link hlink).trans
        (leaves_note _ step.events)
      exact hleaves.trans (leaves_of_eq rfl rfl)

theorem frame_of_halts {k : Nat} (h : s.Halts k t) : s.SameShape t ∧ s.Leaves i j t := by
  obtain @⟨listener, events, -, -⟩ := h
  have hsame := (sameShape_note s events).trans
    (sameShape_foldl (fun s (x : Nat × Nat) => s.closeLink x.2)
      (fun s x => sameShape_closeLink s x.2) _ listener.tracker.sessions)
  have hleaves := (leaves_note (i := i) (j := j) s events).trans
    (leaves_foldl (fun s (x : Nat × Nat) => s.closeLink x.2)
      (fun s x => leaves_closeLink s x.2) _ listener.tracker.sessions)
  constructor
  · exact ⟨hsame.sessions, hsame.links, hsame.writers, hsame.ports, hsame.closing⟩
  · exact hleaves.trans (leaves_of_eq rfl rfl)

theorem frame_of_cancelListener (s : Station σ ρ) (k : Nat) :
    s.SameShape (s.cancelListener k) ∧ s.Leaves i j (s.cancelListener k) := by
  let cancelled : Station σ ρ :=
    { s with listeners := s.listeners.modify k fun l => { l with cancelled := true } }
  have hsame : s.SameShape cancelled := ⟨rfl, rfl, rfl, rfl, rfl⟩
  have hleaves : s.Leaves i j cancelled := leaves_of_eq rfl rfl
  constructor
  · exact hsame.trans (sameShape_foldl (fun s (session : Session) => s.closeLink session.link)
      (fun s session => sameShape_closeLink s session.link) _ _)
  · exact hleaves.trans (leaves_foldl (fun s (session : Session) => s.closeLink session.link)
      (fun s session => leaves_closeLink s session.link) _ _)

/-- What an action does to the shape of a station. -/
inductive Reshapes (s : Station σ ρ) (a : Action σ ρ) (t : Station σ ρ) : Prop
  /-- Nothing comes in; ports may be handed over to the shutdown. -/
  | kept (sessions : t.sessions.map (·.link) = s.sessions.map (·.link))
      (links : t.links.size = s.links.size)
      (writers : t.writers.map (·.write.link) = s.writers.map (·.write.link))
      (ports : ∀ port ∈ t.ports, port ∈ s.ports)
      (closing : ∀ port ∈ t.closing.remaining, port ∈ s.closing.remaining ∨ port ∈ s.ports)
  /-- A link comes in with a session on it. -/
  | attached (sessions : t.sessions.map (·.link) = (s.sessions.map (·.link)).push s.links.size)
      (links : t.links.size = s.links.size + 1)
      (writers : t.writers.map (·.write.link) = s.writers.map (·.write.link))
      (ports : ∀ port ∈ t.ports, port ∈ s.ports ∨ port.link = s.links.size)
      (closing : t.closing = s.closing)
  /-- A write past the queue comes in. -/
  | written {link : Nat} {bytes : Bytes} {level : PhysicalLevel}
      (action : a = .write link bytes level) (state : t = s.write link bytes level)

theorem SameShape.reshapes {a : Action σ ρ} (h : s.SameShape t) : s.Reshapes a t := by
  refine .kept h.sessions h.links h.writers ?_ ?_
  · intro port hport
    rwa [h.ports] at hport
  · intro port hport
    rw [h.closing] at hport
    exact .inl hport

/-- Whatever else the shutdown does, it is left with ports it had or with those that were there. -/
theorem SameShape.reshapes_closing {a : Action σ ρ} (h : s.SameShape t) {closing : Closing}
    (hports : ∀ port ∈ closing.remaining, port ∈ s.closing.remaining ∨ port ∈ s.ports) :
    s.Reshapes a { t with closing } := by
  refine .kept h.sessions h.links h.writers ?_ hports
  intro port hport
  rwa [← h.ports]

theorem SameShape.reshapes_attach {a : Action σ ρ} (h : s.SameShape t) (link : Link)
    (parser : Parser) (policy : FaultPolicy) (role : Role) :
    s.Reshapes a (t.attach link parser policy role) := by
  refine .attached ?_ ?_ h.writers ?_ h.closing
  · rw [attach, Array.map_push, h.sessions, ← h.links]
    rfl
  · rw [attach, Array.size_push, h.links]
  · intro port hport
    have hsame : port ∈ t.ports := hport
    rw [h.ports] at hsame
    exact .inl hsame

theorem mem_stopOrder {port : Port} (h : port ∈ s.stopOrder) : port ∈ s.ports := by
  rw [stopOrder, List.mem_append] at h
  rcases h with h | h
  · exact List.mem_of_getLast? (Option.mem_toList.mp h)
  · exact List.dropLast_subset _ h

theorem frame_of_closingMove (h : s.ClosingMove t) :
    (∀ a : Action σ ρ, s.Reshapes a t) ∧
      ((∀ port ∈ s.closing.remaining, port.link ≠ i) → s.Leaves i j t) := by
  -- the stages that name no port
  have none_left {u : Station σ ρ} (hsame : s.SameShape u) (hleaves : s.Leaves i j u)
      {closing : Closing} (hclosing : closing.remaining = []) :
      (∀ a : Action σ ρ, s.Reshapes a { u with closing }) ∧
        ((∀ port ∈ s.closing.remaining, port.link ≠ i) → s.Leaves i j { u with closing }) := by
    refine ⟨fun a => hsame.reshapes_closing ?_, fun _ => hleaves.trans (leaves_of_eq rfl rfl)⟩
    rw [hclosing]
    exact List.forall_mem_nil _
  cases h with
  | listenersGone => exact none_left (.refl s) .refl rfl
  | skips => exact none_left (.refl s) .refl rfl
  | cancels =>
    obtain ⟨hsame, hleaves⟩ := frame_of_cancelListener (i := i) (j := j) s _
    exact ⟨fun a => hsame.reshapes, fun _ => hleaves⟩
  | joins => exact none_left (s.sameShape_note _) (s.leaves_note _) rfl
  | sessionsGone =>
    refine ⟨fun a => (SameShape.refl s).reshapes_closing ?_, fun _ => leaves_of_eq rfl rfl⟩
    intro port hport
    exact .inr (mem_stopOrder hport)
  | linksClosed => exact none_left (.refl s) .refl rfl
  | @closes port rest closing =>
    refine ⟨fun a => (s.sameShape_closeLink port.link).reshapes_closing ?_, ?_⟩
    · intro other hother
      left
      rw [closing]
      exact List.mem_cons_of_mem port hother
    · intro _
      exact (leaves_closeLink s port.link).trans (leaves_of_eq rfl rfl)
  | portsGone =>
    refine ⟨fun a => .kept rfl rfl rfl (List.forall_mem_nil _) ?_, fun _ => leaves_of_eq rfl rfl⟩
    intro port hport
    exact .inr hport
  | @shutting port rest stage next link after closing =>
    refine ⟨fun a => (s.sameShape_setLink port.link after).reshapes_closing ?_, ?_⟩
    · intro other hother
      left
      rwa [closing]
    · intro hne
      rw [closing] at hne
      have hport := hne port List.mem_cons_self
      exact (leaves_setLink s after hport).trans (leaves_of_eq rfl rfl)
  | @shut port rest stage link after closing =>
    have hsame := s.sameShape_setLink port.link { after with incoming := after.incoming.close }
    have hnote := hsame.trans (sameShape_note _ [.portClosed port.name])
    refine ⟨fun a => hnote.reshapes_closing ?_, ?_⟩
    · intro other hother
      left
      rw [closing]
      exact List.mem_cons_of_mem port hother
    · intro hne
      rw [closing] at hne
      have hport := hne port List.mem_cons_self
      exact (leaves_setLink s _ hport).trans (leaves_of_eq rfl rfl)
  | stops =>
    exact none_left (s.sameShape_enqueue .stop)
      (leaves_of_eq (links_enqueue s .stop) (sessions_enqueue s .stop)) rfl
  | skipsStop => exact none_left (s.sameShape_note _) (s.leaves_note _) rfl
  | closed => exact none_left (s.sameShape_note _) (s.leaves_note _) rfl

/-- Before a link is attached, those for which there is no place any more are closed. A listener
that does not run attaches none. -/
theorem frame_of_accept (s : Station σ ρ) (k : Nat) (peer : String) (link : Link) :
    (s.accept k peer link = s ∧
        ∀ listener, s.listeners[k]? = some listener → listener.running = false) ∨
      ∃ u cancelled id, s.SameShape u ∧ s.Leaves i j u ∧ s.accept k peer link =
        u.attach { link with closed := cancelled } (.mbap .start) .close (.accepted k id) := by
  unfold accept
  split
  · next hnone =>
    refine .inl ⟨rfl, ?_⟩
    intro listener hlistener
    rw [hnone] at hlistener
    cases hlistener
  · next listener hl =>
    split
    · right
      obtain ⟨tracker, id, gone⟩ := listener.tracker.add s.isClosed s.links.size
      dsimp only
      have hstep : ∀ (s : Station σ ρ) (x : Nat × Nat),
          s.SameShape ((s.note [.evicted x.1]).closeLink x.2) ∧
            s.Leaves i j ((s.note [.evicted x.1]).closeLink x.2) := by
        intro s x
        exact ⟨(sameShape_note s _).trans (sameShape_closeLink _ x.2),
          (leaves_note s _).trans (leaves_closeLink _ x.2)⟩
      have hsame := sameShape_foldl (fun s (x : Nat × Nat) => (s.note [.evicted x.1]).closeLink x.2)
        (fun s x => (hstep s x).1) s gone
      have hleaves := leaves_foldl (fun s (x : Nat × Nat) => (s.note [.evicted x.1]).closeLink x.2)
        (fun s x => (hstep s x).2) s gone
      refine ⟨_, listener.cancelled, id, ?_, ?_, rfl⟩
      · have hnote := hsame.trans (sameShape_note _ [.accepted id peer])
        exact ⟨hnote.sessions, hnote.links, hnote.writers, hnote.ports, hnote.closing⟩
      · exact (hleaves.trans (leaves_note _ [.accepted id peer])).trans (leaves_of_eq rfl rfl)
    · next hstill =>
      refine .inl ⟨rfl, ?_⟩
      intro other hother
      obtain rfl := Option.some.inj (hl.symm.trans hother)
      exact (Bool.not_eq_true _).mp hstill

theorem reshapes_addPort {a : Action σ ρ} (s : Station σ ρ) (name : String) (link : Link) :
    s.Reshapes a (s.addPort name link) := by
  unfold addPort
  split
  · refine .attached ?_ ?_ rfl ?_ rfl
    · rw [attach, Array.map_push]
      rfl
    · rw [attach, Array.size_push]
      rfl
    · intro port hport
      rcases List.mem_append.mp hport with hold | hnew
      · exact .inl hold
      · obtain rfl := List.mem_singleton.mp hnew
        exact .inr rfl
  · exact (SameShape.refl s).reshapes

theorem sameShape_writeFailed (s : Station σ ρ) (k : Nat) (fault : WriteFault) :
    s.SameShape (s.writeFailed k fault) := by
  unfold writeFailed
  dsimp only
  split
  · exact s.sameShape_note _
  · exact (s.sameShape_note _).trans (sameShape_closeLink _ k)

theorem sameShape_leaveLock (s : Station σ ρ) (k : Nat) : s.SameShape (s.leaveLock k) :=
  s.sameShape_modifyLink k fun l => l.release .worker

theorem sameShape_setJob (s : Station σ ρ) (job : Job) : s.SameShape (s.setJob job) :=
  ⟨rfl, rfl, rfl, rfl, rfl⟩

theorem sameShape_of_move (h : s.WorkerMove t) : s.SameShape t := by
  cases h with
  | take idle waiting taken =>
    obtain ⟨hlinks, hsessions, hwriters, hports, hclosing⟩ := frame_of_takeMessage? taken
    exact ⟨by rw [hsessions], by rw [hlinks], by rw [hwriters], hports, hclosing⟩
  | @write write deadline link step job known hstep =>
    have hlink := (sameShape_setLink s write.link step.link).trans (sameShape_note _ step.events)
    unfold afterWrite
    split
    · exact hlink.trans (sameShape_setJob _ _)
    · exact hlink.trans (sameShape_setJob _ _)
    · exact (hlink.trans (sameShape_writeFailed _ _ _)).trans (sameShape_setJob _ _)
  | giveUpWrite job =>
    exact ((sameShape_leaveLock s _).trans (sameShape_writeFailed _ _ _)).trans
      (sameShape_setJob _ _)
  | @release k deadline stage link after next job known hstep =>
    cases next with
    | none => exact (sameShape_setLink s k after).trans (sameShape_setJob _ _)
    | some stage => exact (sameShape_setLink s k after).trans (sameShape_setJob _ _)
  | giveUpRelease job =>
    exact ((sameShape_leaveLock s _).trans (sameShape_note _ _)).trans (sameShape_setJob _ _)

theorem reshapes_act (s : Station σ ρ) (a : Action σ ρ) : s.Reshapes a (s.act a) := by
  have same := (SameShape.refl s).reshapes (a := a)
  cases a with
  | arrive k bytes =>
    rcases s.act_arrive k bytes with hact | ⟨link, incoming, rest, -, -, hact⟩
    · rwa [hact]
    · rw [hact]
      exact (s.sameShape_setLink _ _).reshapes
  | collect k count =>
    rcases s.act_collect k count with hact | ⟨link, outgoing, got, -, -, hact⟩
    · rwa [hact]
    · rw [hact]
      exact (s.sameShape_setLink _ _).reshapes
  | finish k => exact (s.sameShape_modifyLink _ _).reshapes
  | deafen k => exact (s.sameShape_modifyLink _ _).reshapes
  | breakDown k kind => exact (s.sameShape_modifyLink _ _).reshapes
  | attach link parser policy => exact (SameShape.refl s).reshapes_attach _ _ _ _
  | listen address =>
    simp only [act, listen]
    split
    · exact SameShape.reshapes ⟨rfl, rfl, rfl, rfl, rfl⟩
    · exact same
  | accept k peer link =>
    obtain ⟨hsame, -⟩ | ⟨u, cancelled, id, hsame, -, haccept⟩ := frame_of_accept (i := 0) (j := 0)
      s k peer link
    · simp only [act]
      rw [hsame]
      exact same
    · simp only [act]
      rw [haccept]
      exact hsame.reshapes_attach _ _ _ _
  | failAccept k kind =>
    rcases s.act_failAccept k kind with hsame | hhalts
    · rwa [hsame]
    · exact (frame_of_halts (i := 0) (j := 0) hhalts).1.reshapes
  | addPort name link => exact reshapes_addPort s name link
  | submit message => exact (s.sameShape_enqueue message).reshapes
  | call run =>
    simp only [act, call]
    split
    · exact SameShape.reshapes ⟨rfl, rfl, rfl, rfl, rfl⟩
    · have hsame := s.sameShape_enqueue (.access s.calls.size run)
      exact SameShape.reshapes
        ⟨hsame.sessions, hsame.links, hsame.writers, hsame.ports, hsame.closing⟩
  | close k => exact (s.sameShape_closeLink k).reshapes
  | write link bytes level => exact .written rfl rfl
  | setLevel level => exact SameShape.reshapes ⟨rfl, rfl, rfl, rfl, rfl⟩
  | shutDown =>
    simp only [act, shutDown]
    split
    · exact (SameShape.refl s).reshapes_closing (List.forall_mem_nil _)
    · exact same
  | tick => exact SameShape.reshapes ⟨rfl, rfl, rfl, rfl, rfl⟩
  | sessionStop k =>
    simp only [act]
    cases h : s.sessionStop? k with
    | none => exact same
    | some t => exact (frame_of_sessionStop? (i := 0) (j := 0) h).1.reshapes
  | step part =>
    cases part with
    | session k =>
      simp only [act, partStep?]
      cases h : s.sessionStep? k with
      | none => exact same
      | some t => exact (frame_of_sessionStep? (i := 0) (j := 0) h).1.reshapes
    | writer k =>
      simp only [act, partStep?]
      cases h : s.writerStep? k with
      | none => exact same
      | some t => exact (frame_of_writerStep? (i := 0) (j := 0) h).1.reshapes
    | listener k =>
      rcases s.act_listener k with hsame | hhalts
      · rwa [hsame]
      · exact (frame_of_halts (i := 0) (j := 0) hhalts).1.reshapes
    | closing =>
      rcases s.act_closing with hsame | hmove
      · rw [hsame]
        exact same
      · exact (frame_of_closingMove (i := 0) (j := 0) hmove).1 _
    | worker =>
      obtain ⟨-, hsame⟩ | hmove := s.act_worker
      · rw [hsame]
        exact same
      · exact (sameShape_of_move hmove).reshapes

theorem size_links_act (s : Station σ ρ) (a : Action σ ρ) :
    s.links.size ≤ (s.act a).links.size := by
  cases s.reshapes_act a with
  | kept sessions links => exact Nat.le_of_eq links.symm
  | attached sessions links =>
    rw [links]
    exact Nat.le_succ _
  | written action state =>
    rw [state]
    exact Nat.le_refl _

theorem size_links_run (s : Station σ ρ) (actions : List (Action σ ρ)) :
    s.links.size ≤ (s.run actions).links.size := by
  induction actions generalizing s with
  | nil => exact Nat.le_refl _
  | cons a rest ih => exact Nat.le_trans (s.size_links_act a) (ih (s.act a))

theorem Apart.of_sessionLinks (h : s.Apart i j)
    (hsessions : t.sessions.map (·.link) = s.sessions.map (·.link)) :
    ∀ k session, t.sessions[k]? = some session → session.link = i → k = j := by
  intro k session hk hlink
  have hmap : (t.sessions.map (·.link))[k]? = some i := by
    rw [Array.getElem?_map, hk, Option.map_some, hlink]
  rw [hsessions, Array.getElem?_map] at hmap
  obtain ⟨old, hold, holdlink⟩ := Option.map_eq_some_iff.mp hmap
  exact h.sessions k old hold holdlink

theorem of_writerLinks (h : ∀ writer ∈ s.writers, writer.write.link ≠ i)
    (hwriters : t.writers.map (·.write.link) = s.writers.map (·.write.link)) :
    ∀ writer ∈ t.writers, writer.write.link ≠ i := by
  intro writer hwriter
  have hmap : writer.write.link ∈ t.writers.map (·.write.link) := Array.mem_map_of_mem hwriter
  rw [hwriters, Array.mem_map] at hmap
  obtain ⟨old, hold, hlink⟩ := hmap
  rw [← hlink]
  exact h old hold

theorem writers_act {a : Action σ ρ} (h : ∀ writer ∈ s.writers, writer.write.link ≠ i)
    (ha : ∀ bytes level, a ≠ .write i bytes level) :
    ∀ writer ∈ (s.act a).writers, writer.write.link ≠ i := by
  cases s.reshapes_act a with
  | kept sessions links writers => exact of_writerLinks h writers
  | attached sessions links writers => exact of_writerLinks h writers
  | @written link bytes level action state =>
    rw [state]
    intro writer hwriter
    rcases Array.mem_push.mp hwriter with hold | hnew
    · exact h writer hold
    · rw [hnew]
      rintro rfl
      exact ha bytes level action

/-- The link stays apart if it is there already, or if it is not there yet. -/
theorem apart_act {a : Action σ ρ} (h : s.Apart i j) (ha : a.Spares i)
    (hsize : (s.act a).links.size ≤ i ∨ i < s.links.size) : (s.act a).Apart i j := by
  have hqueued : ∀ bytes level, a ≠ .write i bytes level := by
    rintro bytes level rfl
    exact ha rfl
  have hwriters := writers_act h.writers hqueued
  cases s.reshapes_act a with
  | kept sessions links writers ports closing =>
    refine ⟨h.of_sessionLinks sessions, hwriters, ?_, ?_⟩
    · intro port hport
      exact h.ports port (ports port hport)
    · intro port hport
      rcases closing port hport with hold | hold
      · exact h.closing port hold
      · exact h.ports port hold
  | attached sessions links writers ports closing =>
    have hne : s.links.size ≠ i := by omega
    refine ⟨?_, hwriters, ?_, ?_⟩
    · intro k session hk hlink
      have hmap : ((s.act a).sessions.map (·.link))[k]? = some i := by
        rw [Array.getElem?_map, hk, Option.map_some, hlink]
      rw [sessions, Array.getElem?_push] at hmap
      split at hmap
      · exact absurd (Option.some.inj hmap) hne
      · rw [Array.getElem?_map] at hmap
        obtain ⟨old, hold, holdlink⟩ := Option.map_eq_some_iff.mp hmap
        exact h.sessions k old hold holdlink
    · intro port hport
      rcases ports port hport with hold | hnew
      · exact h.ports port hold
      · rwa [hnew]
    · intro port hport
      rw [closing] at hport
      exact h.closing port hport
  | written action state =>
    rw [state] at hwriters ⊢
    exact ⟨h.sessions, hwriters, h.ports, h.closing⟩

theorem leaves_of_aloof {a : Action σ ρ} (s : Station σ ρ) (h : a.Aloof) :
    s.Leaves i j (s.act a) := by
  cases a with
  | attach link parser policy => exact leaves_attach s _ _ _ _
  | listen address =>
    simp only [act, listen]
    split
    · exact leaves_of_eq rfl rfl
    · exact .refl
  | accept k peer link =>
    simp only [act]
    obtain ⟨hsame, -⟩ | ⟨u, cancelled, id, -, hleaves, haccept⟩ := frame_of_accept (i := i) (j := j)
      s k peer link
    · rw [hsame]
      exact .refl
    · rw [haccept]
      exact hleaves.trans (leaves_attach u _ _ _ _)
  | failAccept k kind =>
    rcases s.act_failAccept k kind with hsame | hhalts
    · rw [hsame]
      exact .refl
    · exact (frame_of_halts hhalts).2
  | addPort name link =>
    simp only [act, addPort]
    split
    · have hports : s.Leaves i j { s.note [.portServing name] with
          ports := s.ports ++ [⟨name, s.links.size⟩] } := leaves_of_eq rfl rfl
      exact hports.trans (leaves_attach _ _ _ _ _)
    · exact .refl
  | submit message => exact leaves_of_eq (links_enqueue _ _) (sessions_enqueue _ _)
  | call run =>
    simp only [act, call]
    split
    · exact leaves_of_eq rfl rfl
    · exact leaves_of_eq (links_enqueue s _) (sessions_enqueue s _)
  | close k => exact leaves_closeLink s k
  | write link bytes level => exact leaves_of_eq rfl rfl
  | setLevel level => exact leaves_of_eq rfl rfl
  | shutDown =>
    simp only [act, shutDown]
    split
    · exact leaves_of_eq rfl rfl
    · exact .refl
  | tick => exact leaves_of_eq rfl rfl
  | step part =>
    cases part with
    | listener k =>
      rcases s.act_listener k with hsame | hhalts
      · rw [hsame]
        exact .refl
      · exact (frame_of_halts hhalts).2
    | _ => exact h.elim
  | _ => exact h.elim

/-- What does not concern the link or its session leaves both alone, except that the link may be
closed. -/
theorem leaves_act {a : Action σ ρ} (h : s.Apart i j) (ha : a.Spares i) (hc : ¬ a.Concerns i j) :
    s.Leaves i j (s.act a) := by
  cases a with
  | arrive k bytes =>
    rcases s.act_arrive k bytes with hact | ⟨link, incoming, rest, -, -, hact⟩
    · rw [hact]
      exact .refl
    · rw [hact]
      exact leaves_setLink s _ hc
  | collect k count =>
    rcases s.act_collect k count with hact | ⟨link, outgoing, got, -, -, hact⟩
    · rw [hact]
      exact .refl
    · rw [hact]
      exact leaves_setLink s _ hc
  | finish k => exact leaves_modifyLink s _ hc
  | deafen k => exact leaves_modifyLink s _ hc
  | breakDown k kind => exact leaves_modifyLink s _ ha
  | sessionStop k =>
    simp only [act]
    cases hstop : s.sessionStop? k with
    | none => exact .refl
    | some t =>
      obtain ⟨-, session, hk, hleaves⟩ := frame_of_sessionStop? (i := i) (j := j) hstop
      exact hleaves hc fun hlink => hc (h.sessions k session hk hlink)
  | step part =>
    cases part with
    | worker => exact absurd trivial hc
    | session k =>
      simp only [act, partStep?]
      cases hstep : s.sessionStep? k with
      | none => exact .refl
      | some t =>
        obtain ⟨-, session, hk, hleaves⟩ := frame_of_sessionStep? (i := i) (j := j) hstep
        exact hleaves hc fun hlink => hc (h.sessions k session hk hlink)
    | writer k =>
      simp only [act, partStep?]
      cases hstep : s.writerStep? k with
      | none => exact .refl
      | some t =>
        obtain ⟨-, writer, hwriter, hleaves⟩ := frame_of_writerStep? (i := i) (j := j) hstep
        exact hleaves (h.writers writer hwriter)
    | listener k => exact leaves_of_aloof s trivial
    | closing =>
      rcases s.act_closing with hsame | hmove
      · rw [hsame]
        exact .refl
      · exact (frame_of_closingMove hmove).2 h.closing
  | _ => exact leaves_of_aloof s trivial

def spoken (i : Nat) (s : Station σ ρ) (a : Action σ ρ) : List (Message σ ρ) :=
  (s.queued a).filter fun message => message.link? = some i

theorem spoken_eq_nil {a : Action σ ρ} (h : s.Apart i j) (ha : a.Spares i)
    (hstep : a ≠ .step (.session j)) (hstop : a ≠ .sessionStop j) : s.spoken i a = [] := by
  by_cases hworker : a = .step .worker
  · rw [hworker, spoken, queued_worker, List.filter_nil]
  · rw [spoken, List.filter_eq_nil_iff]
    intro m hm
    rw [decide_eq_true_eq]
    intro hi
    cases (source_of_queued hworker hm).1 with
    | @session k session message known tells =>
      obtain rfl := h.sessions k session known (Option.some.inj (tells.symm.trans hi))
      exact hstep rfl
    | @sessionStop k session message known tells =>
      obtain rfl := h.sessions k session known (Option.some.inj (tells.symm.trans hi))
      exact hstop rfl
    | submit => exact ha hi
    | call => cases hi
    | shutDown => cases hi

end

end Station

end ModbusSlave
