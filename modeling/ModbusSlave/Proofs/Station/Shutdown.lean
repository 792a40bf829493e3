import ModbusSlave.Bench.Step
import ModbusSlave.Proofs.Station.Calls
import ModbusSlave.Proofs.Station.Stages

/-!
# What the shutdown leaves behind

When the shutdown has come to its end, nothing is left running. Every session of a listener has put
its release into the queue before the shutdown puts the stop behind all of them, so the worker has
dealt with each release before it stops. Whoever comes too late with a listener or a port is turned
away.
-/
namespace ModbusSlave

def Outcome.isShutdown {ρ : Type} : Outcome ρ → Bool
  | .shutdown | .refused .shutdown => true
  | _ => false

def Step.adds {ρ : Type} : Step ρ → Bool
  | .addPort _ _ | .plugIn _ | .openLine _ _ | .listen _ => true
  | _ => false

/-- The action asks for a new listener or a new port. -/
def Action.adds {σ ρ : Type} : Action σ ρ → Bool
  | .listen _ | .addPort _ _ => true
  | _ => false

namespace Station

variable {σ ρ : Type}

/-- Along the history a release of the link has been put behind everything else in the queue, while
the link was there and no stop was in the queue. -/
def Parted (i : Nat) (s : Station σ ρ) (actions : List (Action σ ρ)) : Prop :=
  ∃ front back queue, actions = front ++ back ∧ (s.run front).stopped = false ∧
    (s.run front).worker.queue = queue ++ [.release i] ∧ i < (s.run front).links.size ∧
    ∀ message ∈ (s.run front).worker.queue, message.isStop = false

section

variable {s t : Station σ ρ} {a : Action σ ρ} {i k n : Nat} {session : Session}
  {actions : List (Action σ ρ)}

theorem Parted.append (h : s.Parted i actions) (more : List (Action σ ρ)) :
    s.Parted i (actions ++ more) := by
  obtain ⟨front, back, queue, rfl, hruns, hqueue, hi, hnone⟩ := h
  exact ⟨front, back ++ more, queue, List.append_assoc .., hruns, hqueue, hi, hnone⟩

theorem stop_of_queued (ha : a ≠ .submit .stop) (early : (s.act a).closing.rank < 6)
    {message : Message σ ρ} (h : message ∈ s.queued a) : message.isStop = false := by
  by_cases hworker : a = .step .worker
  · rw [hworker, queued_worker] at h
    cases h
  · have hlink (link : Nat) (tells : message.link? = some link) : message.isStop = false := by
      cases message with
      | stop => cases tells
      | _ => rfl
    cases (source_of_queued hworker h).1 with
    | session known tells => exact hlink _ tells
    | sessionStop known tells => exact hlink _ tells
    | submit =>
      cases message with
      | stop => exact absurd rfl ha
      | _ => rfl
    | call => rfl
    | @shutDown stage closing =>
      have hlate : (s.act (.step .closing)).closing = .worker := by
        simp only [act, partStep?, closingStep?, closing]
        split <;> rfl
      rw [hlate] at early
      exact absurd early (by simp [Closing.rank])

theorem runs_of_early (hs : s.stopped = false) (hqueue : s.worker.queue = [])
    (ha : .submit .stop ∉ actions) (early : (s.run actions).closing.rank < 6) :
    (∀ message ∈ s.along queued actions, message.isStop = false) ∧
      (s.run actions).stopped = false := by
  have hnone : ∀ message ∈ s.along queued actions, message.isStop = false := by
    intro message hmessage
    obtain ⟨front, a, back, rfl, -, hqueued⟩ := mem_along hmessage
    have hrank := ((s.run front).act a).rank_run back
    rw [run_append, run_cons] at early
    refine stop_of_queued ?_ (Nat.lt_of_le_of_lt hrank early) hqueued
    rintro rfl
    exact ha (List.mem_append_right _ List.mem_cons_self)
  refine ⟨hnone, ?_⟩
  cases hstopped : (s.run actions).stopped with
  | false => rfl
  | true =>
    obtain ⟨message, hmessage, hstop⟩ := stop_queued_of_stopped hqueue hs hstopped
    rw [hnone message hmessage] at hstop
    cases hstop

/-- A session of a listener that ends while the shutdown waits for it has its release queued. -/
theorem parted_of_turned {before : Session} (hs : s.stopped = false) (hqueue : s.worker.queue = [])
    (ha : .submit .stop ∉ actions ++ [a]) (horderly : (s.run actions).Orderly)
    (hturned : (s.run actions).Turned n before ((s.run actions).act a))
    (held : (s.run actions).sessions[n]? = some before)
    (known : ((s.run actions).act a).sessions[n]? = some session)
    (accepted : session.isAccepted = true) (ended : session.fault? ≠ none)
    (hbefore : before.fault? ≠ none → s.Parted before.link actions) :
    s.Parted session.link (actions ++ [a]) := by
  obtain ⟨hlink, hrole⟩ := same_of_turned hturned held known
  have hact : s.run (actions ++ [a]) = (s.run actions).act a := by rw [run_append, run_cons]; rfl
  have hnext := orderly_act horderly a
  cases parting_of_turned hturned held known ended with
  | releases phase role running queue =>
    have hearly : (s.run actions).closing.rank < 3 := by
      by_contra hlate
      have haccepted : before.isAccepted = true := by
        rw [Session.isAccepted, ← hrole]
        exact accepted
      have hover := horderly.guests (Nat.le_of_not_lt hlate) n before held haccepted
      obtain ⟨fault, hphase⟩ := Session.isOver_iff.mp hover
      exact not_over_of_turned hturned hphase
    obtain ⟨hnone, hruns⟩ := runs_of_early hs hqueue
      (fun hmem => ha (List.mem_append_left _ hmem)) (Nat.lt_trans hearly (by decide))
    refine ⟨actions ++ [a], [], (s.run actions).worker.queue, (List.append_nil _).symm, ?_, ?_, ?_,
      ?_⟩
    · rw [hact]
      exact running
    · rw [hact]
      exact queue
    · rw [hact]
      exact hnext.hosted.seated n session known
    · rw [hact, queue]
      intro message hmessage
      rcases List.mem_append.mp hmessage with hold | hnew
      · apply hnone
        rw [((served_run hqueue hs actions).1 hruns).1]
        exact List.mem_append_right _ hold
      · rw [List.mem_singleton.mp hnew]
        rfl
  | remains phase role stopped =>
    -- while the session departs, the shutdown has not come to the worker
    exfalso
    have hearly : (s.run (actions ++ [a])).closing.rank < 6 := by
      rw [hact]
      by_contra hlate
      have hover := hnext.guests (Nat.le_trans (by decide) (Nat.le_of_not_lt hlate)) n session known
        accepted
      rw [Session.isOver, phase] at hover
      cases hover
    have hruns := (runs_of_early hs hqueue ha hearly).2
    rw [hact, stopped] at hruns
    cases hruns
  | departs phase =>
    rw [hlink]
    refine (hbefore ?_).append [a]
    rw [Session.fault?, phase]
    exact Option.some_ne_none _
  | quits phase role =>
    rw [Session.isAccepted, role] at accepted
    cases accepted
  | bare phase role =>
    rw [Session.isAccepted, role] at accepted
    cases accepted

/-- Whoever does not read any more although a listener has accepted it has its release queued. -/
theorem parted_run (hs : s.stopped = false) (hqueue : s.worker.queue = []) (hstart : s.Orderly)
    (hnobody : s.sessions = #[]) (ha : .submit .stop ∉ actions) :
    ∀ (n : Nat) (session : Session), (s.run actions).sessions[n]? = some session →
      session.isAccepted = true → session.fault? ≠ none → s.Parted session.link actions := by
  induction actions using List.reverseRecOn with
  | nil =>
    intro n session known
    rw [show s.run [] = s from rfl, hnobody] at known
    cases known
  | append_singleton actions a ih =>
    intro n session known accepted ended
    have hbefore := ih fun hmem => ha (List.mem_append_left _ hmem)
    rw [run_append, run_cons] at known
    rcases session_cases ((s.run actions).seats_act a) known with hold | hlive | hturned
    · exact (hbefore n session hold accepted ended).append [a]
    · exact absurd hlive ended
    · obtain ⟨before, held, hturned⟩ := hturned
      have hrole := (same_of_turned hturned held known).2
      refine parted_of_turned hs hqueue ha (orderly_run hstart actions) hturned held known accepted
        ended fun hended => hbefore n before held ?_ hended
      rw [Session.isAccepted, ← hrole]
      exact accepted

theorem released_of_parted (h : s.Parted i actions) (hstopped : (s.run actions).stopped = true) :
    .release i ∈ s.along taken actions ∧ ((s.run actions).Ended i ∨
      ((s.run actions).Closed i ∧ ∃ front back, actions = front ++ .step .worker :: back ∧
        (s.run front).GivesUp i)) := by
  obtain ⟨front, back, queue, rfl, hruns, hqueue, hi, hnone⟩ := h
  rw [run_append] at hstopped
  -- no stop is in the queue, so all of it is taken before one
  obtain ⟨rest, hall, -, hstops⟩ := (s.run front).run_queue back hruns
  obtain ⟨served, hserved, hbefore⟩ := hstops hstopped
  have hlength : (s.run front).worker.queue.length ≤ served.length := by
    by_contra hshort
    have hlt : served.length < (s.run front).worker.queue.length := Nat.lt_of_not_le hshort
    have hstop : (s.run front).worker.queue[served.length]? = some .stop := by
      rw [← List.getElem?_append_left hlt, hall, hserved, List.append_assoc,
        List.getElem?_append_right (Nat.le_refl _), Nat.sub_self]
      rfl
    have hfalse := hnone .stop (List.mem_of_getElem? hstop)
    cases hfalse
  have hserves : (s.run front).Serves back := by
    left
    rw [hserved, List.length_append, List.length_singleton]
    exact Nat.lt_succ_of_le hlength
  constructor
  · have hmem : .release i ∈ (s.run front).worker.queue := by
      rw [hqueue]
      exact List.mem_append_right _ (List.mem_singleton_self _)
    have hfirst : (s.run front).worker.queue <+: served ++ ([.stop] ++ rest) := by
      rw [← List.append_assoc, ← hserved, ← hall]
      exact List.prefix_append _ _
    have hserved' : (s.run front).worker.queue <+: served :=
      List.prefix_of_prefix_length_le hfirst (List.prefix_append _ _) hlength
    rw [along_append, hserved]
    exact List.mem_append_right _ (List.mem_append_left _ (hserved'.subset hmem))
  · rw [run_append]
    rcases release_served hruns hqueue hi hserves with
      hended | ⟨hclosed, before, after, hback, -, hgives⟩
    · exact .inl hended
    · refine .inr ⟨hclosed, front ++ before, after, ?_, ?_⟩
      · rw [hback, List.append_assoc]
      · rwa [run_append]

/-- Nobody is added to a station that has begun to shut down, and asking for that again changes
nothing. -/
theorem act_of_not_open (h : s.isOpen = false) (ha : a.adds = true ∨ a = .shutDown) :
    s.act a = s := by
  have hopen : ¬ s.isOpen = true := ne_true_of_eq_false h
  rcases ha with hadds | rfl
  · cases a with
    | listen address => rw [act, listen, if_neg hopen]
    | addPort name link => rw [act, addPort, if_neg hopen]
    | _ => cases hadds
  · rw [act, shutDown, if_neg hopen]

theorem listen_ends (horderly : s.Orderly) (hopen : s.isOpen = true) (address : String)
    (back : List (Action σ ρ)) (hdone : (s.run (.listen address :: back)).closing = .done) :
    ∃ listener, (s.run (.listen address :: back)).listeners[s.listeners.size]? = some listener ∧
      listener.address = address ∧ listener.Gone := by
  have hnew : (s.act (.listen address)).listeners[s.listeners.size]? =
      some ⟨address, .ofLimit s.maxSessions, true, false⟩ := by
    rw [act, listen, if_pos hopen]
    exact Array.getElem?_push_size
  obtain ⟨listener, known, haddress⟩ := listener_run hnew back
  refine ⟨listener, known, haddress, ?_⟩
  have hfinal := orderly_run horderly (.listen address :: back)
  rcases hfinal.joined s.listeners.size listener known with hwaits | hgone
  · rw [hdone] at hwaits
    cases hwaits
  · exact hgone

theorem addPort_serves (hopen : s.isOpen = true) (name : String) (link : Link)
    (back : List (Action σ ρ)) :
    ∃ session, (s.run (.addPort name link :: back)).sessions[s.sessions.size]? = some session ∧
      session.link = s.links.size ∧ session.role = .port name := by
  have hnew : (s.act (.addPort name link)).sessions[s.sessions.size]? =
      some (.start s.links.size (.rtu .start) .discard (.port name)) := by
    rw [act, addPort, if_pos hopen]
    exact Array.getElem?_push_size
  exact seat_run hnew back

theorem listen_counts (hopen : s.isOpen = true) (address : String) (back : List (Action σ ρ)) :
    s.listeners.size < (s.run (.listen address :: back)).listeners.size := by
  have hnew : (s.act (.listen address)).listeners.size = s.listeners.size + 1 := by
    rw [act, listen, if_pos hopen]
    exact Array.size_push _
  have hmore := (s.act (.listen address)).size_listeners_run back
  rw [run_cons]
  omega

theorem addPort_counts (horderly : s.Orderly) {name : String} {link : Link}
    {back : List (Action σ ρ)} (hopen : (s.run (.addPort name link :: back)).isOpen = true) :
    ⟨name, s.links.size⟩ ∈ (s.run (.addPort name link :: back)).ports := by
  obtain ⟨session, known, hlink, role⟩ := addPort_serves (open_of_run hopen) name link back
  have hhandled := (orderly_run horderly _).lines _ session name known role
  rwa [Handled, closing_of_open hopen, hlink] at hhandled

theorem begin_of_not_open (trial : Trial ρ) (h : trial.station.isOpen = false) (step : Step ρ)
    (hadds : step.adds = true) :
    ∃ after outcome, trial.begin step = .ok (after, outcome) ∧ outcome.isShutdown = true ∧
      after.station.listeners = trial.station.listeners ∧
      after.station.ports = trial.station.ports ∧
      after.station.sessions = trial.station.sessions := by
  have hstrand : ∀ (trial : Trial ρ) (name : String),
      (trial.strand name).station.listeners = trial.station.listeners ∧
        (trial.strand name).station.ports = trial.station.ports ∧
        (trial.strand name).station.sessions = trial.station.sessions := by
    intro trial name
    simp only [Trial.strand, Trial.put, Trial.drop]
    split <;> exact ⟨rfl, rfl, rfl⟩
  cases step with
  | addPort name capacity =>
    refine ⟨trial, .shutdown, ?_, rfl, rfl, rfl, rfl⟩
    simp [Trial.begin, h]
  | plugIn name =>
    refine ⟨trial.strand name, .shutdown, ?_, rfl, hstrand trial name⟩
    simp [Trial.begin, h]
  | openLine name silence =>
    have hnote : (trial.station.note [.portOpened name]).isOpen = false := h
    let noted : Trial ρ := { trial with station := trial.station.note [.portOpened name] }
    refine ⟨(noted.strand name).markDevice name, .refused .shutdown, ?_, rfl, hstrand noted name⟩
    simp only [Trial.begin, hnote]
    rfl
  | listen name =>
    refine ⟨trial, .refused .shutdown, ?_, rfl, rfl, rfl, rfl⟩
    simp [Trial.begin, h]
  | _ => cases hadds

/-- When the shutdown has come to its end, every listener has been cancelled and does not run.
Every session of a listener is over, its link is closed, and the worker has dealt with its release:
the stream has ended, or the worker has waited for that up to the deadline. Every session of a port
is over too, its link is closed and the stream has ended, and the worker has stopped. Among these
are all the listeners and ports that have been added before the station was first asked to shut
down. From then on the station adds nobody; whoever asks it to is told that it is shut down. -/
theorem shutDown_ends_all (settings : ServerSettings) {actions : List (Action σ ρ)}
    (ha : .submit .stop ∉ actions) :
    let s : Station σ ρ := .ofSettings settings
    let t := s.run actions
    (t.closing = .done →
      (∀ listener ∈ t.listeners, listener.cancelled = true ∧ listener.running = false) ∧
      (∀ session ∈ t.sessions, session.isAccepted = true → session.isOver = true ∧
        t.Closed session.link ∧ .release session.link ∈ s.along taken actions ∧
        (t.Ended session.link ∨ ∃ front back, actions = front ++ .step .worker :: back ∧
          (s.run front).GivesUp session.link)) ∧
      (∀ session ∈ t.sessions, session.isServing = true →
        session.isOver = true ∧ t.Closed session.link ∧ t.Ended session.link) ∧
      t.stopped = true ∧
      ∃ before after, actions = before ++ .shutDown :: after ∧ (s.run before).isOpen = true ∧
        (∀ front address back, before = front ++ .listen address :: back →
          (s.run front).listeners.size < (s.run before).listeners.size ∧
          ∃ listener, t.listeners[(s.run front).listeners.size]? = some listener ∧
            listener.address = address ∧ listener.Gone) ∧
        ∀ front name link back, before = front ++ .addPort name link :: back →
          ⟨name, (s.run front).links.size⟩ ∈ (s.run before).ports ∧
          ∃ session, t.sessions[(s.run front).sessions.size]? = some session ∧
            session.link = (s.run front).links.size ∧ session.role = .port name) ∧
    (.shutDown ∈ actions → t.isOpen = false) ∧
    (t.isOpen = false → ∀ a : Action σ ρ, a.adds = true ∨ a = .shutDown → t.act a = t) ∧
    ∀ trial : Trial ρ, trial.station.isOpen = false → ∀ step : Step ρ, step.adds = true →
      ∃ after outcome, trial.begin step = .ok (after, outcome) ∧ outcome.isShutdown = true ∧
        after.station.listeners = trial.station.listeners ∧
        after.station.ports = trial.station.ports ∧
        after.station.sessions = trial.station.sessions := by
  intro s t
  have hfresh : s.Orderly := orderly_ofSettings settings
  have horderly : t.Orderly := orderly_run hfresh actions
  refine ⟨?_, ?_, fun hclosed a => act_of_not_open hclosed, begin_of_not_open⟩
  · intro hdone
    have hstopped := horderly.halted hdone
    have hgone : ∀ (k : Nat) (listener : Listener), t.listeners[k]? = some listener →
        listener.Gone := by
      intro k listener known
      rcases horderly.joined k listener known with hwaits | hgone
      · rw [hdone] at hwaits
        cases hwaits
      · exact hgone
    refine ⟨?_, ?_, ?_, hstopped, ?_⟩
    · intro listener hlistener
      obtain ⟨k, known⟩ := Array.mem_iff_getElem?.mp hlistener
      exact hgone k listener known
    · intro session hsession accepted
      obtain ⟨n, known⟩ := Array.mem_iff_getElem?.mp hsession
      have hover := horderly.guests (by rw [hdone]; decide) n session known accepted
      have hended : session.fault? ≠ none := by
        obtain ⟨fault, hphase⟩ := Session.isOver_iff.mp hover
        rw [Session.fault?, hphase]
        exact Option.some_ne_none _
      have hparted := parted_run (s := s) rfl rfl hfresh rfl ha n session known accepted hended
      obtain ⟨htaken, hreleased⟩ := released_of_parted hparted hstopped
      refine ⟨hover, ?_, htaken, hreleased.imp_right And.right⟩
      rcases hreleased with ⟨link, on, hclosed, -⟩ | ⟨hclosed, -⟩
      · exact ⟨link, on, hclosed⟩
      · exact hclosed
    · intro session hsession serving
      obtain ⟨n, known⟩ := Array.mem_iff_getElem?.mp hsession
      obtain ⟨name, role⟩ := Session.isServing_iff.mp serving
      have hhandled := horderly.lines n session name known role
      rw [Handled, hdone] at hhandled
      obtain ⟨hover, link, on, hclosed, hended⟩ := hhandled
      exact ⟨hover, ⟨link, on, hclosed⟩, link, on, hclosed, hended⟩
    · obtain ⟨before, after, rfl, hopen⟩ := shutDown_of_not_open (s := s) rfl
        (show t.isOpen = false by rw [isOpen, hdone]; rfl)
      refine ⟨before, after, rfl, hopen, ?_, ?_⟩
      · rintro front address back rfl
        rw [run_append] at hopen ⊢
        have hrun : t = (s.run front).run (.listen address :: (back ++ .shutDown :: after)) := by
          show s.run _ = _
          rw [List.append_assoc, run_append, List.cons_append]
        rw [hrun] at hdone ⊢
        exact ⟨listen_counts (open_of_run hopen) address back,
          listen_ends (orderly_run hfresh front) (open_of_run hopen) address _ hdone⟩
      · rintro front name link back rfl
        rw [run_append] at hopen ⊢
        have hrun : t = (s.run front).run (.addPort name link :: (back ++ .shutDown :: after)) := by
          show s.run _ = _
          rw [List.append_assoc, run_append, List.cons_append]
        rw [hrun]
        exact ⟨addPort_counts (orderly_run hfresh front) hopen,
          addPort_serves (open_of_run hopen) name link _⟩
  · intro hmem
    obtain ⟨front, back, rfl⟩ := List.append_of_mem hmem
    have hclosed : ((s.run front).act .shutDown).isOpen = false := not_open_shutDown _
    show (s.run (front ++ .shutDown :: back)).isOpen = false
    rw [run_append, run_cons]
    exact not_open_run hclosed back

/-- A listener with one session and a port are shut down. Another link comes in while the listener
is being stopped, and another listener is asked for when it has stopped. -/
def closingDown : List (Action Unit Unit) :=
  [.listen "here", .accept 0 "early" (.fresh 64 64 false none),
    .addPort "line" (.fresh 64 64 true none), .shutDown, .step .closing,
    .accept 0 "late" (.fresh 64 64 false none), .step (.listener 0), .step .closing,
    .listen "there", .shutDown, .step .closing, .sessionStop 0, .sessionStop 2, .step .closing,
    .step .closing, .step .closing, .sessionStop 1, .step .closing, .step .closing, .step .closing,
    .step .closing] ++ List.replicate 7 (.step .worker) ++ [.step .closing]

/-- The latecomer's session is over and its link released like those of the others, and the listener
asked for too late is not there. -/
theorem shutDown_ends_all_closingDown :
    let s : Station Unit Unit := .ofSettings ⟨⟨1⟩, .uniform 2, .ofSeconds 1, none, .nothing⟩
    let t := s.run closingDown
    .submit .stop ∉ closingDown ∧ t.closing = .done ∧ t.listeners.size = 1 ∧
      t.sessions.map (·.role) = #[.accepted 0 0, .port "line", .accepted 0 1] ∧
      (∀ session ∈ t.sessions, session.isOver = true ∧ t.Closed session.link) ∧
      .release 2 ∈ s.along taken closingDown ∧ t.stopped = true := by
  intro s t
  have ha : .submit .stop ∉ closingDown := by simp [closingDown]
  have hdone : t.closing = .done := by decide +kernel
  have hroles : t.sessions.map (·.role) = #[.accepted 0 0, .port "line", .accepted 0 1] := by
    decide +kernel
  obtain ⟨hall, -⟩ := shutDown_ends_all _ ha
  obtain ⟨-, haccepted, hserving, hstopped, -⟩ := hall hdone
  refine ⟨ha, hdone, by decide +kernel, hroles, ?_, ?_, hstopped⟩
  · intro session hsession
    have hkinds : session.isAccepted = true ∨ session.isServing = true := by
      have hall : t.sessions.all (fun session => session.isAccepted || session.isServing) =
          true := by
        decide +kernel
      rw [← Bool.or_eq_true]
      exact Array.all_eq_true_iff_forall_mem.mp hall session hsession
    rcases hkinds with hguest | hline
    · exact ⟨(haccepted session hsession hguest).1, (haccepted session hsession hguest).2.1⟩
    · exact ⟨(hserving session hsession hline).1, (hserving session hsession hline).2.1⟩
  · have hlate : t.sessions[2]?.map (fun session => (session.link, session.isAccepted)) =
        some (2, true) := by
      decide +kernel
    obtain ⟨session, known, hsession⟩ := Option.map_eq_some_iff.mp hlate
    obtain ⟨hlink, hguest⟩ := Prod.mk.inj hsession
    have hreleased := (haccepted session (Array.mem_of_getElem? known) hguest).2.2.1
    rwa [hlink] at hreleased

end

end Station

end ModbusSlave
