import ModbusSlave.Proofs.Station.Admission
import ModbusSlave.Proofs.Station.Veils

/-!
# Stations that look the same

Two stations that look the same under a veil do so whatever happens to both of them: no decision of
any part depends on what is hidden. Only the worker can tell a message that is hidden from none, so
its turns come last, and only for those who have no such message in front of them.
-/
namespace ModbusSlave

namespace Station

variable {σ ρ : Type}

/-- What is seen of a station. -/
def under (v : Veil σ ρ) (s : Station σ ρ) : Station σ ρ :=
  { s with
    level := v.level s.level
    sessions := s.sessions.map (Session.under v)
    writers := s.writers.map (Writer.under v)
    worker := { s.worker with queue := s.worker.queue.filter v.keeps, job := s.worker.job.under v }
    log := s.log.filter v.shows }

/-- The stations look the same. -/
def Alike (v : Veil σ ρ) (s t : Station σ ρ) : Prop := s.under v = t.under v

variable {v : Veil σ ρ} {s t : Station σ ρ}

theorem stopped_under (s : Station σ ρ) : (s.under v).stopped = s.stopped := by
  rw [stopped, stopped, under]
  cases s.worker.job <;> rfl

theorem map_eq_of_under {α β : Type} {f : α → β} {g : α → α} (hf : ∀ x, f (g x) = f x)
    {a b : Array α} (h : a.map g = b.map g) : a.map f = b.map f := by
  have hmap (a : Array α) : a.map f = (a.map g).map f := by
    rw [Array.map_map]
    exact congrArg (a.map ·) (funext fun x => (hf x).symm)
  rw [hmap a, h, ← hmap]

namespace Alike

theorem refl (s : Station σ ρ) : s.Alike v s := rfl

theorem symm (h : s.Alike v t) : t.Alike v s := Eq.symm h

theorem trans {u : Station σ ρ} (h : s.Alike v t) (h' : t.Alike v u) : s.Alike v u :=
  Eq.trans h h'

section

variable (h : s.Alike v t)

include h

theorem now : t.now = s.now := (congrArg Station.now h).symm

theorem level : v.level s.level = v.level t.level := congrArg Station.level h

theorem maxSessions : t.maxSessions = s.maxSessions := (congrArg Station.maxSessions h).symm

theorem links : t.links = s.links := (congrArg Station.links h).symm

theorem sessions : s.sessions.map (Session.under v) = t.sessions.map (Session.under v) :=
  congrArg Station.sessions h

theorem writers : s.writers.map (Writer.under v) = t.writers.map (Writer.under v) :=
  congrArg Station.writers h

theorem listeners : t.listeners = s.listeners := (congrArg Station.listeners h).symm

theorem ports : t.ports = s.ports := (congrArg Station.ports h).symm

theorem calls : t.calls = s.calls := (congrArg Station.calls h).symm

theorem closing : t.closing = s.closing := (congrArg Station.closing h).symm

theorem service : t.worker.service = s.worker.service :=
  (congrArg (·.worker.service) h).symm

theorem timeout : t.worker.timeout = s.worker.timeout := (congrArg (·.worker.timeout) h).symm

theorem queue : s.worker.queue.filter v.keeps = t.worker.queue.filter v.keeps :=
  congrArg (·.worker.queue) h

theorem job : s.worker.job.under v = t.worker.job.under v := congrArg (·.worker.job) h

theorem stopped : t.stopped = s.stopped := by
  rw [← stopped_under (v := v) t, ← h, stopped_under]

theorem isOpen : t.isOpen = s.isOpen := by rw [Station.isOpen, Station.isOpen, h.closing]

theorem isClosed : t.isClosed = s.isClosed := by
  funext i
  rw [Station.isClosed, Station.isClosed, h.links]

theorem deadline : t.deadline = s.deadline := by
  rw [Station.deadline, Station.deadline, h.now, h.timeout]

theorem map_sessions {α : Type} {f : Session → α} (hf : ∀ x : Session, f (x.under v) = f x) :
    t.sessions.map f = s.sessions.map f := (map_eq_of_under hf h.sessions).symm

theorem map_writers {α : Type} {f : Writer → α} (hf : ∀ w : Writer, f (w.under v) = f w) :
    t.writers.map f = s.writers.map f := (map_eq_of_under hf h.writers).symm

theorem rest (hmutes : v.mutes = false) :
    t = { s with
      sessions := t.sessions
      log := t.log
      worker := { s.worker with queue := t.worker.queue } } := by
  have hlevel : t.level = s.level := by
    rw [← Veil.level_of_shown hmutes t.level, ← h.level, Veil.level_of_shown hmutes]
  have hwriters : t.writers = s.writers := by
    have hmap := h.map_writers (f := id) (Writer.under_of_shown hmutes)
    rwa [Array.map_id, Array.map_id] at hmap
  have hworker : t.worker = { s.worker with queue := t.worker.queue } := by
    have hjob := h.job
    rw [Job.under_of_shown hmutes, Job.under_of_shown hmutes] at hjob
    change t.worker = ⟨s.worker.service, s.worker.timeout, t.worker.queue, s.worker.job⟩
    rw [← h.service, ← h.timeout, hjob]
  rw [← hworker, ← h.now, ← hlevel, ← h.maxSessions, ← h.links, ← hwriters, ← h.listeners,
    ← h.ports, ← h.calls, ← h.closing]

theorem all_sessions {p : Session → Bool} (hp : ∀ x : Session, p (x.under v) = p x) :
    t.sessions.all p = s.sessions.all p := by
  have hall (a : Array Session) : a.all p = (a.map p).all id := by
    rw [Array.all_map, Function.id_comp]
  rw [hall t.sessions, h.map_sessions hp, ← hall]

end

end Alike

/-- The station with all that a veil can hide taken from another one. -/
def withHidden (s u : Station σ ρ) : Station σ ρ :=
  { s with
    level := u.level
    sessions := u.sessions
    writers := u.writers
    log := u.log
    worker := ⟨s.worker.service, s.worker.timeout, u.worker.queue, u.worker.job⟩ }

theorem Alike.eq (h : s.Alike v t) : ∃ u, t = s.withHidden u := by
  refine ⟨t, ?_⟩
  rw [withHidden, ← h.now, ← h.maxSessions, ← h.links, ← h.listeners, ← h.ports, ← h.service,
    ← h.timeout, ← h.calls, ← h.closing]

@[simp] theorem closing_withHidden (s u : Station σ ρ) : (s.withHidden u).closing = s.closing := rfl

@[simp] theorem links_withHidden (s u : Station σ ρ) : (s.withHidden u).links = s.links := rfl

@[simp] theorem listeners_withHidden (s u : Station σ ρ) :
    (s.withHidden u).listeners = s.listeners := rfl

theorem rel_of_map_eq {α β : Type} {f : α → β} {a b : Array α} (h : a.map f = b.map f) (k : Nat) :
    Option.Rel (fun x y => f x = f y) a[k]? b[k]? := by
  have hk : (a.map f)[k]? = (b.map f)[k]? := by rw [h]
  rw [Array.getElem?_map, Array.getElem?_map] at hk
  cases ha : a[k]? with
  | none =>
    cases hb : b[k]? with
    | none => exact .none
    | some y => simp [ha, hb] at hk
  | some x =>
    cases hb : b[k]? with
    | none => simp [ha, hb] at hk
    | some y =>
      rw [ha, hb] at hk
      exact .some (Option.some.inj hk)

/-- The change is the same for all stations that look the same. -/
def Passes (v : Veil σ ρ) (f : Station σ ρ → Station σ ρ) : Prop :=
  ∀ ⦃s t : Station σ ρ⦄, s.Alike v t → (f s).Alike v (f t)

theorem passes_of_commutes {f : Station σ ρ → Station σ ρ}
    (hf : ∀ s, (f s).under v = f (s.under v)) : Passes v f := by
  intro s t h
  rw [Alike, hf, hf, h]

theorem passes_foldl {α : Type} {f : Station σ ρ → α → Station σ ρ}
    (h : ∀ x, Passes v fun s => f s x) (l : List α) : Passes v fun s => l.foldl f s := by
  induction l with
  | nil => exact fun _ _ => id
  | cons x l ih => exact fun _ _ hs => ih (h x hs)

theorem under_note (s : Station σ ρ) (events : List Event) :
    (s.note events).under v = (s.under v).note (v.seen events) := by
  have hlog : (s.log ++ events.toArray).filter v.shows =
      s.log.filter v.shows ++ (v.seen events).toArray := by
    rw [Array.filter_append Array.size_append, List.filter_toArray (l := events), Veil.seen]
  simp only [note, under, hlog]

theorem alike_note (h : s.Alike v t) {events events' : List Event}
    (hevents : v.seen events = v.seen events') : (s.note events).Alike v (t.note events') := by
  rw [Alike, under_note, under_note, h, hevents]

theorem passes_note (events : List Event) : Passes v fun s : Station σ ρ => s.note events :=
  fun _ _ h => alike_note h rfl

theorem passes_modifyLink (i : Nat) (f : Link → Link) :
    Passes v fun s : Station σ ρ => s.modifyLink i f := passes_of_commutes fun _ => rfl

theorem passes_closeLink (i : Nat) : Passes v fun s : Station σ ρ => s.closeLink i :=
  passes_of_commutes fun _ => rfl

theorem passes_leaveLock (i : Nat) : Passes v fun s : Station σ ρ => s.leaveLock i :=
  passes_of_commutes fun _ => rfl

theorem passes_setLink (i : Nat) (link : Link) : Passes v fun s : Station σ ρ => s.setLink i link :=
  passes_of_commutes fun _ => rfl

theorem alike_setSession (h : s.Alike v t) {x y : Session} (hxy : x.under v = y.under v)
    (k : Nat) : (s.setSession k x).Alike v (t.setSession k y) := by
  have hunder (s : Station σ ρ) (x : Session) :
      (s.setSession k x).under v = (s.under v).setSession k (x.under v) := by
    simp only [setSession, under, Array.map_setIfInBounds]
  rw [Alike, hunder, hunder, h, hxy]

theorem alike_setWriter (h : s.Alike v t) {x y : Writer} (hxy : x.under v = y.under v) (i : Nat) :
    ({ s with writers := s.writers.setIfInBounds i x } : Station σ ρ).Alike v
      { t with writers := t.writers.setIfInBounds i y } := by
  have hunder (s : Station σ ρ) (x : Writer) :
      ({ s with writers := s.writers.setIfInBounds i x } : Station σ ρ).under v =
        { s.under v with writers := (s.under v).writers.setIfInBounds i (x.under v) } := by
    simp only [under, Array.map_setIfInBounds]
  rw [Alike, hunder, hxy, h, hunder]

theorem alike_setJob (h : s.Alike v t) {job job' : Job} (hjob : job.under v = job'.under v) :
    (s.setJob job).Alike v (t.setJob job') := by
  have hunder (s : Station σ ρ) (job : Job) :
      (s.setJob job).under v = (s.under v).setJob (job.under v) := rfl
  rw [Alike, hunder, hunder, h, hjob]

/-- A message that is hidden seems not to be put into the queue. -/
theorem under_enqueue (s : Station σ ρ) (message : Message σ ρ) :
    (s.enqueue message).under v =
      if v.keeps message then (s.under v).enqueue message else s.under v := by
  rw [enqueue, enqueue, stopped_under]
  by_cases hstopped : s.stopped = true
  · rw [if_pos hstopped, if_pos hstopped, ite_self]
  · rw [if_neg hstopped, if_neg hstopped]
    by_cases hkeeps : v.keeps message = true
    · rw [if_pos hkeeps]
      simp [under, List.filter_append, hkeeps]
    · rw [if_neg hkeeps]
      simp [under, List.filter_append, hkeeps]

theorem passes_enqueue (message : Message σ ρ) : Passes v fun s => s.enqueue message := by
  intro s t h
  dsimp only
  rw [Alike, under_enqueue, under_enqueue, h]

theorem passes_writeFailed (i : Nat) (fault : WriteFault) :
    Passes v fun s : Station σ ρ => s.writeFailed i fault := by
  intro s t h
  dsimp only
  rw [writeFailed, writeFailed, h.links]
  split
  · exact passes_note _ h
  · exact passes_closeLink i (passes_note _ h)

theorem passes_call (run : Memory → Memory × ρ) :
    Passes v fun s : Station σ ρ => s.call run := by
  intro s t h
  have hcalls (calls : Array (Call ρ)) : Passes v fun s : Station σ ρ => { s with calls } :=
    passes_of_commutes fun _ => rfl
  dsimp only
  rw [call, call, h.stopped, h.calls]
  split
  · exact hcalls _ h
  · exact hcalls _ (passes_enqueue _ h)

theorem passes_arrive (i : Nat) (bytes : Bytes) :
    Passes v fun s : Station σ ρ => s.act (.arrive i bytes) := by
  intro s t h
  simp only [act, arrive?, h.links]
  cases s.links[i]? with
  | none => exact h
  | some link =>
    dsimp only [Option.bind_eq_bind, Option.bind_some]
    cases link.incoming.write? bytes with
    | none => exact h
    | some result =>
      cases result with
      | error kind => exact h
      | ok taken => exact passes_setLink i _ h

theorem passes_collect (i count : Nat) :
    Passes v fun s : Station σ ρ => s.act (.collect i count) := by
  intro s t h
  simp only [act, collect?, h.links]
  cases s.links[i]? with
  | none => exact h
  | some link =>
    dsimp only [Option.bind_eq_bind, Option.bind_some]
    cases link.outgoing.read? count with
    | none => exact h
    | some result => exact passes_setLink i _ h

theorem passes_listen (address : String) : Passes v fun s : Station σ ρ => s.listen address := by
  intro s t h
  have hlisteners (listeners : Array Listener) :
      Passes v fun s : Station σ ρ => { s with listeners } := passes_of_commutes fun _ => rfl
  dsimp only
  rw [listen, listen, h.isOpen, h.maxSessions, h.listeners]
  split
  · exact hlisteners _ (passes_note _ h)
  · exact h

theorem passes_shutDown : Passes v (shutDown (σ := σ) (ρ := ρ)) := by
  intro s t h
  have hbegin : Passes v fun s : Station σ ρ =>
      { s with closing := .listeners (List.range s.listeners.size) } :=
    passes_of_commutes fun _ => rfl
  rw [shutDown, shutDown, h.isOpen]
  split
  · exact hbegin h
  · exact h

theorem passes_attach (link : Link) (parser : Parser) (policy : FaultPolicy) (role : Role) :
    Passes v fun s : Station σ ρ => s.attach link parser policy role := by
  intro s t h
  have hunder (s : Station σ ρ) : (s.attach link parser policy role).under v =
      { s.under v with
        links := s.links.push link
        sessions := (s.under v).sessions.push
          ((Session.start s.links.size parser policy role).under v) } := by
    simp only [attach, under, Array.map_push]
  dsimp only
  rw [Alike, hunder, hunder, h.links, h]

theorem passes_addPort (name : String) (link : Link) :
    Passes v fun s : Station σ ρ => s.addPort name link := by
  intro s t h
  have hports (ports : List Port) : Passes v fun s : Station σ ρ => { s with ports } :=
    passes_of_commutes fun _ => rfl
  dsimp only
  rw [addPort, addPort, h.isOpen, h.links, h.ports]
  split
  · exact passes_attach _ _ _ _ (hports _ (passes_note _ h))
  · exact h

theorem passes_accept (i : Nat) (peer : String) (link : Link) :
    Passes v fun s : Station σ ρ => s.accept i peer link := by
  intro s t h
  dsimp only
  rw [accept, accept, h.listeners, h.isClosed, h.links]
  split
  · exact h
  · next listener _ =>
    split
    · generalize listener.tracker.add s.isClosed s.links.size = added
      obtain ⟨tracker, id, gone⟩ := added
      have hgone : Passes v fun s : Station σ ρ =>
          gone.foldl (fun s (x : Nat × Nat) => (s.note [.evicted x.1]).closeLink x.2) s :=
        passes_foldl (fun x _ _ h => passes_closeLink x.2 (passes_note [.evicted x.1] h)) gone
      have hhost : Passes v fun s : Station σ ρ =>
          { s with listeners := s.listeners.setIfInBounds i { listener with tracker } } :=
        passes_of_commutes fun _ => rfl
      exact passes_attach _ _ _ _ (hhost (passes_note [.accepted id peer] (hgone h)))
    · exact h

theorem alike_write (h : s.Alike v t) (i : Nat) (bytes : Bytes) {l l' : PhysicalLevel}
    (hl : v.physical l = v.physical l') : (s.write i bytes l).Alike v (t.write i bytes l') := by
  have hunder (s : Station σ ρ) (l : PhysicalLevel) :
      (s.write i bytes l).under v = (s.under v).write i bytes (v.physical l) := by
    simp only [write, under, Array.map_push]
    rfl
  rw [Alike, hunder, hunder, h, hl]

theorem alike_setLevel (h : s.Alike v t) {l l' : DecodeLevel} (hl : v.level l = v.level l') :
    ({ s with level := l } : Station σ ρ).Alike v { t with level := l' } := by
  have hunder (s : Station σ ρ) (l : DecodeLevel) :
      ({ s with level := l } : Station σ ρ).under v = { s.under v with level := v.level l } := rfl
  rw [Alike, hunder, hl, h]
  rfl

theorem alike_leave (h : s.Alike v t) {x y : Session} (hxy : x.under v = y.under v) (k : Nat)
    (fault : RequestFault) : (s.leave k x fault).Alike v (t.leave k y fault) := by
  obtain ⟨reader', phase', rfl, hreader, -⟩ := Session.eq_of_under hxy
  obtain ⟨link, reader, policy, role, phase⟩ := x
  have hset {s t : Station σ ρ} (h : s.Alike v t) (phase : SessionPhase) :
      (s.setSession k ⟨link, reader, policy, role, phase⟩).Alike v
        (t.setSession k ⟨link, reader', policy, role, phase⟩) :=
    alike_setSession h (Session.under_mk link policy role hreader rfl) k
  cases role with
  | bare => exact hset (passes_modifyLink link _ h) (.over fault)
  | port name => exact hset (passes_note [.portEnded name fault] h) (.over fault)
  | accepted listener id =>
    have hnoted := passes_note [.sessionEnded id fault] h
    dsimp only [leave] at hnoted ⊢
    rw [hnoted.stopped]
    split
    · exact hset hnoted (.departing fault .entering)
    · exact hset (passes_enqueue _ hnoted) (.over fault)

theorem alike_carryOut (h : s.Alike v t) {p q : Session × Demand × List Event}
    (hpq : v.Agree p q) (k : Nat) : (s.carryOut k p).Alike v (t.carryOut k q) := by
  obtain ⟨x, demand, events⟩ := p
  obtain ⟨y, demand', events'⟩ := q
  obtain ⟨hxy, hdemand, hevents⟩ := hpq
  dsimp only at hxy hdemand hevents
  subst hdemand
  have hnoted := alike_note h hevents
  cases demand with
  | nothing => exact alike_setSession hnoted hxy k
  | leave fault => exact alike_leave hnoted hxy k fault
  | submit frame =>
    have hlink : x.link = y.link := Session.link_eq hxy
    dsimp only [carryOut]
    rw [hnoted.stopped, ← hlink]
    split
    · exact alike_leave hnoted hxy k .shutdown
    · exact alike_setSession (passes_enqueue _ hnoted) hxy k

theorem alike_sessionStop (h : s.Alike v t) (k : Nat) :
    Option.Rel (Alike v) (s.sessionStop? k) (t.sessionStop? k) := by
  have hk := rel_of_map_eq h.sessions k
  rw [sessionStop?, sessionStop?, h.isClosed]
  generalize s.sessions[k]? = before at hk
  generalize t.sessions[k]? = after at hk
  cases hk with
  | none => exact .none
  | @some x y hxy =>
    have hlive : x.live = y.live := by
      rw [← x.live_under (v := v), hxy, y.live_under]
    have hlink : x.link = y.link := Session.link_eq hxy
    dsimp only [Option.bind_eq_bind, Option.bind_some]
    rw [hlive, hlink]
    split
    · exact .some (alike_leave h hxy k .shutdown)
    · exact .none

theorem alike_sessionStep (h : s.Alike v t) (k : Nat) :
    Option.Rel (Alike v) (s.sessionStep? k) (t.sessionStep? k) := by
  have hk := rel_of_map_eq h.sessions k
  rw [sessionStep?, sessionStep?, h.links]
  generalize s.sessions[k]? = before at hk
  generalize t.sessions[k]? = after at hk
  cases hk with
  | none => exact .none
  | @some x y hxy =>
    dsimp only [Option.bind_eq_bind, Option.bind_some]
    obtain ⟨reader', phase', rfl, hreader, hphase⟩ := Session.eq_of_under hxy
    have hboth := hxy
    have hroom := (Veil.same_of_reader hreader).room
    obtain ⟨link, reader, policy, role, phase⟩ := x
    dsimp only at hphase hboth ⊢
    cases phase with
    | parsing level =>
      cases phase' with
      | parsing level' =>
        have hlevel : v.level (level.getD s.level) = v.level (level'.getD t.level) :=
          Veil.level_getD (SessionPhase.parsing.inj hphase) h.level
        exact .some (alike_carryOut h (Session.agree_parse hboth hlevel) k)
      | _ => cases hphase
    | reading level =>
      cases phase' with
      | reading level' =>
        have hlevel : v.level level = v.level level' := SessionPhase.reading.inj hphase
        dsimp only
        cases s.links[link]? with
        | none => exact .none
        | some onto =>
          dsimp only [Option.bind_some]
          rw [← hroom]
          cases onto.incoming.read? reader.room with
          | none => exact .none
          | some result =>
            obtain ⟨got, incoming⟩ := result
            exact .some (alike_carryOut (passes_setLink _ _ h)
              (Session.agree_receive hboth hlevel got) k)
      | _ => cases hphase
    | departing fault stage =>
      cases phase' with
      | departing fault' stage' =>
        obtain ⟨rfl, rfl⟩ := SessionPhase.departing.inj hphase
        dsimp only
        cases s.links[link]? with
        | none => exact .none
        | some onto =>
          dsimp only [Option.bind_some]
          cases stage.step? (.session k) onto with
          | none => exact .none
          | some result =>
            exact .some (alike_setSession (passes_setLink _ _ h)
              (Session.under_mk link policy role hreader rfl) k)
      | _ => cases hphase
    | «over» fault =>
      cases phase' with
      | «over» fault' => exact .none
      | _ => cases hphase

theorem alike_writerStep (h : s.Alike v t) (i : Nat) :
    Option.Rel (Alike v) (s.writerStep? i) (t.writerStep? i) := by
  have hi := rel_of_map_eq h.writers i
  simp only [writerStep?, h.links, h.now]
  generalize s.writers[i]? = before at hi
  generalize t.writers[i]? = after at hi
  cases hi with
  | none => exact .none
  | @some x y hxy =>
    obtain ⟨write, result⟩ := x
    obtain ⟨write', result'⟩ := y
    obtain ⟨hwrite, hresult⟩ := Writer.mk.inj hxy
    dsimp only at hwrite hresult
    subst hresult
    obtain ⟨level, rfl, -⟩ := Write.eq_of_under hwrite
    dsimp only [Option.bind_eq_bind, Option.bind_some]
    split
    · exact .none
    · cases s.links[write.link]? with
      | none => exact .none
      | some link =>
        dsimp only [Option.bind_some]
        have hstep := Write.agree_step hwrite (.writer i) s.now link
        generalize write.step? (.writer i) s.now link = step at hstep
        generalize Write.step? _ (.writer i) s.now link = step' at hstep
        cases hstep with
        | none => exact .none
        | @some step _ hagree =>
          obtain ⟨events, rfl, hevents⟩ := hagree
          have hnoted := alike_note (passes_setLink write.link step.link h) hevents
          obtain ⟨onto, next, noted⟩ := step
          cases next with
          | inl stage =>
            have hafter : Writer.under v ⟨{ write with stage }, result⟩ =
                Writer.under v ⟨{ write with level, stage }, result⟩ :=
              congrArg (Writer.mk · result) (Write.under_stage hwrite stage)
            exact .some (alike_setWriter hnoted hafter i)
          | inr done =>
            have hafter : Writer.under v ⟨write, some done⟩ =
                Writer.under v ⟨{ write with level }, some done⟩ :=
              congrArg (Writer.mk · (some done)) hwrite
            exact .some (alike_setWriter hnoted hafter i)

theorem passes_stopListener (i : Nat) (listener : Listener) :
    Passes v fun s : Station σ ρ => s.stopListener i listener := by
  intro s t h
  have hclose : Passes v fun s : Station σ ρ =>
      listener.tracker.sessions.foldl (fun s (x : Nat × Nat) => s.closeLink x.2) s :=
    passes_foldl (fun x : Nat × Nat => passes_closeLink x.2) _
  have hstop : Passes v fun s : Station σ ρ => { s with
      listeners := s.listeners.setIfInBounds i
        { listener with running := false, tracker := listener.tracker.clear } } :=
    passes_of_commutes fun _ => rfl
  exact hstop (hclose h)

theorem passes_failAccept (i : Nat) (kind : IoKind) :
    Passes v fun s : Station σ ρ => s.failAccept i kind := by
  intro s t h
  dsimp only
  rw [failAccept, failAccept, h.listeners]
  split
  · exact h
  · next listener _ =>
    split
    · exact passes_stopListener i listener (passes_note [.acceptFailed kind] h)
    · exact h

theorem alike_listenerStep (h : s.Alike v t) (i : Nat) :
    Option.Rel (Alike v) (s.listenerStep? i) (t.listenerStep? i) := by
  simp only [listenerStep?, h.listeners]
  cases s.listeners[i]? with
  | none => exact .none
  | some listener =>
    dsimp only [Option.bind_eq_bind, Option.bind_some]
    split
    · exact .some (passes_stopListener i listener
        (passes_note [.closingListener listener.tracker.length] h))
    · exact .none

theorem cancelListener_eq (s : Station σ ρ) (i : Nat) :
    s.cancelListener i = (s.admitted i).foldl (fun s entry => s.closeLink entry.2)
      { s with listeners := s.listeners.modify i fun l => { l with cancelled := true } } := by
  rw [admitted, List.foldl_map]
  simp only [Session.link_entry]
  rfl

theorem passes_cancelListener (i : Nat) :
    Passes v fun s : Station σ ρ => s.cancelListener i := by
  intro s t h
  have hadmitted : t.admitted i = s.admitted i := admitted_congr (h.map_sessions fun _ => rfl) i
  have hcancel : Passes v fun s : Station σ ρ =>
      { s with listeners := s.listeners.modify i fun l => { l with cancelled := true } } :=
    passes_of_commutes fun _ => rfl
  have hclose (entries : List (Nat × Nat)) : Passes v fun s : Station σ ρ =>
      entries.foldl (fun s (entry : Nat × Nat) => s.closeLink entry.2) s :=
    passes_foldl (fun entry : Nat × Nat => passes_closeLink entry.2) entries
  dsimp only
  rw [cancelListener_eq, cancelListener_eq, hadmitted]
  exact hclose _ (hcancel h)

theorem alike_closingStep (h : s.Alike v t) :
    Option.Rel (Alike v) s.closingStep? t.closingStep? := by
  have hgo (closing : Closing) : Passes v fun s : Station σ ρ => { s with closing } :=
    passes_of_commutes fun _ => rfl
  have hstopped := h.stopped
  obtain ⟨u, rfl⟩ := h.eq
  unfold closingStep?
  rw [hstopped, closing_withHidden, links_withHidden, listeners_withHidden]
  cases s.closing with
  | notYet | done => exact .none
  | listeners rest =>
    cases rest with
    | nil => exact .some (hgo .sessions h)
    | cons i rest =>
      dsimp only
      cases s.listeners[i]? with
      | none => exact .some (hgo (.listeners rest) h)
      | some listener =>
        dsimp only
        split
        · exact .some (passes_cancelListener i h)
        · split
          · exact .none
          · exact .some (hgo (.listeners rest) (passes_note [.listenerClosed listener.address] h))
  | sessions =>
    dsimp only
    rw [h.all_sessions]
    · split
      · exact .some (hgo (.portLinks s.stopOrder) h)
      · exact .none
    · intro x
      rw [x.isOver_under]
      rfl
  | portLinks rest =>
    cases rest with
    | nil => exact .some (hgo .portSessions h)
    | cons port rest => exact .some (hgo (.portLinks rest) (passes_closeLink port.link h))
  | portSessions =>
    have hports : Passes v fun s : Station σ ρ =>
        { s with closing := .ports s.ports .entering, ports := [] } :=
      passes_of_commutes fun _ => rfl
    dsimp only
    rw [h.all_sessions]
    · split
      · exact .some (hports h)
      · exact .none
    · intro x
      rw [x.isOver_under]
      rfl
  | ports rest stage =>
    cases rest with
    | nil =>
      dsimp only
      split
      · exact .some (hgo .worker (passes_note [.workerAlreadyStopped] h))
      · exact .some (hgo .worker (passes_enqueue .stop h))
    | cons port rest =>
      dsimp only [Option.bind_eq_bind]
      cases s.links[port.link]? with
      | none => exact .none
      | some link =>
        dsimp only [Option.bind_some]
        cases stage.step? .closer link with
        | none => exact .none
        | some result =>
          obtain ⟨link, next⟩ := result
          cases next with
          | some stage =>
            exact .some (hgo (.ports (port :: rest) stage) (passes_setLink port.link link h))
          | none =>
            exact .some (hgo (.ports rest .entering) (passes_note [.portClosed port.name]
              (passes_setLink port.link { link with incoming := link.incoming.close } h)))
  | worker =>
    dsimp only
    split
    · exact .some (hgo .done (passes_note [.serverClosed] h))
    · exact .none

/-- The worker has no hidden message in front of it. -/
def Faces (v : Veil σ ρ) (s : Station σ ρ) : Prop :=
  ∀ message ∈ s.worker.queue.head?, v.keeps message = true

theorem Alike.front (h : s.Alike v t) (hs : s.Faces v) (ht : t.Faces v) :
    (s.worker.queue = [] ∧ t.worker.queue = []) ∨
      ∃ message queue queue', s.worker.queue = message :: queue ∧
        t.worker.queue = message :: queue' ∧ queue.filter v.keeps = queue'.filter v.keeps := by
  have hqueue := h.queue
  rw [Faces] at hs ht
  cases hleft : s.worker.queue with
  | nil =>
    cases hright : t.worker.queue with
    | nil => exact .inl ⟨rfl, rfl⟩
    | cons message queue =>
      rw [hright] at ht
      rw [hleft, hright, List.filter_cons_of_pos (ht message rfl)] at hqueue
      cases hqueue
  | cons message queue =>
    rw [hleft] at hs
    cases hright : t.worker.queue with
    | nil =>
      rw [hleft, hright, List.filter_cons_of_pos (hs message rfl)] at hqueue
      cases hqueue
    | cons message' queue' =>
      rw [hright] at ht
      rw [hleft, hright, List.filter_cons_of_pos (hs message rfl),
        List.filter_cons_of_pos (ht message' rfl)] at hqueue
      obtain ⟨rfl, hrest⟩ := List.cons.inj hqueue
      exact .inr ⟨message, queue, queue', rfl, rfl, hrest⟩

theorem alike_served (h : s.Alike v t) (service : Service σ) {queue queue' : List (Message σ ρ)}
    (hqueue : queue.filter v.keeps = queue'.filter v.keeps) :
    ({ s with worker := { s.worker with service, queue } } : Station σ ρ).Alike v
      { t with worker := { t.worker with service, queue := queue' } } := by
  have hunder (s : Station σ ρ) (queue : List (Message σ ρ)) :
      ({ s with worker := { s.worker with service, queue } } : Station σ ρ).under v =
        { s.under v with worker :=
          { (s.under v).worker with service, queue := queue.filter v.keeps } } := rfl
  rw [Alike, hunder, hqueue, h, hunder]

/-- The same message has the same effect. -/
theorem alike_takeMessage (h : s.Alike v t) (hs : s.Faces v) (ht : t.Faces v) :
    Option.Rel (Alike v) s.takeMessage? t.takeMessage? := by
  obtain ⟨hleft, hright⟩ | ⟨message, queue, queue', hleft, hright, hqueue⟩ := h.front hs ht
  · simp only [takeMessage?, hleft, hright]
    exact .none
  · obtain ⟨hservice, heffect⟩ := s.worker.service.handle_level message s.level t.level
    have hevents := Service.seen_handle h.level s.worker.service message
    simp only [takeMessage?, hleft, hright, h.service, ← hservice, ← heffect]
    have hserved := alike_note
      (alike_served h (s.worker.service.handle s.level message).1 hqueue) hevents
    have hphysical := Veil.physical_of_level hserved.level
    generalize s.worker.service.handle s.level message = handled at hserved hphysical ⊢
    generalize s.worker.service.handle t.level message = handled' at hserved hphysical ⊢
    obtain ⟨service, effect, events⟩ := handled
    obtain ⟨service', effect', events'⟩ := handled'
    cases effect with
    | nothing => exact .some hserved
    | respond link response =>
      refine .some (alike_setJob hserved ?_)
      rw [hserved.deadline]
      have hwrite := congrArg (Write.mk link response.encode · .entering) hphysical
      exact congrArg (Job.writing · _) hwrite
    | answer call result =>
      have hanswer : Passes v fun s : Station σ ρ =>
          { s with calls := s.calls.setIfInBounds call (.answered result) } :=
        passes_of_commutes fun _ => rfl
      exact .some (hanswer hserved)
    | release link =>
      refine .some (alike_setJob hserved ?_)
      rw [hserved.deadline]
    | stop =>
      have hstop : Passes v fun s : Station σ ρ =>
          { s.dropCalls with worker := { s.worker with queue := [], job := .stopped } } :=
        passes_of_commutes fun _ => rfl
      exact .some (hstop hserved)

theorem alike_workerStep (h : s.Alike v t) (hs : s.worker.job = .idle → s.Faces v)
    (ht : t.worker.job = .idle → t.Faces v) :
    Option.Rel (Alike v) s.workerStep? t.workerStep? := by
  have hlike := Job.like_of_under h.job
  simp only [workerStep?, h.links, h.now, h.timeout]
  generalize s.worker.job = job at hs hlike
  generalize t.worker.job = job' at ht hlike
  cases hlike with
  | stopped => exact .none
  | idle => exact alike_takeMessage h (hs rfl) (ht rfl)
  | releasing i stage deadline =>
    dsimp only
    cases s.links[i]?.bind (stage.step? .worker) with
    | none =>
      dsimp only
      split
      · exact .some (alike_setJob
          (passes_note [.releaseTimedOut s.worker.timeout] (passes_leaveLock i h)) rfl)
      · exact .none
    | some result =>
      obtain ⟨link, next⟩ := result
      have hlinked := passes_setLink i link h
      cases next with
      | some stage => exact .some (alike_setJob hlinked rfl)
      | none => exact .some (alike_setJob hlinked rfl)
  | @writing write write' hwrite deadline =>
    have hstep := Write.agree_bind_step hwrite .worker s.now s.links[write.link]?
    obtain ⟨level, rfl, -⟩ := Write.eq_of_under hwrite
    dsimp only
    generalize s.links[write.link]?.bind (write.step? .worker s.now) = step at hstep
    generalize s.links[write.link]?.bind (Write.step? _ .worker s.now) = step' at hstep
    cases hstep with
    | none =>
      dsimp only
      split
      · exact .some (alike_setJob (passes_writeFailed write.link (.timedOut s.worker.timeout)
          (passes_leaveLock write.link h)) rfl)
      · exact .none
    | @some step _ hagree =>
      obtain ⟨events, rfl, hevents⟩ := hagree
      have hnoted := alike_note (passes_setLink write.link step.link h) hevents
      obtain ⟨onto, next, noted⟩ := step
      cases next with
      | inl stage =>
        refine .some (alike_setJob hnoted ?_)
        exact congrArg (Job.writing · deadline) (Write.under_stage hwrite stage)
      | inr result =>
        cases result with
        | ok sent => exact .some (alike_setJob hnoted rfl)
        | error kind =>
          exact .some (alike_setJob (passes_writeFailed write.link (.io kind) hnoted) rfl)

theorem alike_getD {o p : Option (Station σ ρ)} (hs : s.Alike v t) (h : Option.Rel (Alike v) o p) :
    (o.getD s).Alike v (p.getD t) := by
  cases h with
  | none => exact hs
  | some hst => exact hst

/-- Whatever happens to both of two stations that look the same, they still do. -/
theorem alike_act (h : s.Alike v t) {a : Action σ ρ} (ha : a ≠ .step .worker) :
    (s.act a).Alike v (t.act a) := by
  cases a with
  | arrive i bytes => exact passes_arrive i bytes h
  | finish i => exact passes_modifyLink i _ h
  | collect i count => exact passes_collect i count h
  | deafen i => exact passes_modifyLink i _ h
  | breakDown i kind => exact passes_modifyLink i _ h
  | attach link parser policy => exact passes_attach link parser policy .bare h
  | listen address => exact passes_listen address h
  | accept i peer link => exact passes_accept i peer link h
  | failAccept i kind => exact passes_failAccept i kind h
  | addPort name link => exact passes_addPort name link h
  | submit message => exact passes_enqueue message h
  | call run => exact passes_call run h
  | close i => exact passes_closeLink i h
  | write i bytes level => exact alike_write h i bytes rfl
  | setLevel level => exact alike_setLevel h rfl
  | shutDown => exact passes_shutDown h
  | tick =>
    have htick : Passes v fun s : Station σ ρ => { s with now := s.now + 1 } :=
      passes_of_commutes fun _ => rfl
    exact htick h
  | sessionStop k => exact alike_getD h (alike_sessionStop h k)
  | step part =>
    cases part with
    | session k => exact alike_getD h (alike_sessionStep h k)
    | writer i => exact alike_getD h (alike_writerStep h i)
    | listener i => exact alike_getD h (alike_listenerStep h i)
    | closing => exact alike_getD h (alike_closingStep h)
    | worker => exact absurd rfl ha

theorem alike_act_worker (h : s.Alike v t) (hs : s.worker.job = .idle → s.Faces v)
    (ht : t.worker.job = .idle → t.Faces v) :
    (s.act (.step .worker)).Alike v (t.act (.step .worker)) :=
  alike_getD h (alike_workerStep h hs ht)

/-- Where no message is hidden, the worker cannot tell the stations apart either. -/
theorem alike_act_of_keeps (hkeeps : ∀ message, v.keeps message = true) (h : s.Alike v t)
    (a : Action σ ρ) : (s.act a).Alike v (t.act a) := by
  by_cases hworker : a = .step .worker
  · subst hworker
    exact alike_act_worker h (fun _ message _ => hkeeps message) fun _ message _ => hkeeps message
  · exact alike_act h hworker

theorem queue_of_keeps (hkeeps : ∀ message, v.keeps message = true) (h : s.Alike v t) :
    t.worker.queue = s.worker.queue := by
  have hall (queue : List (Message σ ρ)) : queue.filter v.keeps = queue :=
    List.filter_eq_self.mpr fun message _ => hkeeps message
  rw [← hall t.worker.queue, ← h.queue, hall]

end Station

end ModbusSlave
