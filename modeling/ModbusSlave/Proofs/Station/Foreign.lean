import ModbusSlave.Proofs.Station.Output
import ModbusSlave.Proofs.Station.Prompt
import ModbusSlave.Proofs.Station.Semblance

/-!
# Requests for other units

A request for another unit leaves a line in the log when its turn comes, and nothing else. So a
station does the same without all such requests: in any order of steps, without the turns in which
the worker passes over one of them, and with the same steps otherwise if the worker never keeps
anybody waiting.
-/
namespace ModbusSlave

/-- A request for another unit. The broadcast is one, unless `unit` is zero. -/
def Message.isForeign {σ ρ : Type} (unit : UnitId) : Message σ ρ → Bool
  | .request _ frame => frame.unit ≠ unit
  | _ => false

/-- A line about a request for another unit. -/
def Event.isForeign : Event → Bool
  | foreignUnit _ _ => true
  | _ => false

theorem Event.severity_of_isForeign {e : Event} (h : e.isForeign = true) :
    e.severity = .debug := by
  cases e with
  | foreignUnit unit own => rfl
  | _ => cases h

/-- Requests for units other than `unit` are hidden, and the lines about them. -/
def Veil.foreign {σ ρ : Type} (unit : UnitId) : Veil σ ρ where
  mutes := false
  blurs := false
  shows e := !e.isForeign
  keeps message := !message.isForeign unit
  traffic h := nomatch h

namespace Station

variable {σ ρ : Type}

@[simp] theorem note_nil (s : Station σ ρ) : s.note [] = s := by simp [note]

/-- The requests for other units are taken out of the queue. -/
def purge (unit : UnitId) (s : Station σ ρ) : Station σ ρ :=
  { s with worker :=
    { s.worker with queue := s.worker.queue.filter fun message => !message.isForeign unit } }

/-- The stations differ at most in requests for other units that wait, and in the lines about such
requests. -/
structure SameButForeign (unit : UnitId) (s t : Station σ ρ) : Prop where
  rest : t = { s with log := t.log, worker := { s.worker with queue := t.worker.queue } }
  queue : s.worker.queue.filter (!·.isForeign unit) = t.worker.queue.filter (!·.isForeign unit)
  log : s.log.filter (!·.isForeign) = t.log.filter (!·.isForeign)

/-- No request for another unit waits. -/
def Own (unit : UnitId) (s : Station σ ρ) : Prop :=
  ∀ message ∈ s.worker.queue, message.isForeign unit = false

/-- In this action, the worker takes a request for another unit. -/
def passesOver (s : Station σ ρ) : Action σ ρ → Bool
  | .step .worker => s.worker.job = .idle && s.worker.queue.head?.any (·.isForeign s.unit)
  | _ => false

/-- A history without the turns in which the worker takes a request for another unit. -/
def ownTurns : Station σ ρ → List (Action σ ρ) → List (Action σ ρ)
  | _, [] => []
  | s, a :: rest =>
    if s.passesOver a then ownTurns (s.act a) rest else a :: ownTurns (s.act a) rest

/-- An action, behind which no request for another unit waits. -/
def actPurged (unit : UnitId) (s : Station σ ρ) (a : Action σ ρ) : Station σ ρ :=
  (s.act a).purge unit

variable {unit : UnitId} {s t : Station σ ρ}

theorem sameButForeign_of_alike (h : s.Alike (.foreign unit) t) : s.SameButForeign unit t := by
  refine ⟨?_, h.queue, congrArg Station.log h⟩
  have hsessions : t.sessions = s.sessions := by
    have hmap := h.map_sessions (f := id) (Session.under_of_shown rfl rfl)
    rwa [Array.map_id, Array.map_id] at hmap
  have hrest := h.rest rfl
  rwa [hsessions] at hrest

theorem alike_purge (s : Station σ ρ) : (s.purge unit).Alike (.foreign unit) s := by
  have hqueue : (s.purge unit).worker.queue.filter (Veil.foreign unit).keeps =
      s.worker.queue.filter (Veil.foreign unit).keeps := by
    simp [purge, Veil.foreign, List.filter_filter]
  rw [Alike, under, hqueue]
  rfl

theorem own_purge (s : Station σ ρ) : (s.purge unit).Own unit := by
  intro message hmessage
  simpa using (List.mem_filter.mp hmessage).2

theorem Own.faces (h : s.Own unit) : s.Faces (.foreign unit) := by
  intro message hmessage
  have hmem := List.mem_of_mem_head? hmessage
  simp [Veil.foreign, h message hmem]

theorem act_of_passesOver {a : Action σ ρ} (h : s.passesOver a = true) :
    ∃ link frame queue, s.worker.queue = .request link frame :: queue ∧ frame.unit ≠ s.unit ∧
      s.act a = ({ s with worker := { s.worker with queue } } : Station σ ρ).note
        [.foreignUnit frame.unit s.unit] := by
  unfold passesOver at h
  split at h
  · rw [Bool.and_eq_true, decide_eq_true_eq] at h
    obtain ⟨hidle, hhead⟩ := h
    cases hqueue : s.worker.queue with
    | nil =>
      rw [hqueue] at hhead
      cases hhead
    | cons message queue =>
      rw [hqueue] at hhead
      cases message with
      | request link frame =>
        have hunit : frame.unit ≠ s.unit := of_decide_eq_true hhead
        refine ⟨link, frame, queue, rfl, hunit, ?_⟩
        have hother : ¬ frame.unit = s.worker.service.unit := hunit
        simp only [act, partStep?, workerStep?, hidle, takeMessage?, hqueue, Service.handle,
          if_neg hother, Option.getD_some]
        rfl
      | _ => cases hhead
  · cases h

theorem alike_of_passesOver {a : Action σ ρ} (h : s.passesOver a = true) :
    (s.act a).Alike (.foreign s.unit) s := by
  obtain ⟨link, frame, queue, hqueue, hunit, hact⟩ := act_of_passesOver h
  have hhidden : (Veil.foreign (σ := σ) (ρ := ρ) s.unit).seen
      [.foreignUnit frame.unit s.unit] = [] := rfl
  have htail : queue.filter (Veil.foreign s.unit).keeps =
      s.worker.queue.filter (Veil.foreign s.unit).keeps := by
    have hdropped : (Veil.foreign s.unit).keeps (.request link frame : Message σ ρ) = false := by
      simp [Veil.foreign, Message.isForeign, hunit]
    rw [hqueue, List.filter_cons_of_neg (by rw [hdropped]; decide)]
  have hpopped : ({ s with worker := { s.worker with queue } } : Station σ ρ).Alike
      (.foreign s.unit) s := by
    rw [Alike, under, htail]
    rfl
  have hnoted := under_note (v := .foreign s.unit)
    ({ s with worker := { s.worker with queue } } : Station σ ρ) [.foreignUnit frame.unit s.unit]
  rw [hact, Alike, hnoted, hhidden, hpopped, note_nil]

theorem faces_of_not_passesOver (hunit : s.unit = unit)
    (h : s.passesOver (.step .worker) = false) (hidle : s.worker.job = .idle) :
    s.Faces (.foreign unit) := by
  intro message hmessage
  rw [passesOver, decide_eq_true hidle, Bool.true_and, hmessage, hunit] at h
  simpa [Veil.foreign] using h

theorem alike_own_act (h : s.Alike (.foreign unit) t) (hunit : s.unit = unit) (ht : t.Own unit)
    {a : Action σ ρ} (ha : s.passesOver a = false) :
    (s.act a).Alike (.foreign unit) (t.act a) := by
  by_cases hworker : a = .step .worker
  · subst hworker
    exact alike_act_worker h (faces_of_not_passesOver hunit ha) fun _ => ht.faces
  · exact alike_act h hworker

/-- Whatever the order of steps, a station does the same without the requests for other units. -/
theorem purged_run (h : s.Alike (.foreign unit) t) (hunit : s.unit = unit) (ht : t.Own unit)
    (history : List (Action σ ρ)) :
    (s.run history).Alike (.foreign unit) ((s.ownTurns history).foldl (actPurged unit) t) ∧
      ∀ i, outputOn i act s history = outputOn i (actPurged unit) t (s.ownTurns history) := by
  induction history generalizing s t with
  | nil => exact ⟨h, fun _ => rfl⟩
  | cons a rest ih =>
    have hunit' : (s.act a).unit = unit := (s.unit_act a).trans hunit
    cases hpasses : s.passesOver a with
    | true =>
      have hpassed := alike_of_passesOver hpasses
      rw [hunit] at hpassed
      obtain ⟨hrest, houtput⟩ := ih (hpassed.trans h) hunit' ht
      rw [ownTurns, if_pos hpasses]
      refine ⟨hrest, fun i => ?_⟩
      rw [outputOn, newOn_of_links hpassed.symm.links, List.nil_append, houtput]
    | false =>
      have hact : (s.act a).Alike (.foreign unit) (actPurged unit t a) :=
        (alike_own_act h hunit ht hpasses).trans (alike_purge _).symm
      obtain ⟨hrest, houtput⟩ := ih hact hunit' (own_purge _)
      rw [ownTurns, hpasses]
      refine ⟨hrest, fun i => ?_⟩
      rw [outputOn, houtput]
      exact congrArg (· ++ _) (newOn_congr h.links hact.links hact.now).symm

theorem exists_ownTurns (s : Station σ ρ) (own : List (Action σ ρ)) :
    ∃ history, s.ownTurns history = own := by
  induction own generalizing s with
  | nil => exact ⟨[], rfl⟩
  | cons a own ih =>
    -- On the messages that wait: to pass over one of them takes a turn, and they get fewer.
    induction hn : s.worker.queue.length using Nat.strongRecOn generalizing s with
    | ind n ihn =>
      cases hpasses : s.passesOver a with
      | true =>
        obtain ⟨link, frame, queue, hqueue, -, hact⟩ := act_of_passesOver hpasses
        have hfewer : (s.act a).worker.queue.length < n := by
          rw [hact, ← hn, hqueue]
          exact Nat.lt_succ_self _
        obtain ⟨history, hhistory⟩ := ihn _ hfewer (s.act a) rfl
        refine ⟨a :: history, ?_⟩
        rw [ownTurns, if_pos hpasses, hhistory]
      | false =>
        obtain ⟨history, hhistory⟩ := ih (s.act a)
        refine ⟨a :: history, ?_⟩
        rw [ownTurns, hpasses, hhistory]
        rfl

theorem Own.workerStep (ht : s.Own unit) (h : s.workerStep? = some t) : t.Own unit :=
  fun message hmessage => ht message ((queue_sublist_of_workerStep? h).subset hmessage)

theorem Own.act_worker (h : s.Own unit) : (s.act (.step .worker)).Own unit := by
  cases hstep : s.workerStep? with
  | none => simpa only [act, partStep?, hstep, Option.getD_none]
  | some t => simpa only [act_worker_of_some hstep] using h.workerStep hstep

theorem Own.serve (h : s.Own unit) : s.serve.Own unit := by
  induction s using serve.induct with
  | case1 s hstep => rwa [serve_of_none hstep]
  | case2 s t hstep ih =>
    rw [serve_of_some hstep]
    exact ih (h.workerStep hstep)

theorem purge_of_own (h : s.Own unit) : s.purge unit = s := by
  have hqueue : s.worker.queue.filter (!·.isForeign unit) = s.worker.queue :=
    List.filter_eq_self.mpr fun message hmessage => by rw [h message hmessage]; rfl
  rw [purge, hqueue]

/-- The worker does the same until it has to wait, whether it passes over requests for other units
on the way or there are none. -/
theorem alike_serve (h : s.Alike (.foreign unit) t) (hunit : s.unit = unit) (ht : t.Own unit) :
    s.serve.Alike (.foreign unit) t.serve := by
  induction s using serve.induct generalizing t with
  | case1 s hstep =>
    have hfaces (hidle : s.worker.job = .idle) : s.Faces (.foreign unit) := by
      intro message hmessage
      rw [queue_eq_nil_of_workerStep? hstep hidle] at hmessage
      cases hmessage
    have hboth := alike_workerStep h hfaces fun _ => ht.faces
    rw [hstep] at hboth
    generalize hother : t.workerStep? = other at hboth
    cases hboth
    rwa [serve_of_none hstep, serve_of_none hother]
  | case2 s s' hstep ih =>
    have hact := act_worker_of_some hstep
    have hunit' : s'.unit = unit := by rw [← hact, unit_act, hunit]
    rw [serve_of_some hstep]
    cases hpasses : s.passesOver (.step .worker) with
    | true =>
      have hpassed := alike_of_passesOver hpasses
      rw [hact, hunit] at hpassed
      exact ih (hpassed.trans h) hunit' ht
    | false =>
      have hboth := alike_workerStep h (faces_of_not_passesOver hunit hpasses) fun _ => ht.faces
      rw [hstep] at hboth
      generalize hother : t.workerStep? = other at hboth
      cases hboth with
      | some halike =>
        rw [serve_of_some hother]
        exact ih halike hunit' (ht.workerStep hother)

/-- An action, after which the worker takes its turns at once, and finds no request for another
unit. -/
def promptPurged (unit : UnitId) (s : Station σ ρ) (a : Action σ ρ) : Station σ ρ :=
  ((s.act a).purge unit).serve

theorem alike_prompt (h : s.Alike (.foreign unit) t) (hunit : s.unit = unit) (ht : t.Own unit)
    (a : Action σ ρ) :
    (prompt s a).Alike (.foreign unit) (promptPurged unit t a) := by
  by_cases hworker : a = .step .worker
  · subst hworker
    rw [prompt, promptPurged, purge_of_own ht.act_worker, serve_act_worker, serve_act_worker]
    exact alike_serve h hunit ht
  · have hact := (alike_act h hworker).trans (alike_purge (t.act a)).symm
    exact alike_serve hact ((s.unit_act a).trans hunit) (own_purge _)

/-- With a worker that keeps nobody waiting, a station does the same at the same times without the
requests for other units. -/
theorem promptPurged_run (h : s.Alike (.foreign unit) t) (hunit : s.unit = unit) (ht : t.Own unit)
    (history : List (Action σ ρ)) :
    (history.foldl prompt s).Alike (.foreign unit) (history.foldl (promptPurged unit) t) ∧
      ∀ i, outputOn i prompt s history = outputOn i (promptPurged unit) t history := by
  induction history generalizing s t with
  | nil => exact ⟨h, fun _ => rfl⟩
  | cons a rest ih =>
    have hprompt := alike_prompt h hunit ht a
    obtain ⟨hrest, houtput⟩ :=
      ih hprompt ((s.unit_prompt a).trans hunit) (own_purge (t.act a)).serve
    refine ⟨hrest, fun i => ?_⟩
    rw [outputOn, outputOn, houtput, newOn_congr h.links hprompt.links hprompt.now]

/-- Whatever waits and whatever happens, requests for other units have no effect but lines in the
log at the level of debugging. In any order of steps, a station does the same without them and
without the turns in which the worker passes over them; every order of steps without them comes
about in this way. With a worker that keeps nobody waiting, the actions are the same for both, and
so are the times at which anything is put on a link. -/
theorem foreign_requests_ignored (s : Station σ ρ) :
    (∀ history,
      (s.run history).SameButForeign s.unit
          ((s.ownTurns history).foldl (actPurged s.unit) (s.purge s.unit)) ∧
        ∀ i, outputOn i act s history =
          outputOn i (actPurged s.unit) (s.purge s.unit) (s.ownTurns history)) ∧
      (∀ own, ∃ history, s.ownTurns history = own) ∧
      (∀ history,
        (history.foldl prompt s).SameButForeign s.unit
            (history.foldl (promptPurged s.unit) (s.purge s.unit)) ∧
          ∀ i, outputOn i prompt s history =
            outputOn i (promptPurged s.unit) (s.purge s.unit) history) ∧
      ∀ e : Event, e.isForeign = true → e.severity = .debug := by
  have hpurge : s.Alike (.foreign s.unit) (s.purge s.unit) := (alike_purge s).symm
  refine ⟨fun history => ?_, s.exists_ownTurns, fun history => ?_,
    fun e => e.severity_of_isForeign⟩
  · obtain ⟨halike, houtput⟩ := purged_run hpurge rfl (own_purge s) history
    exact ⟨sameButForeign_of_alike halike, houtput⟩
  · obtain ⟨halike, houtput⟩ := promptPurged_run hpurge rfl (own_purge s) history
    exact ⟨sameButForeign_of_alike halike, houtput⟩

/-- A request for another unit, one for this unit and a broadcast wait for the worker. -/
def threeUnits : Station Unit Unit :=
  let s : Station Unit Unit := .ofSettings ⟨⟨1⟩, .uniform 2, .ofSeconds 1, none, .nothing⟩
  let read (unit : UInt8) : Message Unit Unit :=
    .request 0 ⟨.mbap unit.toUInt16, ⟨unit⟩, 3, [0, 0, 0, 1]⟩
  { s with
    links := #[.fresh 16 16 false none]
    worker := { s.worker with queue := [read 2, read 1, read 0] } }

/-- The worker passes over two of the requests, and answers the third. -/
theorem foreign_requests_ignored_between :
    let turns := List.replicate 8 (.step .worker)
    (threeUnits.run turns).SameButForeign ⟨1⟩
        ((threeUnits.ownTurns turns).foldl (actPurged ⟨1⟩) (threeUnits.purge ⟨1⟩)) ∧
      (threeUnits.ownTurns turns).length = 6 ∧
      (threeUnits.run turns).log.countP (·.isForeign) = 2 ∧
      (outputOn 0 act threeUnits turns).map (·.2.length) = [11] := by
  intro turns
  obtain ⟨hruns, -⟩ := foreign_requests_ignored threeUnits
  exact ⟨(hruns turns).1, by decide +kernel, by decide +kernel, by decide +kernel⟩

end Station

end ModbusSlave
