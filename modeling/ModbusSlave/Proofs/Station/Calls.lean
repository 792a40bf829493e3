import Mathlib.Data.List.Induction
import ModbusSlave.Proofs.Station.Linearization

/-!
# What becomes of the calls

A call asks for an access to the memory. Its access is put into the queue unless the service has
stopped, and from there the worker either takes it, once and at its place among the other messages,
or never reaches it because a stop comes first. What the call is told is exactly which of these it
was, so that an answer is always the result of the one execution and a refusal means that there was
none.
-/
namespace ModbusSlave

def Message.isAccess {σ ρ : Type} (n : Nat) : Message σ ρ → Bool
  | .access call _ => call = n
  | _ => false

theorem takeWhile_front {α : Type} {p : α → Bool} {front : List α} {x : α} (back : List α)
    (hfront : ∀ y ∈ front, p y = false) (hx : p x = true) :
    (front ++ x :: back).takeWhile (!p ·) = front := by
  have hall : ∀ y ∈ front, (!p y) = true := fun y hy => by rw [hfront y hy]; rfl
  rw [List.takeWhile_append_of_pos hall, List.takeWhile_cons_of_neg (by simp [hx]),
    List.append_nil]

section

variable {σ ρ : Type} {n : Nat} {run run' : Memory → Memory × ρ}
  {front front' messages : List (Message σ ρ)}

/-- The access of the call `n` stands behind `front` and nowhere else. -/
def StandsBehind (n : Nat) (run : Memory → Memory × ρ) (front messages : List (Message σ ρ)) :
    Prop :=
  ∃ back, messages = front ++ .access n run :: back ∧ ∀ m ∈ front ++ back, m.isAccess n = false

theorem isAccess_access (n : Nat) (run : Memory → Memory × ρ) :
    (.access n run : Message σ ρ).isAccess n = true := decide_eq_true rfl

theorem StandsBehind.append (h : StandsBehind n run front messages) {more : List (Message σ ρ)}
    (hmore : ∀ m ∈ more, m.isAccess n = false) :
    StandsBehind n run front (messages ++ more) := by
  obtain ⟨back, rfl, hnone⟩ := h
  refine ⟨back ++ more, by rw [List.append_assoc, List.cons_append], ?_⟩
  rw [← List.append_assoc]
  exact List.forall_mem_append.mpr ⟨hnone, hmore⟩

theorem standsBehind_concat (run : Memory → Memory × ρ)
    (h : ∀ m ∈ messages, m.isAccess n = false) :
    StandsBehind n run messages (messages ++ [.access n run]) :=
  ⟨[], rfl, by rwa [List.append_nil]⟩

theorem StandsBehind.unique (h : StandsBehind n run front messages)
    (h' : StandsBehind n run' front' messages) : front = front' ∧ run = run' := by
  obtain ⟨back, rfl, hnone⟩ := h
  obtain ⟨back', hmessages, hnone'⟩ := h'
  have hfront := takeWhile_front back (fun m hm => hnone m (List.mem_append_left _ hm))
    (isAccess_access n run)
  have hfront' := takeWhile_front back' (fun m hm => hnone' m (List.mem_append_left _ hm))
    (isAccess_access n run')
  rw [hmessages] at hfront
  obtain rfl : front = front' := hfront.symm.trans hfront'
  have hcons := List.append_cancel_left hmessages
  cases hcons
  exact ⟨rfl, rfl⟩

theorem StandsBehind.not_none (h : StandsBehind n run front messages) :
    ¬ ∀ m ∈ messages, m.isAccess n = false := by
  obtain ⟨back, rfl, -⟩ := h
  intro hnone
  have hself := hnone _ (List.mem_append_right front List.mem_cons_self)
  rw [isAccess_access] at hself
  cases hself

end

namespace Station

variable {σ ρ : Type} {s t : Station σ ρ} {a : Action σ ρ}

/-- The function that an action asks to carry out. -/
def asked (_ : Station σ ρ) : Action σ ρ → List (Memory → Memory × ρ)
  | .call run => [run]
  | _ => []

section

/-! Nobody but the worker and those who call touches the calls. -/

@[simp] theorem calls_enqueue (s : Station σ ρ) (message : Message σ ρ) :
    (s.enqueue message).calls = s.calls := by
  unfold enqueue
  split <;> rfl

theorem calls_leave (s : Station σ ρ) (k : Nat) (session : Session) (fault : RequestFault) :
    (s.leave k session fault).calls = s.calls := by
  unfold leave
  split
  · rfl
  · rfl
  · dsimp only
    split
    · rfl
    · exact calls_enqueue _ _

theorem calls_carryOut (s : Station σ ρ) (k : Nat) (step : Session × Demand × List Event) :
    (s.carryOut k step).calls = s.calls := by
  obtain ⟨session, demand, events⟩ := step
  cases demand with
  | nothing => rfl
  | submit frame =>
    simp only [carryOut]
    split
    · exact calls_leave _ k session .shutdown
    · exact calls_enqueue _ _
  | leave fault => exact calls_leave _ k session fault

theorem calls_sessionStep? {k : Nat} (h : s.sessionStep? k = some t) : t.calls = s.calls := by
  simp only [sessionStep?, Option.bind_eq_bind, Option.bind_eq_some_iff] at h
  obtain ⟨session, -, h⟩ := h
  split at h
  · cases h
    exact calls_carryOut s k _
  · simp only [Option.bind_eq_some_iff, Option.some.injEq] at h
    obtain ⟨link, -, ⟨got, incoming⟩, -, rfl⟩ := h
    exact calls_carryOut _ k _
  · simp only [Option.bind_eq_some_iff, Option.some.injEq] at h
    obtain ⟨link, -, ⟨after, next⟩, -, rfl⟩ := h
    rfl
  · cases h

theorem calls_sessionStop? {k : Nat} (h : s.sessionStop? k = some t) : t.calls = s.calls := by
  simp only [sessionStop?, Option.bind_eq_bind, Option.bind_eq_some_iff,
    Option.ite_none_right_eq_some, Option.some.injEq] at h
  obtain ⟨session, -, -, rfl⟩ := h
  exact calls_leave s k session .shutdown

theorem calls_writerStep? {k : Nat} (h : s.writerStep? k = some t) : t.calls = s.calls := by
  simp only [writerStep?, Option.bind_eq_bind, Option.bind_eq_some_iff] at h
  obtain ⟨writer, -, h⟩ := h
  split at h
  · cases h
  · simp only [Option.bind_eq_some_iff, Option.some.injEq] at h
    obtain ⟨link, -, step, -, rfl⟩ := h
    rfl

theorem calls_of_halts {k : Nat} (h : s.Halts k t) : t.calls = s.calls := by
  cases h
  exact foldl_fixed (·.calls) (fun s (x : Nat × Nat) => s.closeLink x.2) (fun _ _ => rfl) _ _

theorem calls_of_closingMove (h : s.ClosingMove t) : t.calls = s.calls := by
  cases h with
  | cancels =>
    exact foldl_fixed (·.calls) (fun s (session : Session) => s.closeLink session.link)
      (fun _ _ => rfl) _ _
  | stops => exact calls_enqueue s .stop
  | _ => rfl

theorem calls_accept (s : Station σ ρ) (k : Nat) (peer : String) (link : Link) :
    (s.accept k peer link).calls = s.calls := by
  unfold accept
  split
  · rfl
  · split
    · exact foldl_fixed (·.calls) (fun s (id, link) => (s.note [.evicted id]).closeLink link)
        (fun _ _ => rfl) s _
    · rfl

theorem calls_writeFailed (s : Station σ ρ) (i : Nat) (fault : WriteFault) :
    (s.writeFailed i fault).calls = s.calls := by
  unfold writeFailed
  cases (s.links[i]?.map (·.persistent)).getD true <;> rfl

theorem calls_of_busy (h : s.WorkerMove t) (hbusy : s.worker.job ≠ .idle) : t.calls = s.calls := by
  cases h with
  | take idle => exact absurd idle hbusy
  | write =>
    unfold afterWrite
    split
    · rfl
    · rfl
    · exact calls_writeFailed _ _ _
  | giveUpWrite => exact calls_writeFailed _ _ _
  | @release i deadline stage link after next =>
    cases next with
    | none => rfl
    | some stage => rfl
  | giveUpRelease => rfl

theorem calls_act (hworker : a ≠ .step .worker) (hcall : ∀ run, a ≠ .call run) :
    (s.act a).calls = s.calls := by
  cases a with
  | arrive i bytes =>
    rcases s.act_arrive i bytes with hact | ⟨link, incoming, rest, -, -, hact⟩
    · rw [hact]
    · rw [hact]
      rfl
  | collect i count =>
    rcases s.act_collect i count with hact | ⟨link, outgoing, got, -, -, hact⟩
    · rw [hact]
    · rw [hact]
      rfl
  | listen address =>
    simp only [act, listen]
    split <;> rfl
  | accept i peer link => exact calls_accept s i peer link
  | failAccept i kind =>
    rcases s.act_failAccept i kind with hsame | hhalts
    · rw [hsame]
    · exact calls_of_halts hhalts
  | addPort name link =>
    simp only [act, addPort]
    split <;> rfl
  | submit message => exact calls_enqueue s message
  | call run => exact absurd rfl (hcall run)
  | shutDown =>
    simp only [act, shutDown]
    split <;> rfl
  | sessionStop k =>
    simp only [act]
    cases hstop : s.sessionStop? k with
    | none => rfl
    | some t => exact calls_sessionStop? hstop
  | step part =>
    cases part with
    | worker => exact absurd rfl hworker
    | closing =>
      rcases s.act_closing with hsame | hmove
      · rw [hsame]
      · exact calls_of_closingMove hmove
    | session k =>
      simp only [act, partStep?]
      cases hstep : s.sessionStep? k with
      | none => rfl
      | some t => exact calls_sessionStep? hstep
    | writer k =>
      simp only [act, partStep?]
      cases hstep : s.writerStep? k with
      | none => rfl
      | some t => exact calls_writerStep? hstep
    | listener k =>
      rcases s.act_listener k with hsame | hhalts
      · rw [hsame]
      · exact calls_of_halts hhalts
  | _ => rfl

theorem Keeps.calls (h : s.Keeps a) (hcall : ∀ run, a ≠ .call run) :
    (s.act a).calls = s.calls := by
  by_cases hworker : a = .step .worker
  · subst hworker
    rcases h.busy with hsame | ⟨hmove, hbusy⟩
    · rw [hsame]
    · exact calls_of_busy hmove hbusy
  · exact calls_act hworker hcall

theorem calls_call (s : Station σ ρ) (run : Memory → Memory × ρ) :
    (s.act (.call run)).calls = s.calls.push (if s.stopped then .dropped else .pending) := by
  simp only [act, call]
  split <;> rfl

end

/-- What becomes of the calls when a message is taken. -/
def callsFor (s : Station σ ρ) : Message σ ρ → Array (Call ρ)
  | .access call run => s.calls.setIfInBounds call (.answered (run s.image.memory).2)
  | .stop => s.dropCalls.calls
  | _ => s.calls

theorem calls_of_takeMessage? {message : Message σ ρ} {queue : List (Message σ ρ)}
    (hqueue : s.worker.queue = message :: queue) (h : s.takeMessage? = some t) :
    t.calls = s.callsFor message := by
  simp only [takeMessage?, hqueue, Option.some.injEq] at h
  subst h
  cases message with
  | request link frame =>
    by_cases own : frame.unit = s.worker.service.unit
    · rw [Service.handle, if_pos own]
      rfl
    · rw [Service.handle, if_neg own]
      rfl
  | _ => rfl

theorem Takes.calls {message : Message σ ρ} {queue : List (Message σ ρ)}
    (h : s.Takes a message queue) : (s.act a).calls = s.callsFor message := by
  rw [h.action]
  obtain ⟨hnone, -⟩ | hmove := s.act_worker
  · have hempty := queue_eq_nil_of_workerStep? hnone h.idle
    rw [h.waiting] at hempty
    cases hempty
  · obtain ⟨_, _, -, ht⟩ := take_of_move hmove h.idle
    exact calls_of_takeMessage? h.waiting ht

theorem getElem?_callsFor {n : Nat} {message : Message σ ρ} (h : message.isAccess n = false)
    (hstop : message.isStop = false) : (s.callsFor message)[n]? = s.calls[n]? := by
  cases message with
  | access call run =>
    have hne : call ≠ n := of_decide_eq_false h
    exact Array.getElem?_setIfInBounds_ne hne
  | stop => cases hstop
  | _ => rfl

theorem size_callsFor (s : Station σ ρ) (message : Message σ ρ) :
    (s.callsFor message).size = s.calls.size := by
  cases message with
  | access call run => exact Array.size_setIfInBounds
  | stop => exact Array.size_map
  | _ => rfl

theorem size_calls_act (s : Station σ ρ) (a : Action σ ρ) :
    (s.act a).calls.size = s.calls.size + (s.asked a).length := by
  by_cases hcall : ∃ run, a = .call run
  · obtain ⟨run, rfl⟩ := hcall
    rw [calls_call, Array.size_push]
    rfl
  · have hnone : s.asked a = [] := by
      cases a with
      | call run => exact absurd ⟨run, rfl⟩ hcall
      | _ => rfl
    rw [hnone, List.length_nil, Nat.add_zero]
    obtain hkeeps | ⟨message, queue, htakes⟩ := s.keeps_or_takes a
    · rw [hkeeps.calls fun run hrun => hcall ⟨run, hrun⟩]
    · rw [htakes.calls, size_callsFor]

theorem size_calls_run (s : Station σ ρ) (actions : List (Action σ ρ)) :
    (s.run actions).calls.size = s.calls.size + (s.along asked actions).length := by
  induction actions generalizing s with
  | nil => rfl
  | cons a rest ih =>
    rw [run_cons, ih, size_calls_act, along, List.length_append, Nat.add_assoc]

theorem call_of_access (ha : ∀ number run, a ≠ .submit (.access number run)) {n : Nat}
    {message : Message σ ρ} (hmem : message ∈ s.queued a) (haccess : message.isAccess n = true) :
    ∃ run, a = .call run ∧ s.calls.size = n := by
  have hworker : a ≠ .step .worker := by
    rintro rfl
    rw [queued_worker] at hmem
    cases hmem
  cases (source_of_queued hworker hmem).1 with
  | session known tells =>
    cases message with
    | access => cases tells
    | _ => cases haccess
  | sessionStop known tells =>
    cases message with
    | access => cases tells
    | _ => cases haccess
  | submit =>
    cases message with
    | access number run => exact absurd rfl (ha number run)
    | _ => cases haccess
  | @call run => exact ⟨run, rfl, of_decide_eq_true haccess⟩
  | shutDown => cases haccess

theorem queued_call (s : Station σ ρ) (run : Memory → Memory × ρ) :
    s.queued (.call run) = if s.stopped then [] else [.access s.calls.size run] := by
  apply Offers.queued
  simp only [act, call]
  split
  · next hs => exact .of_stopped hs rfl
  · exact (offers_enqueue s (.access s.calls.size run)).congr rfl

theorem Takes.mem_queue {message m : Message σ ρ} {queue : List (Message σ ρ)}
    (h : s.Takes a message queue) (hm : m ∈ (s.act a).worker.queue) : m ∈ queue := by
  rw [h.worker] at hm
  dsimp only at hm
  unfold queueFor at hm
  split at hm
  · cases hm
  · exact hm

/-- How it stands with the call `n` when the calls have asked for `asked` and the messages `taken`
have been carried out, the first of them on `image`. -/
inductive Fate (unit : UnitId) (image : Image σ) (n : Nat) (asked : List (Memory → Memory × ρ))
    (taken : List (Message σ ρ)) (t : Station σ ρ) : Prop
  | unasked (later : asked.length ≤ n) (unqueued : ∀ m ∈ t.worker.queue, m.isAccess n = false)
      (untaken : ∀ m ∈ taken, m.isAccess n = false)
  | pending {run : Memory → Memory × ρ} {front : List (Message σ ρ)}
      (asks : asked[n]? = some run) (call : t.calls[n]? = some .pending)
      (runs : t.stopped = false) (waits : StandsBehind n run front t.worker.queue)
      (untaken : ∀ m ∈ taken, m.isAccess n = false)
  | answered {run : Memory → Memory × ρ} {front : List (Message σ ρ)}
      (asks : asked[n]? = some run) (done : StandsBehind n run front taken)
      (call : t.calls[n]? = some (.answered (run (image.executeAll unit front).1.memory).2))
      (unqueued : ∀ m ∈ t.worker.queue, m.isAccess n = false)
  | dropped {run : Memory → Memory × ρ} (asks : asked[n]? = some run)
      (call : t.calls[n]? = some .dropped) (stopped : t.stopped = true)
      (unqueued : ∀ m ∈ t.worker.queue, m.isAccess n = false)
      (untaken : ∀ m ∈ taken, m.isAccess n = false)

section

variable {unit : UnitId} {image : Image σ} {n : Nat} {asked more : List (Memory → Memory × ρ)}
  {taken : List (Message σ ρ)}

theorem Fate.persists (h : Fate unit image n asked taken s) {added : List (Message σ ρ)}
    (hcall : t.calls[n]? = s.calls[n]?) (hqueue : t.worker.queue = s.worker.queue ++ added)
    (hadded : ∀ m ∈ added, m.isAccess n = false) (hstopped : t.stopped = s.stopped)
    (hmore : n < asked.length ∨ (asked ++ more).length ≤ n) :
    Fate unit image n (asked ++ more) taken t := by
  have hasks : ∀ {run}, asked[n]? = some run → (asked ++ more)[n]? = some run := by
    intro run hrun
    rw [List.getElem?_append_left (List.getElem?_eq_some_iff.mp hrun).1, hrun]
  cases h with
  | unasked later unqueued untaken =>
    have hlater := hmore.resolve_left (Nat.not_lt.mpr later)
    refine .unasked hlater ?_ untaken
    rw [hqueue]
    exact List.forall_mem_append.mpr ⟨unqueued, hadded⟩
  | pending asks call runs waits untaken =>
    have hwaits := waits.append hadded
    rw [← hqueue] at hwaits
    exact .pending (hasks asks) (hcall.trans call) (hstopped.trans runs) hwaits untaken
  | answered asks done call unqueued =>
    refine .answered (hasks asks) done (hcall.trans call) ?_
    rw [hqueue]
    exact List.forall_mem_append.mpr ⟨unqueued, hadded⟩
  | dropped asks call stopped unqueued untaken =>
    refine .dropped (hasks asks) (hcall.trans call) (hstopped.trans stopped) ?_ untaken
    rw [hqueue]
    exact List.forall_mem_append.mpr ⟨unqueued, hadded⟩

theorem Fate.asks (h : Fate unit image n asked taken s) (hsize : s.calls.size = n)
    (hasked : asked.length = n) (run : Memory → Memory × ρ) (hkeeps : s.Keeps (.call run)) :
    Fate unit image n (asked ++ [run]) taken (s.act (.call run)) := by
  have hrun : (asked ++ [run])[n]? = some run := by
    rw [← hasked, List.getElem?_append_right (Nat.le_refl _), Nat.sub_self]
    rfl
  have hcall : (s.act (.call run)).calls[n]? =
      some (if s.stopped then .dropped else .pending) := by
    rw [calls_call, ← hsize, Array.getElem?_push_size]
  have hqueue := hkeeps.queue
  rw [queued_call, hsize] at hqueue
  have known : ∀ run', asked[n]? ≠ some run' := by
    intro run' hrun'
    have hlt := (List.getElem?_eq_some_iff.mp hrun').1
    omega
  cases h with
  | unasked later unqueued untaken =>
    cases hs : s.stopped with
    | true =>
      rw [hs, if_pos rfl] at hcall
      rw [hs, if_pos rfl, List.append_nil] at hqueue
      exact .dropped hrun hcall (hkeeps.stopped.trans hs) (by rwa [hqueue]) untaken
    | false =>
      rw [hs, if_neg Bool.false_ne_true] at hcall hqueue
      have hwaits := standsBehind_concat run unqueued
      rw [← hqueue] at hwaits
      exact .pending hrun hcall (hkeeps.stopped.trans hs) hwaits untaken
  | pending asks => exact absurd asks (known _)
  | answered asks => exact absurd asks (known _)
  | dropped asks => exact absurd asks (known _)

theorem fate_keeps (h : Fate unit image n asked taken s) (hkeeps : s.Keeps a)
    (hsize : s.calls.size = asked.length)
    (ha : ∀ number run, a ≠ .submit (.access number run)) :
    Fate unit image n (asked ++ s.asked a) taken (s.act a) := by
  by_cases hcall : ∃ run, a = .call run
  · obtain ⟨run, rfl⟩ := hcall
    by_cases hn : s.calls.size = n
    · exact h.asks hn (hsize.symm.trans hn) run hkeeps
    · refine h.persists ?_ hkeeps.queue ?_ hkeeps.stopped ?_
      · rw [calls_call, Array.getElem?_push, if_neg (Ne.symm hn)]
      · intro m hm
        apply (Bool.not_eq_true _).mp
        intro haccess
        exact hn (call_of_access ha hm haccess).choose_spec.2
      · rw [Station.asked, List.length_append, List.length_singleton]
        omega
  · have hnone : s.asked a = [] := by
      cases a with
      | call run => exact absurd ⟨run, rfl⟩ hcall
      | _ => rfl
    refine h.persists ?_ hkeeps.queue ?_ hkeeps.stopped ?_
    · rw [hkeeps.calls fun run hrun => hcall ⟨run, hrun⟩]
    · intro m hm
      apply (Bool.not_eq_true _).mp
      intro haccess
      obtain ⟨run, hrun, -⟩ := call_of_access ha hm haccess
      exact hcall ⟨run, hrun⟩
    · rw [hnone, List.append_nil]
      exact Nat.lt_or_ge _ _

theorem getElem?_dropCalls (s : Station σ ρ) (n : Nat) :
    s.dropCalls.calls[n]? = s.calls[n]?.map fun call => match call with
      | .pending => .dropped
      | call => call := Array.getElem?_map

theorem Fate.takes {message : Message σ ρ} {queue : List (Message σ ρ)}
    (h : Fate unit image n asked taken s) (htakes : s.Takes a message queue)
    (himage : s.image = (image.executeAll unit taken).1) :
    Fate unit image n asked (taken ++ [message]) (s.act a) := by
  have hcalls := htakes.calls
  have hrest : (∀ m ∈ s.worker.queue, m.isAccess n = false) →
      message.isAccess n = false ∧ ∀ m ∈ (s.act a).worker.queue, m.isAccess n = false := by
    intro hnone
    rw [htakes.waiting] at hnone
    exact ⟨hnone _ List.mem_cons_self,
      fun m hm => hnone m (List.mem_cons_of_mem _ (htakes.mem_queue hm))⟩
  have huntaken : ∀ {front : List (Message σ ρ)}, (∀ m ∈ front, m.isAccess n = false) →
      message.isAccess n = false → ∀ m ∈ front ++ [message], m.isAccess n = false := by
    intro front hfront hmessage
    exact List.forall_mem_append.mpr ⟨hfront, List.forall_mem_singleton.mpr hmessage⟩
  cases h with
  | unasked later unqueued untaken =>
    obtain ⟨hmessage, hqueue⟩ := hrest unqueued
    exact .unasked later hqueue (huntaken untaken hmessage)
  | @pending run front asks call runs waits untaken =>
    obtain ⟨back, hqueue, hnone⟩ := waits
    rw [htakes.waiting] at hqueue
    cases front with
    | nil =>
      -- its turn has come, and what has been taken before is what stands in front of it
      obtain ⟨rfl, rfl⟩ := List.cons.inj hqueue
      refine .answered asks (standsBehind_concat run untaken) ?_
        fun m hm => hnone m (htakes.mem_queue hm)
      have hlt := (Array.getElem?_eq_some_iff.mp call).1
      rw [hcalls, callsFor, Array.getElem?_setIfInBounds_self_of_lt hlt, himage]
    | cons m front =>
      obtain ⟨rfl, htail⟩ := List.cons.inj hqueue
      have hmessage := hnone message List.mem_cons_self
      cases hstop : message.isStop with
      | true =>
        have hdrop : (s.act a).calls[n]? = some .dropped := by
          cases message with
          | stop => rw [hcalls, callsFor, getElem?_dropCalls, call, Option.map_some]
          | _ => cases hstop
        have hempty : (s.act a).worker.queue = [] := by
          cases message with
          | stop => rw [htakes.worker]; rfl
          | _ => cases hstop
        refine .dropped asks hdrop (htakes.stopped.trans hstop) ?_ (huntaken untaken hmessage)
        rw [hempty]
        exact List.forall_mem_nil _
      | false =>
        have hcall : (s.act a).calls[n]? = some .pending := by
          rw [hcalls, getElem?_callsFor hmessage hstop, call]
        have hwaits : StandsBehind n run front (s.act a).worker.queue := by
          rw [htakes.queue hstop]
          exact ⟨back, htail, fun m hm => hnone m (List.mem_cons_of_mem _ hm)⟩
        exact .pending asks hcall (htakes.stopped.trans hstop) hwaits (huntaken untaken hmessage)
  | answered asks done call unqueued =>
    obtain ⟨hmessage, hqueue⟩ := hrest unqueued
    refine .answered asks (done.append (List.forall_mem_singleton.mpr hmessage)) ?_ hqueue
    rw [hcalls]
    cases hstop : message.isStop with
    | true =>
      cases message with
      | stop => rw [callsFor, getElem?_dropCalls, call, Option.map_some]
      | _ => cases hstop
    | false => rw [getElem?_callsFor hmessage hstop, call]
  | dropped asks call stopped =>
    rw [Station.stopped, htakes.idle] at stopped
    cases stopped

end

/-- From a station that nobody has called yet, every call has its fate at every moment. -/
theorem fate_run (hcalls : s.calls = #[]) (hqueue : s.worker.queue = [])
    {actions : List (Action σ ρ)} (ha : ∀ number run, .submit (.access number run) ∉ actions)
    (n : Nat) :
    Fate s.unit s.image n (s.along asked actions) (s.along taken actions) (s.run actions) := by
  induction actions using List.reverseRecOn with
  | nil =>
    refine .unasked (Nat.zero_le n) ?_ (List.forall_mem_nil _)
    rw [run, List.foldl_nil, hqueue]
    exact List.forall_mem_nil _
  | append_singleton front a ih =>
    have hfate := ih fun number run hmem => ha number run (List.mem_append_left _ hmem)
    have hsize := s.size_calls_run front
    rw [hcalls, Array.size_empty, Nat.zero_add] at hsize
    have hlast : ∀ number run, a ≠ .submit (.access number run) := by
      rintro number run rfl
      exact ha number run (List.mem_append_right front List.mem_cons_self)
    have hone {α : Type} (see : Station σ ρ → Action σ ρ → List α) :
        s.along see (front ++ [a]) = s.along see front ++ see (s.run front) a := by
      rw [along_append, along, along, List.append_nil]
    rw [run_append, hone, hone]
    obtain hkeeps | ⟨message, queue, htakes⟩ := (s.run front).keeps_or_takes a
    · rw [hkeeps.taken, List.append_nil]
      exact fate_keeps hfate hkeeps hsize hlast
    · have hasked : (s.run front).asked a = [] := by
        rw [htakes.action]
        rfl
      rw [htakes.taken, hasked, List.append_nil]
      exact hfate.takes htakes (s.run_image front).1

/-- A call that has been asked for is answered, dropped or waiting, and what it is tells whether its
function has been carried out. -/
theorem Fate.tells {unit : UnitId} {image : Image σ} {n : Nat}
    {asked : List (Memory → Memory × ρ)} {taken : List (Message σ ρ)}
    (h : Fate unit image n asked taken s) {run : Memory → Memory × ρ}
    (hrun : asked[n]? = some run) :
    (∀ result, s.calls[n]? = some (.answered result) ↔ ∃ front, StandsBehind n run front taken ∧
      result = (run (image.executeAll unit front).1.memory).2) ∧
    (s.calls[n]? = some .dropped ↔ s.stopped = true ∧ ∀ m ∈ taken, m.isAccess n = false) ∧
    (s.calls[n]? = some .pending ↔ s.stopped = false ∧ ∀ m ∈ taken, m.isAccess n = false) := by
  cases h with
  | unasked later =>
    rw [List.getElem?_eq_none later] at hrun
    cases hrun
  | pending asks call runs waits untaken =>
    rw [call, runs]
    refine ⟨fun result => ⟨nofun, ?_⟩, ⟨nofun, nofun⟩, ⟨fun _ => ⟨rfl, untaken⟩, fun _ => rfl⟩⟩
    rintro ⟨front, hfront, -⟩
    exact absurd untaken hfront.not_none
  | @answered run' front asks done call =>
    obtain rfl : run' = run := Option.some.inj (asks.symm.trans hrun)
    rw [call]
    refine ⟨fun result => ⟨?_, ?_⟩, ⟨nofun, ?_⟩, ⟨nofun, ?_⟩⟩
    · intro hresult
      cases hresult
      exact ⟨front, done, rfl⟩
    · rintro ⟨front', hfront', rfl⟩
      rw [(done.unique hfront').1]
    · rintro ⟨-, huntaken⟩
      exact absurd huntaken done.not_none
    · rintro ⟨-, huntaken⟩
      exact absurd huntaken done.not_none
  | dropped asks call stopped unqueued untaken =>
    rw [call, stopped]
    refine ⟨fun result => ⟨nofun, ?_⟩, ⟨fun _ => ⟨rfl, untaken⟩, fun _ => rfl⟩, ⟨nofun, nofun⟩⟩
    rintro ⟨front, hfront, -⟩
    exact absurd untaken hfront.not_none

theorem Fate.told {unit : UnitId} {image : Image σ} {n : Nat}
    {asked : List (Memory → Memory × ρ)} {taken : List (Message σ ρ)}
    (h : Fate unit image n asked taken s) (hsize : s.calls.size = asked.length) (hdone : s.Done) :
    s.calls[n]? ≠ some .pending := by
  cases h with
  | unasked later =>
    rw [Array.getElem?_eq_none (by omega)]
    nofun
  | pending asks call runs waits =>
    obtain ⟨back, hqueue, -⟩ := waits
    rcases hdone with hstopped | ⟨-, hempty⟩
    · rw [runs] at hstopped
      cases hstopped
    · rw [hempty] at hqueue
      cases List.append_ne_nil_of_right_ne_nil _ (List.cons_ne_nil _ _) hqueue.symm
  | answered asks done call =>
    rw [call]
    nofun
  | dropped asks call =>
    rw [call]
    nofun

/-- What is taken is what is queued up to the first stop, as far as the worker has come. -/
theorem served_run (hqueue : s.worker.queue = []) (hs : s.stopped = false)
    (actions : List (Action σ ρ)) :
    ((s.run actions).stopped = false →
      s.along queued actions = s.along taken actions ++ (s.run actions).worker.queue ∧
        ∀ message ∈ s.along taken actions, message.isStop = false) ∧
    ((s.run actions).stopped = true →
      s.along taken actions = (s.along queued actions).takeWhile (!·.isStop) ++ [.stop]) := by
  obtain ⟨rest, hrest, hruns, hstops⟩ := s.run_queue actions hs
  rw [hqueue, List.nil_append] at hrest
  constructor
  · intro hfalse
    obtain ⟨hqueue, hnone⟩ := hruns hfalse
    exact ⟨hqueue ▸ hrest, hnone⟩
  · intro htrue
    obtain ⟨front, hserved, hnone⟩ := hstops htrue
    have hmessages : s.along queued actions = front ++ .stop :: rest := by
      rw [hrest, hserved, List.append_assoc, List.singleton_append]
    rw [hmessages, takeWhile_front rest hnone rfl, hserved]

theorem stop_queued_of_stopped (hqueue : s.worker.queue = []) (hs : s.stopped = false)
    {actions : List (Action σ ρ)} (hstopped : (s.run actions).stopped = true) :
    ∃ message ∈ s.along queued actions, message.isStop = true := by
  obtain ⟨rest, hrest, -, hstops⟩ := s.run_queue actions hs
  obtain ⟨front, hserved, -⟩ := hstops hstopped
  rw [hqueue, List.nil_append] at hrest
  refine ⟨.stop, ?_, rfl⟩
  rw [hrest, hserved]
  exact List.mem_append_left _ (List.mem_append_right _ List.mem_cons_self)

theorem stopped_iff_of_done (hqueue : s.worker.queue = []) (hs : s.stopped = false)
    {actions : List (Action σ ρ)} (hdone : (s.run actions).Done) :
    (s.run actions).stopped = true ↔
      ∃ message ∈ s.along queued actions, message.isStop = true := by
  constructor
  · exact stop_queued_of_stopped hqueue hs
  · rintro ⟨message, hmessage, hstop⟩
    rcases hdone with hstopped | ⟨hidle, hempty⟩
    · exact hstopped
    · have hfalse : (s.run actions).stopped = false := by
        rw [stopped, hidle]
        rfl
      obtain ⟨hall, hnone⟩ := (served_run hqueue hs actions).1 hfalse
      rw [hall, hempty, List.append_nil] at hmessage
      rw [hnone message hmessage] at hstop
      cases hstop

theorem not_submit_of_waits {more : List (Action σ ρ)} (hwaits : ∀ a ∈ more, a.Waits)
    (message : Message σ ρ) : .submit message ∉ more := by
  intro hmem
  rcases hwaits _ hmem with htick | hstep
  · cases htick
  · cases hstep

/-- The worker of a station carries out what is queued in order: all of it that stands in front of
the first stop and nothing behind it, if only it has its turns and time passes. What each call is
told is true: it is answered exactly if its function has been carried out once, with the result that
the function had at its place in the order, and dropped exactly if the service has stopped without
carrying it out. No call waits for ever. -/
theorem calls_tell (settings : ServerSettings) {actions : List (Action σ ρ)}
    (ha : ∀ number run, .submit (.access number run) ∉ actions) :
    let s : Station σ ρ := .ofSettings settings
    let t := s.run actions
    let messages := s.along queued actions
    let served := s.along taken actions
    (t.stopped = false → messages = served ++ t.worker.queue ∧
      ∀ message ∈ served, message.isStop = false) ∧
    (t.stopped = true → served = messages.takeWhile (!·.isStop) ++ [.stop]) ∧
    t.image = (s.image.executeAll s.unit served).1 ∧
    (∃ more, (∀ a ∈ more, a.Waits) ∧ s.along queued (actions ++ more) = messages ∧
      ((s.run (actions ++ more)).stopped = true ↔ ∃ message ∈ messages, message.isStop = true) ∧
      ∀ n : Nat, (s.run (actions ++ more)).calls[n]? ≠ some .pending) ∧
    ∀ n run, (s.along asked actions)[n]? = some run →
      (∀ result, t.calls[n]? = some (.answered result) ↔ ∃ front,
        StandsBehind n run front served ∧
          result = (run (s.image.executeAll s.unit front).1.memory).2) ∧
      (t.calls[n]? = some .dropped ↔
        t.stopped = true ∧ ∀ message ∈ served, message.isAccess n = false) ∧
      (t.calls[n]? = some .pending ↔
        t.stopped = false ∧ ∀ message ∈ served, message.isAccess n = false) := by
  intro s t messages served
  obtain ⟨hruns, hstops⟩ := served_run (s := s) rfl rfl actions
  refine ⟨hruns, hstops, (s.run_image actions).1, ?_, ?_⟩
  · obtain ⟨more, hwaits, hdone⟩ := t.done_of_waits
    have hqueued : s.along queued (actions ++ more) = messages := by
      rw [along_append, along_queued_of_waits hwaits, List.append_nil]
    have hfinal : (s.run (actions ++ more)).Done := by
      rw [run_append]
      exact hdone
    refine ⟨more, hwaits, hqueued, ?_, ?_⟩
    · rw [stopped_iff_of_done rfl rfl hfinal, hqueued]
    · intro n
      have hmore : ∀ number run, Action.submit (.access number run) ∉ actions ++ more := by
        intro number run hmem
        rcases List.mem_append.mp hmem with hbefore | hafter
        · exact ha number run hbefore
        · exact not_submit_of_waits hwaits _ hafter
      have hsize := s.size_calls_run (actions ++ more)
      rw [show s.calls.size = 0 from rfl, Nat.zero_add] at hsize
      exact (fate_run (s := s) rfl rfl hmore n).told hsize hfinal
  · intro n run hrun
    exact (fate_run (s := s) rfl rfl ha n).tells hrun

/-- Two calls in front of the stop and one behind it, and one when it is over. -/
def calling : List (Action Unit Nat) :=
  let count (m : Memory) : Memory × Nat := ({ m with coils := m.coils.push true }, m.coils.size)
  [.call count, .call count, .shutDown, .step .closing, .step .closing, .step .closing,
    .step .closing, .step .closing, .step .closing, .call count, .step .worker, .step .worker,
    .step .worker, .call count]

/-- The first two have had their effects one after the other, and the others none. -/
theorem calls_tell_calling :
    let settings : ServerSettings := ⟨⟨1⟩, .uniform 5, .ofSeconds 1, none, .nothing⟩
    let s : Station Unit Nat := .ofSettings settings
    let served := s.along taken calling
    (∀ number run, .submit (.access number run) ∉ calling) ∧
      (s.run calling).stopped = true ∧ served.length = 3 ∧
      (∀ message ∈ served, message.isAccess 2 = false ∧ message.isAccess 3 = false) ∧
      (∃ front run, StandsBehind 1 run front served ∧
        6 = (run (s.image.executeAll s.unit front).1.memory).2) ∧
      (s.run calling).calls[2]? = some .dropped ∧ (s.run calling).calls[3]? = some .dropped := by
  intro settings s served
  have ha : ∀ number run, .submit (.access number run) ∉ calling := by
    intro number run hmem
    simp [calling] at hmem
  have hstopped : (s.run calling).stopped = true := by decide +kernel
  have hlength : served.length = 3 := by decide +kernel
  have hnone : ∀ message ∈ served, message.isAccess 2 = false ∧ message.isAccess 3 = false := by
    decide +kernel
  obtain ⟨-, -, -, -, hcalls⟩ := calls_tell settings ha
  have hsecond : (s.run calling).calls[1]? = some (.answered 6) := by decide +kernel
  obtain ⟨front, hfront, hresult⟩ := ((hcalls 1 _ rfl).1 6).mp hsecond
  refine ⟨ha, hstopped, hlength, hnone, ⟨front, _, hfront, hresult⟩, ?_, ?_⟩
  · exact (hcalls 2 _ rfl).2.1.mpr ⟨hstopped, fun m hm => (hnone m hm).1⟩
  · exact (hcalls 3 _ rfl).2.1.mpr ⟨hstopped, fun m hm => (hnone m hm).2⟩

end Station

end ModbusSlave
