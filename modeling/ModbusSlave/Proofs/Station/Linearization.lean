import ModbusSlave.Proofs.Service.Sequential
import ModbusSlave.Proofs.Station.Completion

/-!
# Linearization

However the parts of a station take their turns, and however the writing of its responses ends, what
becomes of the memory, the handlers and the responses is what becomes of them when the messages are
carried out one after the other in the order of the queue.
-/
namespace ModbusSlave

/-- The link and the bytes of a response. -/
def Transaction.written (t : Transaction) : Nat × Bytes := (t.link, t.response.encode)

namespace Station

variable {σ ρ : Type}

def image (s : Station σ ρ) : Image σ := s.worker.service.image

def unit (s : Station σ ρ) : UnitId := s.worker.service.unit

/-- An action that takes no message: the service stays as it is, and so does the queue but for what
comes behind it. -/
structure Keeps (s : Station σ ρ) (a : Action σ ρ) : Prop where
  service : (s.act a).worker.service = s.worker.service
  queue : (s.act a).worker.queue = s.worker.queue ++ s.queued a
  taken : s.taken a = []
  begun : s.begun a = []
  stopped : (s.act a).stopped = s.stopped
  silent : s.stopped = true → s.queued a = []

/-- An action in which the worker takes a message. -/
structure Takes (s : Station σ ρ) (a : Action σ ρ) (message : Message σ ρ)
    (queue : List (Message σ ρ)) : Prop where
  action : a = .step .worker
  idle : s.worker.job = .idle
  waiting : s.worker.queue = message :: queue
  taken : s.taken a = [message]
  worker : (s.act a).worker =
    ⟨(s.worker.service.handle s.level message).1, s.worker.timeout,
      queueFor queue (s.worker.service.handle s.level message).2.1,
      s.jobFor (s.worker.service.handle s.level message).2.1⟩

theorem keeps_of_offers {s : Station σ ρ} {a : Action σ ρ} {messages : List (Message σ ρ)}
    (ha : a ≠ .step .worker) (h : s.Offers (s.act a) messages) : s.Keeps a := by
  have hqueue := h.queued
  refine ⟨?_, ?_, ?_, ?_, h.stopped, ?_⟩
  · rw [h]
  · rw [h, hqueue]
  · cases a with
    | step part =>
      cases part with
      | worker => exact absurd rfl ha
      | _ => rfl
    | _ => rfl
  · rw [begun, h]
    cases s.worker.job <;> rfl
  · intro hs
    rw [hqueue, hs, if_pos rfl]

theorem keeps_of_busy {s : Station σ ρ} {job : Job} (hbusy : s.worker.job ≠ .idle)
    (h : (s.act (.step .worker)).worker = { s.worker with job }) (hjob : job ≠ .stopped)
    (hs : s.stopped = false) : s.Keeps (.step .worker) := by
  have hqueue := s.queued_worker
  refine ⟨?_, ?_, ?_, ?_, ?_, ?_⟩
  · rw [h]
  · rw [h, hqueue, List.append_nil]
  · simp [taken, hbusy]
  · unfold begun
    cases hj : s.worker.job with
    | idle => exact absurd hj hbusy
    | _ => rfl
  · rw [hs]
    simpa [stopped, h] using hjob
  · intro _
    exact hqueue

/-- Whatever happens to a station, the worker takes a message or the service stays as it is. -/
theorem keeps_or_takes (s : Station σ ρ) (a : Action σ ρ) :
    s.Keeps a ∨ ∃ message queue, s.Takes a message queue := by
  by_cases ha : a = .step .worker
  · subst ha
    obtain ⟨hnone, hsame⟩ | hmove := s.act_worker
    · left
      have hqueue := s.queued_worker
      refine ⟨?_, ?_, ?_, ?_, ?_, ?_⟩
      · rw [hsame]
      · rw [hsame, hqueue, List.append_nil]
      · simp only [Station.taken]
        split
        · next hidle => rw [queue_eq_nil_of_workerStep? hnone hidle, List.take_nil]
        · rfl
      · rw [begun, hsame]
        cases s.worker.job <;> rfl
      · rw [hsame]
      · intro _
        exact hqueue
    · by_cases hidle : s.worker.job = .idle
      · right
        obtain ⟨message, queue, hq, ht⟩ := take_of_move hmove hidle
        exact ⟨message, queue, rfl, hidle, hq, by simp [taken, hidle, hq],
          worker_of_takeMessage? hidle hq ht⟩
      · left
        obtain ⟨job, hworker, hjob⟩ := worker_of_move hmove hidle
        exact keeps_of_busy hidle hworker hjob (not_stopped_of_move hmove)
  · left
    obtain ⟨messages, h, -⟩ := s.offers_act ha
    exact keeps_of_offers ha h

theorem Takes.image {s : Station σ ρ} {a : Action σ ρ} {message : Message σ ρ}
    {queue : List (Message σ ρ)} (h : s.Takes a message queue) :
    (s.act a).image = (s.image.execute s.unit message).1 := by
  rw [Station.image, h.worker]
  exact Service.image_handle _ _ _

theorem Takes.unit {s : Station σ ρ} {a : Action σ ρ} {message : Message σ ρ}
    {queue : List (Message σ ρ)} (h : s.Takes a message queue) : (s.act a).unit = s.unit := by
  rw [Station.unit, h.worker]
  exact Service.unit_handle _ _ _

theorem Takes.begun {s : Station σ ρ} {a : Action σ ρ} {message : Message σ ρ}
    {queue : List (Message σ ρ)} (h : s.Takes a message queue) :
    s.begun a = (s.image.execute s.unit message).2.toList.map Transaction.written := by
  have hr := Service.responses_handle s.worker.service s.level message
  have hb : s.begun a =
      (s.worker.service.handle s.level message).2.1.responses.map
        fun answer => (answer.1, answer.2.encode) := by
    rw [Station.begun, h.idle, h.worker]
    cases (s.worker.service.handle s.level message).2.1 <;> rfl
  rw [hb, hr, List.map_map]
  rfl

theorem Takes.frame {s : Station σ ρ} {a : Action σ ρ} {message : Message σ ρ}
    {queue : List (Message σ ρ)} (h : s.Takes a message queue) :
    (s.act a).links = s.links ∧ (s.act a).sessions = s.sessions := by
  rw [h.action]
  obtain ⟨hnone, -⟩ | hmove := s.act_worker
  · have hempty := queue_eq_nil_of_workerStep? hnone h.idle
    rw [h.waiting] at hempty
    cases hempty
  · obtain ⟨_, _, -, ht⟩ := take_of_move hmove h.idle
    obtain ⟨hlinks, hsessions, -⟩ := frame_of_takeMessage? ht
    exact ⟨hlinks, hsessions⟩

theorem Keeps.busy {s : Station σ ρ} (h : s.Keeps (.step .worker)) :
    s.act (.step .worker) = s ∨
      s.WorkerMove (s.act (.step .worker)) ∧ s.worker.job ≠ .idle := by
  obtain ⟨-, hsame⟩ | hmove := s.act_worker
  · exact .inl hsame
  · refine .inr ⟨hmove, ?_⟩
    intro hidle
    obtain ⟨message, queue, hq, -⟩ := take_of_move hmove hidle
    have htaken := h.taken
    simp [Station.taken, hidle, hq] at htaken

theorem length_taken (s : Station σ ρ) (a : Action σ ρ) : (s.taken a).length ≤ 1 := by
  obtain hkeeps | ⟨message, queue, htakes⟩ := s.keeps_or_takes a
  · rw [hkeeps.taken]
    exact Nat.zero_le _
  · rw [htakes.taken]
    exact Nat.le_refl _

theorem taken_of_busy {s : Station σ ρ} (h : s.worker.job ≠ .idle) (a : Action σ ρ) :
    s.taken a = [] := by
  obtain hkeeps | ⟨message, queue, htakes⟩ := s.keeps_or_takes a
  · exact hkeeps.taken
  · exact absurd htakes.idle h

/-- A stop is the only message after which the service takes nothing on. -/
theorem Takes.stopped {s : Station σ ρ} {a : Action σ ρ} {message : Message σ ρ}
    {queue : List (Message σ ρ)} (h : s.Takes a message queue) :
    (s.act a).stopped = message.isStop := by
  rw [Station.stopped, h.worker]
  cases message with
  | request link frame =>
    simp only [Service.handle, Message.isStop]
    split <;> simp [jobFor]
  | _ => simp [Service.handle, jobFor, Message.isStop]

theorem Takes.queue {s : Station σ ρ} {a : Action σ ρ} {message : Message σ ρ}
    {queue : List (Message σ ρ)} (h : s.Takes a message queue) (hm : message.isStop = false) :
    (s.act a).worker.queue = queue := by
  rw [h.worker]
  cases message with
  | request link frame =>
    simp only [Service.handle]
    split <;> rfl
  | stop => simp [Message.isStop] at hm
  | _ => rfl

theorem along_of_stopped (s : Station σ ρ) (actions : List (Action σ ρ))
    (hs : s.stopped = true) :
    (s.run actions).image = s.image ∧ (s.run actions).stopped = true ∧
      s.along taken actions = [] ∧ s.along begun actions = [] := by
  induction actions generalizing s with
  | nil => exact ⟨rfl, hs, rfl, rfl⟩
  | cons a rest ih =>
    obtain h | ⟨message, queue, h⟩ := s.keeps_or_takes a
    · have hnext : (s.act a).stopped = true := by rw [h.stopped, hs]
      obtain ⟨hi, hst, ht, hb⟩ := ih (s.act a) hnext
      refine ⟨?_, hst, ?_, ?_⟩
      · rw [run_cons, hi, Station.image, h.service, Station.image]
      · rw [along, h.taken, ht, List.append_nil]
      · rw [along, h.begun, hb, List.append_nil]
    · have hidle := h.idle
      simp [Station.stopped, hidle] at hs

/-- Along a history, the service goes from one image to the next as the messages taken say. -/
theorem run_image (s : Station σ ρ) (actions : List (Action σ ρ)) :
    (s.run actions).image = (s.image.executeAll s.unit (s.along taken actions)).1 ∧
      s.along begun actions =
        (s.image.executeAll s.unit (s.along taken actions)).2.map Transaction.written := by
  induction actions generalizing s with
  | nil => exact ⟨rfl, rfl⟩
  | cons a rest ih =>
    obtain ⟨hi, hb⟩ := ih (s.act a)
    rw [run_cons, along, along]
    obtain h | ⟨message, queue, h⟩ := s.keeps_or_takes a
    · have himage : (s.act a).image = s.image := by rw [Station.image, h.service, Station.image]
      have hunit : (s.act a).unit = s.unit := by rw [Station.unit, h.service, Station.unit]
      rw [himage, hunit] at hi hb
      rw [h.taken, h.begun, List.nil_append, List.nil_append]
      exact ⟨hi, hb⟩
    · rw [h.taken, h.begun, List.singleton_append]
      cases hm : message.isStop with
      | true =>
        -- behind a stop neither side goes on
        obtain ⟨hi', -, ht', hb'⟩ := along_of_stopped (s.act a) rest (h.stopped.trans hm)
        cases message with
        | stop => exact ⟨hi'.trans h.image, by rw [hb']; rfl⟩
        | _ => simp [Message.isStop] at hm
      | false =>
        rw [h.image, h.unit] at hi hb
        rw [Image.executeAll_cons _ _ _ hm]
        exact ⟨hi, by rw [hb, List.map_append]⟩

theorem run_unit (s : Station σ ρ) (actions : List (Action σ ρ)) :
    (s.run actions).unit = s.unit := by
  induction actions generalizing s with
  | nil => rfl
  | cons a rest ih =>
    rw [run_cons, ih]
    obtain h | ⟨message, queue, h⟩ := s.keeps_or_takes a
    · rw [Station.unit, h.service, Station.unit]
    · exact h.unit

/-- Along a history, the messages taken are the first of those that have been queued, in their
order. If the service still runs, the others wait; if not, a stop was the last it took. -/
theorem run_queue (s : Station σ ρ) (actions : List (Action σ ρ)) (hs : s.stopped = false) :
    ∃ rest, s.worker.queue ++ s.along queued actions = s.along taken actions ++ rest ∧
      ((s.run actions).stopped = false →
        rest = (s.run actions).worker.queue ∧
          ∀ message ∈ s.along taken actions, message.isStop = false) ∧
      ((s.run actions).stopped = true →
        ∃ front, s.along taken actions = front ++ [.stop] ∧
          ∀ message ∈ front, message.isStop = false) := by
  induction actions generalizing s with
  | nil =>
    refine ⟨s.worker.queue, by simp [along], fun _ => ⟨rfl, by simp [along]⟩, fun h => ?_⟩
    simp [run, hs] at h
  | cons a more ih =>
    rw [run_cons, along, along]
    obtain h | ⟨message, queue, h⟩ := s.keeps_or_takes a
    · obtain ⟨rest, hq, hrun, hstop⟩ := ih (s.act a) (h.stopped.trans hs)
      refine ⟨rest, ?_, ?_, ?_⟩
      · rw [← List.append_assoc, ← h.queue, hq, h.taken, List.nil_append]
      · simpa only [h.taken, List.nil_append] using hrun
      · simpa only [h.taken, List.nil_append] using hstop
    · rw [h.action, queued_worker, ← h.action, h.taken, h.waiting, List.nil_append,
        List.singleton_append]
      cases hm : message.isStop with
      | true =>
        obtain ⟨-, hst, ht, -⟩ := along_of_stopped (s.act a) more (h.stopped.trans hm)
        refine ⟨queue ++ (s.act a).along Station.queued more, ?_, ?_, ?_⟩
        · rw [ht, List.singleton_append, List.cons_append]
        · intro hfalse
          simp [hst] at hfalse
        · intro _
          cases message with
          | stop => exact ⟨[], by rw [ht]; rfl, by simp⟩
          | _ => simp [Message.isStop] at hm
      | false =>
        obtain ⟨rest, hq, hrun, hstop⟩ := ih (s.act a) (h.stopped.trans hm)
        rw [h.queue hm] at hq
        refine ⟨rest, by rw [List.cons_append, hq, List.cons_append], ?_, ?_⟩
        · intro hfinal
          obtain ⟨hrest, hall⟩ := hrun hfinal
          refine ⟨hrest, ?_⟩
          intro m hmem
          obtain rfl | hmem := List.mem_cons.mp hmem
          · exact hm
          · exact hall m hmem
        · intro hfinal
          obtain ⟨front, hfront, hall⟩ := hstop hfinal
          refine ⟨message :: front, by rw [hfront, List.cons_append], ?_⟩
          intro m hmem
          obtain rfl | hmem := List.mem_cons.mp hmem
          · exact hm
          · exact hall m hmem

/-- A worker that is done has carried out all that was queued, up to the first stop. -/
theorem run_of_done (s : Station σ ρ) (actions : List (Action σ ρ)) (hs : s.stopped = false)
    (hdone : (s.run actions).Done) :
    let sequential := s.image.executeAll s.unit (s.worker.queue ++ s.along queued actions)
    (s.run actions).image = sequential.1 ∧
      s.along begun actions = sequential.2.map Transaction.written := by
  obtain ⟨hi, hb⟩ := s.run_image actions
  obtain ⟨rest, hq, hrun, hstop⟩ := s.run_queue actions hs
  have hall : s.image.executeAll s.unit (s.worker.queue ++ s.along queued actions) =
      s.image.executeAll s.unit (s.along taken actions) := by
    rw [hq]
    obtain hst | ⟨hidle, hempty⟩ := hdone
    · obtain ⟨front, hfront, hno⟩ := hstop hst
      rw [hfront, List.append_assoc, List.singleton_append, Image.executeAll_append_stop _ _ _ hno,
        Image.executeAll_append_stop _ _ _ hno]
    · have hst : (s.run actions).stopped = false := by simp [Station.stopped, hidle]
      rw [(hrun hst).1, hempty, List.append_nil]
  simp only [hall]
  exact ⟨hi, hb⟩

/-- At every moment of a history the service is where some first part of the messages takes it, and
when the worker is done, that part is all of them; waiting is enough for it to get done. The order
of the parts' turns and the fate of the writes leave no trace in it: histories with the same
messages end with the same service and write the same responses. A write closes no link but its
own. -/
theorem run_linearizable (s : Station σ ρ) (actions : List (Action σ ρ))
    (hs : s.stopped = false) :
    let messages := s.worker.queue ++ s.along queued actions
    let sequential := s.image.executeAll s.unit messages
    (∃ n, (s.run actions).image = (s.image.executeAll s.unit (messages.take n)).1 ∧
      s.along begun actions =
        (s.image.executeAll s.unit (messages.take n)).2.map Transaction.written ∧
      ((s.run actions).stopped = false → (s.run actions).worker.queue = messages.drop n)) ∧
    ((s.run actions).Done →
      (s.run actions).image = sequential.1 ∧
      s.along begun actions = sequential.2.map Transaction.written) ∧
    (∃ more, (∀ a ∈ more, a.Waits) ∧ (s.run (actions ++ more)).Done ∧
      s.along queued (actions ++ more) = s.along queued actions) ∧
    sequential.2.map (fun t => (t.link, t.request)) =
      (messages.takeWhile (!·.isStop)).filterMap (·.ownRequest? s.unit) ∧
    (∀ (other : Station σ ρ) (others : List (Action σ ρ)), other.stopped = false →
      other.worker.service = s.worker.service →
      other.worker.queue ++ other.along queued others = messages →
      (s.run actions).Done → (other.run others).Done →
      (other.run others).worker.service = (s.run actions).worker.service ∧
        other.along begun others = s.along begun actions) ∧
    (∀ before after write deadline i, actions = before ++ .step .worker :: after →
      (s.run before).worker.job = .writing write deadline → write.link ≠ i →
      (s.run (before ++ [.step .worker])).isClosed i = (s.run before).isClosed i) := by
  intro messages sequential
  refine ⟨?_, s.run_of_done actions hs, ?_, Image.requests_executeAll _ _ _, ?_, ?_⟩
  · obtain ⟨rest, hq, hrun, -⟩ := s.run_queue actions hs
    refine ⟨(s.along taken actions).length, ?_⟩
    have htake : messages.take (s.along taken actions).length = s.along taken actions := by
      rw [show messages = _ from hq, List.take_left]
    have hdrop : messages.drop (s.along taken actions).length = rest := by
      rw [show messages = _ from hq, List.drop_left]
    obtain ⟨hi, hb⟩ := s.run_image actions
    rw [htake, hdrop]
    exact ⟨hi, hb, fun hst => (hrun hst).1.symm⟩
  · obtain ⟨more, hmore, hdone⟩ := (s.run actions).done_of_waits
    refine ⟨more, hmore, by rwa [run_append], ?_⟩
    rw [along_append, along_queued_of_waits hmore, List.append_nil]
  · intro other others ho hservice hmessages hdone hodone
    obtain ⟨hi, hb⟩ := s.run_of_done actions hs hdone
    obtain ⟨hoi, hob⟩ := other.run_of_done others ho hodone
    have himage : other.image = s.image := congrArg Service.image hservice
    have hunit : other.unit = s.unit := congrArg Service.unit hservice
    rw [himage, hunit, hmessages] at hoi hob
    refine ⟨?_, hob.trans hb.symm⟩
    exact Service.eq_of_image
      (((other.run_unit others).trans hunit).trans (s.run_unit actions).symm) (hoi.trans hi.symm)
  · intro before after write deadline i _ hjob hi
    rw [run_append]
    obtain ⟨-, hsame⟩ | hmove := (s.run before).act_worker
    · exact congrArg (Station.isClosed · i) hsame
    · apply isClosed_congr
      apply links_of_move hmove
      rw [hjob]
      exact fun h => hi (Option.some.inj h)

/-- Two links whose far ends have asked for the same function, behind the registration of a handler
that counts its calls. -/
def askedTwice : Station Nat Unit :=
  let s : Station Nat Unit := .ofSettings ⟨⟨1⟩, .uniform 2, .ofSeconds 1, none, .nothing⟩
  let count : Handler Nat := .custom 0 fun calls m _ => ⟨calls + 1, m, .ok [UInt8.ofNat calls]⟩
  let request : Frame := ⟨.mbap 7, ⟨1⟩, 0x41, []⟩
  { s with
    links := #[.fresh 8 64 false none, .fresh 8 64 false none]
    worker := { s.worker with
      queue := [.register 0x41 count, .request 0 request, .request 1 request, .stop] } }

/-- The first link fails while its response is written. -/
theorem run_linearizable_askedTwice :
    let steps := List.replicate 16 (Action.step (σ := Nat) (ρ := Unit) .worker)
    let broken := Action.breakDown 0 .connectionReset :: steps
    askedTwice.stopped = false ∧ (askedTwice.run steps).Done ∧ (askedTwice.run broken).Done ∧
      (askedTwice.run steps).isClosed 0 = false ∧ (askedTwice.run broken).isClosed 0 = true ∧
      (askedTwice.run broken).worker.service = (askedTwice.run steps).worker.service ∧
      askedTwice.along begun broken = askedTwice.along begun steps ∧
      (askedTwice.along begun broken).map Prod.fst = [0, 1] := by
  intro steps broken
  have hs : askedTwice.stopped = false := by decide +kernel
  have hdone : (askedTwice.run steps).Done := by decide +kernel
  have hbroken : (askedTwice.run broken).Done := by decide +kernel
  have hquiet : askedTwice.along queued steps = [] :=
    List.eq_nil_of_length_eq_zero (by decide +kernel)
  have hloud : askedTwice.along queued broken = [] :=
    List.eq_nil_of_length_eq_zero (by decide +kernel)
  obtain ⟨-, -, -, -, htwo, -⟩ := run_linearizable askedTwice steps hs
  obtain ⟨hservice, hbegun⟩ := htwo askedTwice broken hs rfl (by rw [hquiet, hloud]) hdone hbroken
  exact ⟨hs, hdone, hbroken, by decide +kernel, by decide +kernel, hservice, hbegun,
    by decide +kernel⟩

end Station

end ModbusSlave
