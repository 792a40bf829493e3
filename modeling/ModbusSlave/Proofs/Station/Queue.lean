import ModbusSlave.Proofs.Station.Closing

/-!
# The queue along a history

Nobody but the worker takes anything out of the queue, changes what the service holds or decides
what the worker does next. Every other action at most puts messages behind those that wait, and
none once the service has stopped. The lemmas go through the parts of a station one by one; the last
one says it of an action.
-/
namespace ModbusSlave

/-- The link of which a message tells. -/
def Message.link? {σ ρ : Type} : Message σ ρ → Option Nat
  | .request link _ | .release link => some link
  | _ => none

namespace Pipe

theorem write?_eq_ok {p q : Pipe} {bytes rest : Bytes}
    (h : p.write? bytes = some (.ok (q, rest))) :
    p.closed = false ∧ q = { p with content := p.content ++ bytes.take p.room } ∧
      rest = bytes.drop p.room := by
  unfold write? at h
  split at h
  · cases h
  · split at h
    · cases h
    · next hopen =>
      split at h
      · cases h
      · cases h
        exact ⟨(Bool.not_eq_true _).mp hopen, rfl, rfl⟩

theorem content_read?_error {p q : Pipe} {count : Nat} {kind : IoKind}
    (h : p.read? count = some (.error kind, q)) : q.content = p.content := by
  unfold read? at h
  split at h
  · cases h
    rfl
  · split at h <;> cases h
  · cases h

theorem read?_eq_some {p q : Pipe} {count : Nat} {got : Except IoKind Bytes}
    (h : p.read? count = some (got, q)) : q.broken = p.broken ∧ q.closed = p.closed := by
  unfold read? at h
  split at h
  · cases h
    exact ⟨rfl, rfl⟩
  · split at h <;> cases h
    exact ⟨rfl, rfl⟩
  · cases h
    exact ⟨rfl, rfl⟩

end Pipe

namespace Station

variable {σ ρ : Type}

/-- What is seen of each action of a history, in order. -/
def along {α : Type} (see : Station σ ρ → Action σ ρ → List α) :
    Station σ ρ → List (Action σ ρ) → List α
  | _, [] => []
  | s, a :: rest => see s a ++ along see (s.act a) rest

theorem run_cons (s : Station σ ρ) (a : Action σ ρ) (rest : List (Action σ ρ)) :
    s.run (a :: rest) = (s.act a).run rest := rfl

theorem along_append {α : Type} (see : Station σ ρ → Action σ ρ → List α) (s : Station σ ρ)
    (front back : List (Action σ ρ)) :
    s.along see (front ++ back) = s.along see front ++ (s.run front).along see back := by
  induction front generalizing s with
  | nil => rfl
  | cons a front ih =>
    rw [List.cons_append, along, along, ih, run_cons, List.append_assoc]

theorem mem_along {α : Type} {see : Station σ ρ → Action σ ρ → List α} {s : Station σ ρ}
    {actions : List (Action σ ρ)} {x : α} (h : x ∈ s.along see actions) :
    ∃ front a back, actions = front ++ a :: back ∧ x ∉ s.along see front ∧
      x ∈ see (s.run front) a := by
  induction actions generalizing s with
  | nil => cases h
  | cons a rest ih =>
    by_cases ha : x ∈ see s a
    · exact ⟨[], a, rest, rfl, List.not_mem_nil, ha⟩
    · have hrest : x ∈ (s.act a).along see rest := by
        rcases List.mem_append.mp h with hnow | hlater
        · exact absurd hnow ha
        · exact hlater
      obtain ⟨front, b, back, rfl, hfront, hb⟩ := ih hrest
      refine ⟨a :: front, b, back, rfl, ?_, hb⟩
      intro hmem
      rcases List.mem_append.mp hmem with hnow | hlater
      · exact ha hnow
      · exact hfront hlater

/-- A place in what is seen along a history, where no action shows more than one thing. -/
theorem along_split {α : Type} {see : Station σ ρ → Action σ ρ → List α}
    (hone : ∀ s a, (see s a).length ≤ 1) {s : Station σ ρ} {actions : List (Action σ ρ)} {n : Nat}
    (hn : n < (s.along see actions).length) :
    ∃ front a back, actions = front ++ a :: back ∧ (s.along see front).length = n ∧
      see (s.run front) a ≠ [] := by
  induction actions generalizing s n with
  | nil => cases hn
  | cons a rest ih =>
    rw [along, List.length_append] at hn
    by_cases hnow : n < (see s a).length
    · have hfirst := hone s a
      refine ⟨[], a, rest, rfl, ?_, ?_⟩
      · rw [along, List.length_nil]
        omega
      · exact List.ne_nil_of_length_pos (Nat.zero_lt_of_lt hnow)
    · obtain ⟨front, b, back, rfl, hfront, hb⟩ :=
        ih (s := s.act a) (n := n - (see s a).length) (by omega)
      refine ⟨a :: front, b, back, rfl, ?_, hb⟩
      rw [along, List.length_append, hfront]
      omega

/-- The messages that an action puts into the queue. -/
def queued (s : Station σ ρ) (a : Action σ ρ) : List (Message σ ρ) :=
  (s.act a).worker.queue.drop s.worker.queue.length

/-- The message that an action takes out of the queue. -/
def taken (s : Station σ ρ) : Action σ ρ → List (Message σ ρ)
  | .step .worker => if s.worker.job = .idle then s.worker.queue.take 1 else []
  | _ => []

/-- The link and the bytes of a response whose writing an action begins. -/
def begun (s : Station σ ρ) (a : Action σ ρ) : List (Nat × Bytes) :=
  match s.worker.job, (s.act a).worker.job with
  | .idle, .writing write _ => [(write.link, write.bytes)]
  | _, _ => []

/-- Who puts a message into the queue, and when. -/
inductive Source (s : Station σ ρ) : Action σ ρ → Message σ ρ → Prop
  | session {k : Nat} {session : Session} {message : Message σ ρ}
      (known : s.sessions[k]? = some session) (tells : message.link? = some session.link) :
      Source s (.step (.session k)) message
  | sessionStop {k : Nat} {session : Session} {message : Message σ ρ}
      (known : s.sessions[k]? = some session) (tells : message.link? = some session.link) :
      Source s (.sessionStop k) message
  | submit {message : Message σ ρ} : Source s (.submit message) message
  | call {run : Memory → Memory × ρ} : Source s (.call run) (.access s.calls.size run)
  | shutDown {stage : ShutdownStage} (closing : s.closing = .ports [] stage) :
      Source s (.step .closing) .stop

/-- The worker of `t` is that of `s` with messages behind its queue, unless it has stopped. -/
def Offers (s t : Station σ ρ) (messages : List (Message σ ρ)) : Prop :=
  t.worker =
    { s.worker with queue := s.worker.queue ++ if s.stopped then [] else messages }

theorem Offers.of_worker_eq {s t : Station σ ρ} (h : t.worker = s.worker) : s.Offers t [] := by
  simp [Offers, h]

theorem Offers.congr {s t t' : Station σ ρ} {messages : List (Message σ ρ)}
    (h : s.Offers t messages) (ht : t'.worker = t.worker) : s.Offers t' messages := by
  rw [Offers, ht, h]

theorem Offers.of_stopped {s t : Station σ ρ} {messages : List (Message σ ρ)}
    (hs : s.stopped = true) (h : t.worker = s.worker) : s.Offers t messages := by
  simp [Offers, h, hs]

theorem Offers.queued {s : Station σ ρ} {a : Action σ ρ} {messages : List (Message σ ρ)}
    (h : s.Offers (s.act a) messages) : s.queued a = if s.stopped then [] else messages := by
  rw [Station.queued, h, List.drop_left]

theorem Offers.stopped {s t : Station σ ρ} {messages : List (Message σ ρ)}
    (h : s.Offers t messages) : t.stopped = s.stopped := by
  rw [Station.stopped, h, Station.stopped]

theorem offers_enqueue (s : Station σ ρ) (message : Message σ ρ) :
    s.Offers (s.enqueue message) [message] := by
  unfold Offers enqueue
  cases s.stopped <;> simp

@[simp] theorem worker_note (s : Station σ ρ) (events : List Event) :
    (s.note events).worker = s.worker := rfl

@[simp] theorem worker_setLink (s : Station σ ρ) (i : Nat) (link : Link) :
    (s.setLink i link).worker = s.worker := rfl

@[simp] theorem worker_closeLink (s : Station σ ρ) (i : Nat) :
    (s.closeLink i).worker = s.worker := rfl

@[simp] theorem worker_setSession (s : Station σ ρ) (i : Nat) (session : Session) :
    (s.setSession i session).worker = s.worker := rfl

@[simp] theorem worker_leaveLock (s : Station σ ρ) (i : Nat) :
    (s.leaveLock i).worker = s.worker := rfl

@[simp] theorem worker_writeFailed (s : Station σ ρ) (i : Nat) (fault : WriteFault) :
    (s.writeFailed i fault).worker = s.worker := by
  unfold writeFailed
  cases (s.links[i]?.map (·.persistent)).getD true <;> rfl

@[simp] theorem worker_listen (s : Station σ ρ) (address : String) :
    (s.listen address).worker = s.worker := by
  unfold listen
  split <;> rfl

@[simp] theorem worker_addPort (s : Station σ ρ) (name : String) (link : Link) :
    (s.addPort name link).worker = s.worker := by
  unfold addPort
  split <;> rfl

@[simp] theorem worker_shutDown (s : Station σ ρ) : s.shutDown.worker = s.worker := by
  unfold shutDown
  split <;> rfl

/-- Folding over what leaves a part of the station alone. -/
theorem foldl_fixed {α β : Type} (part : Station σ ρ → β) (f : Station σ ρ → α → Station σ ρ)
    (h : ∀ s x, part (f s x) = part s) (s : Station σ ρ) (l : List α) :
    part (l.foldl f s) = part s := by
  induction l generalizing s with
  | nil => rfl
  | cons x l ih => rw [List.foldl_cons, ih, h]

@[simp] theorem worker_accept (s : Station σ ρ) (i : Nat) (peer : String) (link : Link) :
    (s.accept i peer link).worker = s.worker := by
  unfold accept
  split
  · rfl
  · next listener hl =>
    split
    · exact foldl_fixed (·.worker) (fun s (id, link) => (s.note [.evicted id]).closeLink link)
        (fun _ _ => rfl) s _
    · rfl

@[simp] theorem worker_cancelListener (s : Station σ ρ) (i : Nat) :
    (s.cancelListener i).worker = s.worker :=
  foldl_fixed (·.worker) (fun s (session : Session) => s.closeLink session.link)
    (fun _ _ => rfl) _ _

end Station

def Session.farewell {σ ρ : Type} (session : Session) : List (Message σ ρ) :=
  match session.role with
  | .accepted _ _ => [.release session.link]
  | _ => []

/-- The messages in which a demand of a session results. -/
def Demand.messages {σ ρ : Type} (session : Session) : Demand → List (Message σ ρ)
  | .nothing => []
  | .submit frame => [.request session.link frame]
  | .leave _ => session.farewell

theorem link?_farewell {σ ρ : Type} (session : Session) {m : Message σ ρ}
    (h : m ∈ session.farewell) : m.link? = some session.link := by
  unfold Session.farewell at h
  split at h
  · obtain rfl := List.mem_singleton.mp h
    rfl
  · simp at h

theorem link?_messages {σ ρ : Type} (session : Session) {demand : Demand} {m : Message σ ρ}
    (h : m ∈ demand.messages session) : m.link? = some session.link := by
  cases demand with
  | nothing => simp [Demand.messages] at h
  | submit frame =>
    obtain rfl := List.mem_singleton.mp h
    rfl
  | leave fault => exact link?_farewell session h

@[simp] theorem link_parse (session : Session) (level : DecodeLevel) :
    (session.parse level).1.link = session.link := by
  unfold Session.parse
  dsimp only
  split
  · rfl
  · rfl
  · split <;> rfl

@[simp] theorem link_receive (session : Session) (level : DecodeLevel)
    (got : Except IoKind Bytes) : (session.receive level got).1.link = session.link := by
  unfold Session.receive
  dsimp only
  split <;> rfl

namespace Station

variable {σ ρ : Type}

theorem offers_leave (s : Station σ ρ) (i : Nat) (session : Session) (fault : RequestFault) :
    s.Offers (s.leave i session fault) session.farewell := by
  cases hr : session.role with
  | bare =>
    simp only [leave, Session.farewell, hr]
    exact .of_worker_eq rfl
  | port name =>
    simp only [leave, Session.farewell, hr]
    exact .of_worker_eq rfl
  | accepted listener id =>
    simp only [leave, Session.farewell, hr]
    split
    · next hs => exact .of_stopped hs rfl
    · exact (offers_enqueue (s.note [.sessionEnded id fault]) _).congr rfl

theorem offers_carryOut (s : Station σ ρ) (i : Nat) (step : Session × Demand × List Event) :
    s.Offers (s.carryOut i step) (step.2.1.messages step.1) := by
  obtain ⟨session, demand, events⟩ := step
  cases demand with
  | nothing => exact .of_worker_eq rfl
  | submit frame =>
    simp only [carryOut, Demand.messages]
    split
    · next hs =>
      have h := offers_leave (s.note events) i session .shutdown
      rw [Offers, hs, if_pos rfl, List.append_nil] at h
      exact .of_stopped hs h
    · exact (offers_enqueue (s.note events) _).congr rfl
  | leave fault => exact offers_leave (s.note events) i session fault

theorem offers_sessionStop? {s t : Station σ ρ} {i : Nat} (h : s.sessionStop? i = some t) :
    ∃ session, s.sessions[i]? = some session ∧ s.Offers t session.farewell := by
  cases hi : s.sessions[i]? with
  | none => simp [sessionStop?, hi] at h
  | some session =>
    simp only [sessionStop?, hi, Option.bind_eq_bind, Option.bind_some,
      Option.ite_none_right_eq_some, Option.some.injEq] at h
    obtain ⟨-, rfl⟩ := h
    exact ⟨session, rfl, s.offers_leave i session .shutdown⟩

theorem offers_sessionStep? {s t : Station σ ρ} {i : Nat} (h : s.sessionStep? i = some t) :
    ∃ session messages, s.sessions[i]? = some session ∧ s.Offers t messages ∧
      ∀ m ∈ messages, m.link? = some session.link := by
  cases hi : s.sessions[i]? with
  | none => simp [sessionStep?, hi] at h
  | some session =>
    cases hp : session.phase with
    | parsing level =>
      simp only [sessionStep?, hi, hp, Option.bind_eq_bind, Option.bind_some,
        Option.some.injEq] at h
      subst h
      refine ⟨session, _, rfl, offers_carryOut s i _, ?_⟩
      intro m hm
      rw [link?_messages _ hm, link_parse]
    | reading level =>
      simp only [sessionStep?, hi, hp, Option.bind_eq_bind, Option.bind_some,
        Option.bind_eq_some_iff, Option.some.injEq] at h
      obtain ⟨link, -, ⟨got, incoming⟩, -, rfl⟩ := h
      refine ⟨session, _, rfl,
        offers_carryOut (s.setLink session.link { link with incoming }) i _, ?_⟩
      intro m hm
      rw [link?_messages _ hm, link_receive]
    | departing fault stage =>
      simp only [sessionStep?, hi, hp, Option.bind_eq_bind, Option.bind_some,
        Option.bind_eq_some_iff, Option.some.injEq] at h
      obtain ⟨link, -, after, -, rfl⟩ := h
      exact ⟨session, [], rfl, .of_worker_eq rfl, by simp⟩
    | «over» fault => simp [sessionStep?, hi, hp] at h

theorem worker_writerStep? {s t : Station σ ρ} {i : Nat} (h : s.writerStep? i = some t) :
    t.worker = s.worker := by
  simp only [writerStep?, Option.bind_eq_bind, Option.bind_eq_some_iff] at h
  obtain ⟨writer, -, h⟩ := h
  split at h
  · simp at h
  · simp only [Option.bind_eq_some_iff, Option.some.injEq] at h
    obtain ⟨link, -, step, -, rfl⟩ := h
    rfl

theorem worker_of_halts {s t : Station σ ρ} {i : Nat} (h : s.Halts i t) : t.worker = s.worker := by
  cases h
  exact foldl_fixed (·.worker) (fun s (x : Nat × Nat) => s.closeLink x.2) (fun _ _ => rfl) _ _

theorem offers_of_closingMove {s t : Station σ ρ} (h : s.ClosingMove t) :
    ∃ messages, s.Offers t messages ∧
      ∀ m ∈ messages, m = .stop ∧ ∃ stage, s.closing = .ports [] stage := by
  cases h with
  | stops closing =>
    refine ⟨[.stop], (offers_enqueue s .stop).congr rfl, ?_⟩
    intro m hm
    exact ⟨List.mem_singleton.mp hm, _, closing⟩
  | cancels => exact ⟨[], .of_worker_eq (worker_cancelListener s _), List.forall_mem_nil _⟩
  | _ => exact ⟨[], .of_worker_eq rfl, List.forall_mem_nil _⟩

theorem arrive?_eq_ok {s t : Station σ ρ} {i n : Nat} {bytes : Bytes}
    (h : s.arrive? i bytes = some (.ok (t, n))) :
    ∃ link incoming rest, s.links[i]? = some link ∧
      link.incoming.write? bytes = some (.ok (incoming, rest)) ∧
      t = s.setLink i { link with incoming } ∧ n = bytes.length - rest.length := by
  simp only [arrive?, Option.bind_eq_bind, Option.bind_eq_some_iff] at h
  obtain ⟨link, hlink, result, hresult, h⟩ := h
  cases result with
  | error kind => simp [Except.map] at h
  | ok pair =>
    cases h
    exact ⟨link, pair.1, pair.2, hlink, hresult, rfl, rfl⟩

def delivered : Except IoKind Bytes → Bytes
  | .ok bytes => bytes
  | .error _ => []

theorem collect?_eq_some {s t : Station σ ρ} {i count : Nat} {got : Except IoKind Bytes}
    (h : s.collect? i count = some (t, got)) :
    ∃ link outgoing, s.links[i]? = some link ∧
      link.outgoing.read? count = some (got, outgoing) ∧
      t = s.setLink i { link with outgoing, received := link.received ++ delivered got } := by
  simp only [collect?, Option.bind_eq_bind, Option.bind_eq_some_iff] at h
  obtain ⟨link, hlink, ⟨got', outgoing⟩, hread, h⟩ := h
  cases h
  cases got' with
  | ok bytes => exact ⟨link, outgoing, hlink, hread, rfl⟩
  | error kind => exact ⟨link, outgoing, hlink, hread, rfl⟩

theorem act_arrive (s : Station σ ρ) (k : Nat) (bytes : Bytes) :
    s.act (.arrive k bytes) = s ∨ ∃ link incoming rest, s.links[k]? = some link ∧
      link.incoming.write? bytes = some (.ok (incoming, rest)) ∧
        s.act (.arrive k bytes) = s.setLink k { link with incoming } := by
  simp only [act]
  split
  · next after n h =>
    obtain ⟨link, incoming, rest, hlink, hwrite, rfl, -⟩ := arrive?_eq_ok h
    exact .inr ⟨link, incoming, rest, hlink, hwrite, rfl⟩
  · exact .inl rfl

theorem act_collect (s : Station σ ρ) (k count : Nat) :
    s.act (.collect k count) = s ∨ ∃ link outgoing got, s.links[k]? = some link ∧
      link.outgoing.read? count = some (got, outgoing) ∧ s.act (.collect k count) =
        s.setLink k { link with outgoing, received := link.received ++ delivered got } := by
  simp only [act]
  cases h : s.collect? k count with
  | none => exact .inl rfl
  | some result =>
    obtain ⟨link, outgoing, hlink, hread, ht⟩ := collect?_eq_some h
    exact .inr ⟨link, outgoing, result.2, hlink, hread, ht⟩

/-- An action of anyone but the worker. -/
theorem offers_act (s : Station σ ρ) {a : Action σ ρ} (ha : a ≠ .step .worker) :
    ∃ messages, s.Offers (s.act a) messages ∧ ∀ m ∈ messages, s.Source a m := by
  -- an action that is not possible leaves everything as it is
  have silent {t : Station σ ρ} (h : t.worker = s.worker) : ∃ messages, s.Offers t messages ∧
      ∀ m ∈ messages, s.Source a m :=
    ⟨[], .of_worker_eq h, List.forall_mem_nil _⟩
  have same := silent rfl
  cases a with
  | arrive i bytes =>
    rcases s.act_arrive i bytes with hact | ⟨link, incoming, rest, -, -, hact⟩
    · rwa [hact]
    · rw [hact]
      exact silent rfl
  | collect i count =>
    rcases s.act_collect i count with hact | ⟨link, outgoing, got, -, -, hact⟩
    · rwa [hact]
    · rw [hact]
      exact silent rfl
  | finish i => exact silent rfl
  | deafen i => exact silent rfl
  | breakDown i kind => exact silent rfl
  | attach link parser policy => exact silent rfl
  | listen address => exact silent (worker_listen s address)
  | accept i peer link => exact silent (worker_accept s i peer link)
  | failAccept i kind =>
    rcases s.act_failAccept i kind with hsame | hhalts
    · rwa [hsame]
    · exact silent (worker_of_halts hhalts)
  | addPort name link => exact silent (worker_addPort s name link)
  | submit message =>
    refine ⟨_, offers_enqueue s message, ?_⟩
    intro m hm
    obtain rfl := List.mem_singleton.mp hm
    exact .submit
  | call run =>
    simp only [act, call]
    split
    · next hs => exact silent rfl
    · refine ⟨_, (offers_enqueue s (.access s.calls.size run)).congr rfl, ?_⟩
      intro m hm
      obtain rfl := List.mem_singleton.mp hm
      exact .call
  | close i => exact silent rfl
  | write i bytes level => exact silent rfl
  | setLevel level => exact silent rfl
  | shutDown => exact silent (worker_shutDown s)
  | tick => exact silent rfl
  | sessionStop i =>
    simp only [act]
    cases h : s.sessionStop? i with
    | none => exact same
    | some t =>
      obtain ⟨session, hsession, ht⟩ := offers_sessionStop? h
      exact ⟨_, ht, fun m hm => .sessionStop hsession (link?_farewell session hm)⟩
  | step part =>
    cases part with
    | worker => exact absurd rfl ha
    | session i =>
      simp only [act, partStep?]
      cases h : s.sessionStep? i with
      | none => exact same
      | some t =>
        obtain ⟨session, messages, hsession, ht, hlink⟩ := offers_sessionStep? h
        exact ⟨messages, ht, fun m hm => .session hsession (hlink m hm)⟩
    | writer i =>
      simp only [act, partStep?]
      cases h : s.writerStep? i with
      | none => exact same
      | some t => exact silent (worker_writerStep? h)
    | listener i =>
      rcases s.act_listener i with hsame | hhalts
      · rwa [hsame]
      · exact silent (worker_of_halts hhalts)
    | closing =>
      rcases s.act_closing with hsame | hmove
      · rwa [hsame]
      · obtain ⟨messages, ht, hstop⟩ := offers_of_closingMove hmove
        refine ⟨messages, ht, ?_⟩
        intro m hm
        obtain ⟨rfl, stage, hclosing⟩ := hstop m hm
        exact .shutDown hclosing

/-- Whatever is put into the queue comes from one of these. -/
theorem source_of_queued {s : Station σ ρ} {a : Action σ ρ} {m : Message σ ρ}
    (ha : a ≠ .step .worker) (h : m ∈ s.queued a) : s.Source a m ∧ s.stopped = false := by
  obtain ⟨messages, hoffers, hsource⟩ := s.offers_act ha
  rw [hoffers.queued] at h
  split at h
  · cases h
  · next hruns => exact ⟨hsource m h, (Bool.not_eq_true _).mp hruns⟩

end Station

end ModbusSlave
