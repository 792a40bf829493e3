import ModbusSlave.Proofs.Station.Lookalikes

/-!
# A serial line recovers

Bytes on a serial line that are no frame are thrown away, and the session that reads it does not end
for them. Whatever it has taken in before, from then on it does what a session would do that begins
at this moment: the same frames are handed over, and it ends in the same way. It ends only for what
happens to its link or to the service.
-/
namespace ModbusSlave

/-- A reason to end that no received byte can give. -/
def RequestFault.Outward (fault : RequestFault) : Prop :=
  fault = .shutdown ∨ ∃ kind, fault = .io kind

/-- The frame that a session hands over with the message. -/
def Message.frame? {σ ρ : Type} : Message σ ρ → Option Frame
  | .request _ frame => some frame
  | _ => none

theorem Pipe.read?_cases {p q : Pipe} {room : Nat} {got : Except IoKind Bytes} (hroom : 0 < room)
    (h : p.read? room = some (got, q)) :
    (∃ kind, got = .error kind ∧ p.broken = some kind) ∨
      (got = .ok [] ∧ p.closed = true ∧ p.content = []) ∨ ∃ x bytes, got = .ok (x :: bytes) := by
  unfold read? at h
  split at h
  · next kind hbroken =>
    cases h
    exact .inl ⟨kind, rfl, hbroken⟩
  · next hcontent =>
    split at h
    · next hclosed =>
      cases h
      exact .inr (.inl ⟨rfl, hclosed, hcontent⟩)
    · cases h
  · next x content _ hcontent =>
    cases h
    obtain ⟨n, rfl⟩ := Nat.exists_eq_succ_of_ne_zero (Nat.pos_iff_ne_zero.mp hroom)
    exact .inr (.inr ⟨x, content.take n, rfl⟩)

namespace Session

/-- A session that reads a serial line on the link `i` and throws bad frames away. -/
structure Serial (session : Session) (i : Nat) (role : Role) : Prop where
  link : session.link = i
  role : session.role = role
  policy : session.policy = .discard
  parser : ∃ state : Rtu.State, session.reader.parser = .rtu state ∧ state.Bounded
  capacity : session.reader.buffer.capacity = Rtu.maxFrame
  ready : ∀ level, session.phase = .reading level →
    session.reader.buffer.contents.length < Rtu.maxFrame
  outward : ∀ fault, session.fault? = some fault → fault.Outward

variable {session : Session} {i : Nat} {role : Role}

theorem serial_of_parsing {level : Option DecodeLevel} (phase : session.phase = .parsing level)
    (link : session.link = i) (role_eq : session.role = role) (policy : session.policy = .discard)
    (parser : ∃ state : Rtu.State, session.reader.parser = .rtu state ∧ state.Bounded)
    (capacity : session.reader.buffer.capacity = Rtu.maxFrame) : session.Serial i role where
  link := link
  role := role_eq
  policy := policy
  parser := parser
  capacity := capacity
  ready level hreading := by
    rw [phase] at hreading
    cases hreading
  outward fault hfault := by
    rw [fault?, phase] at hfault
    cases hfault

theorem serial_start (i : Nat) (role : Role) :
    (start i (.rtu .start) .discard role).Serial i role :=
  serial_of_parsing rfl rfl rfl rfl ⟨.start, rfl, trivial⟩ (ReadBuffer.capacity_ofCapacity _)

theorem Serial.ends (h : session.Serial i role) {phase : SessionPhase} {fault : RequestFault}
    (ended : fault? { session with phase } = some fault) (outward : fault.Outward) :
    Serial { session with phase } i role where
  link := h.link
  role := h.role
  policy := h.policy
  parser := h.parser
  capacity := h.capacity
  ready level hreading := by
    rw [fault?, show phase = .reading level from hreading] at ended
    cases ended
  outward other hother := by
    rw [ended, Option.some.injEq] at hother
    exact hother ▸ outward

/-- What a serial session comes to when it parses, by what its parser says: it never leaves. -/
inductive Digests (i : Nat) (role : Role) :
    Except RequestFault (Option Frame) → Session × Demand × List Event → Prop
  | waits {after : Session} {events : List Event} (serial : after.Serial i role)
      (live : after.fault? = none) : Digests i role (.ok none) (after, .nothing, events)
  | frame {after : Session} {frame : Frame} {events : List Event} (serial : after.Serial i role)
      (live : after.fault? = none) :
      Digests i role (.ok (some frame)) (after, .submit frame, events)
  | discards {after : Session} {fault : FrameFault} {events : List Event}
      (spoils : Rtu.Spoils fault) (serial : after.Serial i role)
      (same : (start i (.rtu .start) .discard role).Same after) :
      Digests i role (.error (.badFrame fault)) (after, .nothing, events ++ [.discarded fault])

theorem Serial.digests (h : session.Serial i role) (level : DecodeLevel) :
    Digests i role (session.reader.parser.parse session.reader.buffer level.frame).outcome
      (session.parse level) := by
  obtain ⟨link, ⟨parser, b⟩, policy, role, phase⟩ := session
  obtain ⟨rfl, rfl, rfl, ⟨state, rfl, hbounded⟩, hcapacity, -, -⟩ := h
  have hverdict := Rtu.verdict_parse hbounded b
  simp only [Session.parse, Parser.parse]
  generalize Rtu.parse state b = parsed at hverdict
  obtain ⟨outcome, state, b', unit?⟩ := parsed
  dsimp only at hverdict ⊢
  cases hverdict with
  | waits bounded short keeps =>
    refine .waits ⟨rfl, rfl, rfl, ⟨state, rfl, bounded⟩, keeps.trans hcapacity, ?_, ?_⟩ rfl
    · exact fun _ _ => short
    · exact fun _ hfault => by cases hfault
  | frame keeps =>
    exact .frame (serial_of_parsing rfl rfl rfl rfl ⟨.start, rfl, trivial⟩
      (keeps.trans hcapacity)) rfl
  | spoiled spoils keeps =>
    have hnew := ReadBuffer.Same.of_clear b'
    have hcapacity' : b'.capacity = Rtu.maxFrame := keeps.trans hcapacity
    rw [hcapacity'] at hnew
    exact .discards spoils
      (serial_of_parsing rfl rfl rfl rfl ⟨.start, rfl, trivial⟩ hcapacity')
      ⟨rfl, rfl, rfl, rfl, rfl, hnew.symm⟩

theorem Serial.receive (h : session.Serial i role) (level : DecodeLevel) (x : UInt8)
    (bytes : Bytes) :
    ∃ after events, session.receive level (.ok (x :: bytes)) = (after, .nothing, events) ∧
      after.Serial i role ∧ after.fault? = none := by
  have hcapacity := (session.reader.capacity_receive level.physical x bytes).trans h.capacity
  exact ⟨_, _, rfl, serial_of_parsing rfl h.link h.role h.policy h.parser hcapacity, rfl⟩

theorem Serial.prepare (h : session.Serial i role) :
    Serial { session with reader := ⟨session.reader.parser, session.reader.buffer.prepare⟩ } i
      role where
  link := h.link
  role := h.role
  policy := h.policy
  parser := h.parser
  capacity := session.reader.buffer.capacity_prepare.trans h.capacity
  ready level hreading := by
    rw [ReadBuffer.contents_prepare]
    exact h.ready level hreading
  outward := h.outward

/-- There is room for a read, so that it finds the end of a stream only if the stream has ended. -/
theorem Serial.room_pos (h : session.Serial i role) {level : DecodeLevel}
    (hphase : session.phase = .reading level) : 0 < session.reader.room := by
  apply session.reader.buffer.room_prepare_pos
  rw [h.capacity]
  exact h.ready level hphase

end Session

namespace Station

variable {σ ρ : Type}

inductive Gives (s : Station σ ρ) (i : Nat) : RequestFault → Prop
  | told (told : s.isClosed i = true ∨ s.stopped = true) : Gives s i .shutdown
  | broken {link : Link} {kind : IoKind} (on : s.links[i]? = some link)
      (broken : link.incoming.broken = some kind) : Gives s i (.io kind)
  | finished {link : Link} (on : s.links[i]? = some link) (closed : link.incoming.closed = true)
      (empty : link.incoming.content = []) : Gives s i (.io .unexpectedEof)

theorem Gives.outward {s : Station σ ρ} {i : Nat} {fault : RequestFault} (h : s.Gives i fault) :
    fault.Outward := by
  cases h with
  | told => exact .inl rfl
  | broken => exact .inr ⟨_, rfl⟩
  | finished => exact .inr ⟨_, rfl⟩

/-- What becomes of a serial session when something happens: it goes on as it was, or it ends for a
reason that the station gives. -/
inductive Goes (s : Station σ ρ) (i : Nat) (role : Role) (before after : Session) : Prop
  | stays (serial : after.Serial i role) (same : after.fault? = before.fault?)
  | ends {fault : RequestFault} (live : before.fault? = none) (serial : after.Serial i role)
      (ended : after.fault? = some fault) (gives : s.Gives i fault)

section

variable {s u : Station σ ρ} {n i : Nat} {role : Role} {before after : Session}

theorem goes_leave {fault : RequestFault} (known : u.sessions[n]? = some before)
    (live : before.fault? = none) (serial : after.Serial i role) (gives : s.Gives i fault) :
    ∃ final, (u.leave n after fault).sessions[n]? = some final ∧
      s.Goes i role before final := by
  obtain ⟨phase, hended, hsessions⟩ := u.sessions_leave n after fault
  obtain ⟨hn, -⟩ := Array.getElem?_eq_some_iff.mp known
  refine ⟨{ after with phase }, ?_, .ends live (serial.ends hended gives.outward) hended gives⟩
  rw [hsessions, Array.getElem?_setIfInBounds_self_of_lt hn]

theorem goes_parsing {session : Session} {level : Option DecodeLevel}
    (known : s.sessions[n]? = some session) (h : session.Serial i role)
    (hphase : session.phase = .parsing level) :
    ∃ after, (s.act (.step (.session n))).sessions[n]? = some after ∧
      s.Goes i role session after := by
  have live : session.fault? = none := by rw [Session.fault?, hphase]
  have hdigests := h.digests (level.getD s.level)
  rw [act_parsing known hphase]
  generalize session.parse (level.getD s.level) = step at hdigests
  generalize (session.reader.parser.parse _ _).outcome = outcome at hdigests
  cases hdigests with
  | @waits after events serial stays =>
    exact ⟨after, sessions_setSession (s := s.note events) after known,
      .stays serial (stays.trans live.symm)⟩
  | @discards after fault events spoils serial same =>
    have stays : after.fault? = none := same.fault.symm
    exact ⟨after, sessions_setSession (s := s.note (events ++ [.discarded fault])) after known,
      .stays serial (stays.trans live.symm)⟩
  | @frame after frame events serial stays =>
    simp only [carryOut]
    split
    · next hstopped =>
      exact goes_leave (u := s.note events) known live serial (.told (.inr hstopped))
    · have hknown : ((s.note events).enqueue (.request after.link frame)).sessions[n]? =
          some session := by
        rw [sessions_enqueue]
        exact known
      exact ⟨after, sessions_setSession after hknown, .stays serial (stays.trans live.symm)⟩

theorem goes_reading {session : Session} {level : DecodeLevel} {link : Link} {incoming : Pipe}
    {got : Except IoKind Bytes} (known : s.sessions[n]? = some session)
    (h : session.Serial i role) (hphase : session.phase = .reading level)
    (on : s.links[session.link]? = some link)
    (hread : link.incoming.read? session.reader.room = some (got, incoming)) :
    ∃ after, (s.act (.step (.session n))).sessions[n]? = some after ∧
      s.Goes i role session after := by
  have live : session.fault? = none := by rw [Session.fault?, hphase]
  have hon : s.links[i]? = some link := h.link ▸ on
  rw [act_reading known hphase on hread]
  rcases Pipe.read?_cases (h.room_pos hphase) hread with
    ⟨kind, rfl, hbroken⟩ | ⟨rfl, hclosed, hempty⟩ | ⟨x, bytes, rfl⟩
  · exact goes_leave (u := (s.setLink session.link { link with incoming }).note _) known live
      h.prepare (.broken hon hbroken)
  · exact goes_leave (u := (s.setLink session.link { link with incoming }).note _) known live
      h.prepare (.finished hon hclosed hempty)
  · obtain ⟨after, events, hreceive, serial, stays⟩ := h.receive level x bytes
    rw [hreceive]
    exact ⟨after, sessions_setSession
      (s := (s.setLink session.link { link with incoming }).note events) after known,
      .stays serial (stays.trans live.symm)⟩

theorem goes_ended {session : Session} {fault : RequestFault}
    (known : s.sessions[n]? = some session) (h : session.Serial i role)
    (ended : session.fault? = some fault) (a : Action σ ρ) :
    ∃ after, (s.act a).sessions[n]? = some after ∧ s.Goes i role session after := by
  obtain ⟨phase, hstill, hafter⟩ := fault?_act (a := a) known ended
  exact ⟨_, hafter, .stays (h.ends hstill (h.outward fault ended)) (hstill.trans ended.symm)⟩

theorem goes_step {session : Session} (known : s.sessions[n]? = some session)
    (h : session.Serial i role) :
    ∃ after, (s.act (.step (.session n))).sessions[n]? = some after ∧
      s.Goes i role session after := by
  have waits (hact : s.act (.step (.session n)) = s) :
      ∃ after, (s.act (.step (.session n))).sessions[n]? = some after ∧
        s.Goes i role session after := by
    rw [hact]
    exact ⟨session, known, .stays h rfl⟩
  cases hphase : session.phase with
  | parsing level => exact goes_parsing known h hphase
  | reading level =>
    cases hlink : s.links[session.link]? with
    | none => exact waits (by simp [act, partStep?, sessionStep?, known, hphase, hlink])
    | some link =>
      cases hread : link.incoming.read? session.reader.room with
      | none => exact waits (by simp [act, partStep?, sessionStep?, known, hphase, hlink, hread])
      | some result => exact goes_reading known h hphase hlink hread
  | departing fault stage =>
    exact goes_ended known h (by rw [Session.fault?, hphase]) (.step (.session n))
  | «over» fault => exact goes_ended known h (by rw [Session.fault?, hphase]) (.step (.session n))

theorem goes_stop {session : Session} (known : s.sessions[n]? = some session)
    (h : session.Serial i role) :
    ∃ after, (s.act (.sessionStop n)).sessions[n]? = some after ∧
      s.Goes i role session after := by
  cases hstop : s.sessionStop? n with
  | none =>
    have hact : s.act (.sessionStop n) = s := by simp [act, hstop]
    rw [hact]
    exact ⟨session, known, .stays h rfl⟩
  | some t =>
    have hact : s.act (.sessionStop n) = t := by simp [act, hstop]
    simp only [sessionStop?, known, Option.bind_eq_bind, Option.bind_some,
      Option.ite_none_right_eq_some, Option.some.injEq] at hstop
    obtain ⟨⟨hlive, hclosed⟩, rfl⟩ := hstop
    have live : session.fault? = none := by
      rwa [Session.live, Option.isNone_iff_eq_none] at hlive
    rw [hact]
    exact goes_leave known live h (.told (.inl (h.link ▸ hclosed)))

/-- Whatever happens, a serial session goes on or ends for a reason from outside. -/
theorem goes_act {session : Session} (known : s.sessions[n]? = some session)
    (h : session.Serial i role) (a : Action σ ρ) :
    ∃ after, (s.act a).sessions[n]? = some after ∧ s.Goes i role session after := by
  rcases place_cases a known with hsame | ⟨rfl | rfl, -⟩
  · exact ⟨session, hsame, .stays h rfl⟩
  · exact goes_step known h
  · exact goes_stop known h

theorem Goes.serial (h : s.Goes i role before after) : after.Serial i role := by
  cases h with
  | stays serial => exact serial
  | ends live serial => exact serial

theorem serial_run {session : Session} (known : s.sessions[n]? = some session)
    (h : session.Serial i role) (actions : List (Action σ ρ)) :
    ∃ after, (s.run actions).sessions[n]? = some after ∧ after.Serial i role := by
  induction actions generalizing s session with
  | nil => exact ⟨session, known, h⟩
  | cons a rest ih =>
    obtain ⟨next, hnext, hgoes⟩ := goes_act known h a
    exact ih hnext hgoes.serial

def reason? (s : Station σ ρ) (n : Nat) : Option RequestFault :=
  s.sessions[n]?.bind Session.fault?

theorem reason?_eq {session : Session} (known : s.sessions[n]? = some session) :
    s.reason? n = session.fault? := by
  rw [reason?, known, Option.bind_some]

/-- What the session `n` finds in its next turn, if it parses in it. -/
def attempt? (s : Station σ ρ) (n : Nat) : Option (Except RequestFault (Option Frame)) :=
  s.sessions[n]?.bind fun session =>
    match session.phase with
    | .parsing level =>
      let level := level.getD s.level
      some (session.reader.parser.parse session.reader.buffer level.frame).outcome
    | _ => none

theorem attempt?_eq_some {outcome : Except RequestFault (Option Frame)} {session : Session}
    (known : s.sessions[n]? = some session) (h : s.attempt? n = some outcome) :
    ∃ level, session.phase = .parsing level ∧
      (session.reader.parser.parse session.reader.buffer (level.getD s.level).frame).outcome =
        outcome := by
  rw [attempt?, known, Option.bind_some] at h
  split at h
  · next level hphase => exact ⟨level, hphase, Option.some.inj h⟩
  · cases h

theorem Same.reason? (h : s.Same u) (n : Nat) : s.reason? n = u.reason? n := by
  obtain ⟨sessions, rfl, hsessions⟩ := h
  have hn := hsessions n
  rw [Station.reason?, Station.reason?, withSessions]
  generalize s.sessions[n]? = before at hn
  generalize sessions[n]? = after at hn
  cases hn with
  | none => rfl
  | some hxy => exact hxy.fault

/-- A session that finds a bad frame says so and is as good as new. -/
theorem renewed_of_attempt {session : Session} {fault : FrameFault}
    (known : s.sessions[n]? = some session) (h : session.Serial i role)
    (hbad : s.attempt? n = some (.error (.badFrame fault))) :
    Rtu.Spoils fault ∧
      (∃ events, (s.act (.step (.session n))).log =
        s.log ++ (events ++ [.discarded fault]).toArray) ∧
      ((s.act (.step (.session n))).setSession n (.start i (.rtu .start) .discard role)).Same
        (s.act (.step (.session n))) := by
  obtain ⟨level, hphase, houtcome⟩ := attempt?_eq_some known hbad
  have hdigests := h.digests (level.getD s.level)
  rw [act_parsing known hphase]
  rw [houtcome] at hdigests
  generalize session.parse (level.getD s.level) = step at hdigests
  cases hdigests with
  | @discards after _ events spoils serial same =>
    refine ⟨spoils, ⟨events, rfl⟩, ?_⟩
    have hset : ((s.carryOut n (after, .nothing, events ++ [.discarded fault])).setSession n
        (.start i (.rtu .start) .discard role)) =
        (s.note (events ++ [.discarded fault])).setSession n
          (.start i (.rtu .start) .discard role) := by
      rw [carryOut]
      simp [setSession]
    rw [hset]
    exact same_setSession (.refl _) same n

/-- A session of a serial line throws bad frames away and never ends for one, nor for anything else
that arrives: its link is closed, fails or comes to its end, or the service has stopped. Right after
a bad frame, whatever has happened before, it is as good as a session that begins at this moment:
whatever happens then, the same messages are queued in the same order, it ends for the same reason
or not at all, and nothing else can be told apart. -/
theorem discard_renews {s : Station σ ρ} {n i : Nat} {role : Role}
    (known : s.sessions[n]? = some (.start i (.rtu .start) .discard role))
    (history : List (Action σ ρ)) :
    let t := s.run history
    (∃ session, t.sessions[n]? = some session ∧ ∀ fault, session.fault? = some fault →
      fault = .shutdown ∨ ∃ kind, fault = .io kind) ∧
    (∀ a fault, t.reason? n = none → (t.act a).reason? n = some fault → t.Gives i fault) ∧
    ∀ fault, t.attempt? n = some (.error (.badFrame fault)) →
      let u := t.act (.step (.session n))
      let new := u.setSession n (.start i (.rtu .start) .discard role)
      Rtu.Spoils fault ∧ u.reason? n = none ∧
      (∃ events, u.log = t.log ++ (events ++ [.discarded fault]).toArray) ∧
      ∀ actions, new.along queued actions = u.along queued actions ∧
        (new.run actions).reason? n = (u.run actions).reason? n ∧
        (new.run actions).Same (u.run actions) := by
  intro t
  obtain ⟨session, ht, hserial⟩ := serial_run known (Session.serial_start i role) history
  refine ⟨⟨session, ht, hserial.outward⟩, ?_, ?_⟩
  · intro a fault hreads hends
    obtain ⟨after, hafter, hgoes⟩ := goes_act ht hserial a
    rw [reason?_eq ht] at hreads
    rw [reason?_eq hafter] at hends
    cases hgoes with
    | stays serial same =>
      rw [same, hreads] at hends
      cases hends
    | ends live serial ended gives =>
      rw [ended, Option.some.injEq] at hends
      exact hends ▸ gives
  · intro fault hbad u new
    obtain ⟨hspoils, hlog, hsame⟩ := renewed_of_attempt ht hserial hbad
    obtain ⟨after, hafter, -⟩ := goes_act ht hserial (.step (.session n))
    have hreads : u.reason? n = none := by
      rw [← hsame.reason? n]
      exact reason?_eq (sessions_setSession _ hafter)
    refine ⟨hspoils, hreads, hlog, fun actions => ?_⟩
    have hrun := same_run hsame actions
    exact ⟨(same_queued hsame actions).symm, hrun.reason? n, hrun⟩

/-- A frame announces more bytes than fit, and what has come of it stays behind. The request that
comes next is handed over as by a session that begins there. -/
theorem discard_renews_announced :
    let s : Station Unit Unit :=
      (ofSettings ⟨⟨1⟩, .uniform 2, .ofSeconds 1, none, .nothing⟩).act
        (.addPort "line" (.fresh 64 64 true none))
    let turn := Action.step (σ := Unit) (ρ := Unit) (.session 0)
    let history := [turn, .arrive 0 [0x01, 0x10, 0x00, 0x00, 0x00, 0x01, 0xFF], turn]
    let u := (s.run history).act turn
    let later := [turn, .arrive 0 [0x01, 0x03, 0x00, 0x00, 0x00, 0x01, 0x84, 0x0A], turn, turn]
    (s.run history).attempt? 0 = some (.error (.badFrame (.frameTooLong 261 253))) ∧
      u.reason? 0 = none ∧
      (u.along queued later).filterMap (·.frame?) =
        [⟨.rtu, ⟨1⟩, 0x03, [0x00, 0x00, 0x00, 0x01]⟩] ∧
      (u.run later).reason? 0 = none := by
  intro s turn history u later
  have hbad : (s.run history).attempt? 0 =
      some (.error (.badFrame (.frameTooLong 261 253))) := by
    decide +kernel
  have hstart : s.sessions[0]? = some (.start 0 (.rtu .start) .discard (.port "line")) := rfl
  obtain ⟨-, -, hall⟩ := discard_renews hstart history
  obtain ⟨-, hreads, -, hrun⟩ := hall _ hbad
  obtain ⟨hqueued, hreason, -⟩ := hrun later
  refine ⟨hbad, hreads, ?_⟩
  rw [← hqueued, ← hreason]
  decide +kernel

end

end Station

end ModbusSlave
