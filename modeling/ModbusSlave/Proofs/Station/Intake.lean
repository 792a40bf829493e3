import ModbusSlave.Proofs.Station.Linearization
import ModbusSlave.Proofs.Station.Links
import ModbusSlave.Proofs.Stream.MbapReading

/-!
# What a session takes in

A session of a network stream, from the moment its link is accepted: the frames that it has
submitted, what its reader holds and what still waits on the link are together all that has arrived.
When it ends on its own, nothing that could have been a frame is left, and one release stands behind
its requests.
-/
namespace ModbusSlave

/-- A session that was accepted with the link `i`. -/
structure Session.Owns (session : Session) (i : Nat) : Prop where
  link : session.link = i
  policy : session.policy = .close
  role : ∃ listener id, session.role = .accepted listener id

/-- The same link later on, as far as its incoming side and its end are concerned. -/
structure Link.Follows (before after : Link) : Prop where
  content : after.incoming.content = before.incoming.content
  broken : after.incoming.broken = before.incoming.broken
  finished : before.incoming.closed = true → after.incoming.closed = true
  closed : before.closed = true → after.closed = true

theorem Link.Follows.refl (link : Link) : link.Follows link := ⟨rfl, rfl, id, id⟩

theorem Link.Follows.trans {a b c : Link} (h : a.Follows b) (h' : b.Follows c) : a.Follows c := by
  refine ⟨h'.content.trans h.content, h'.broken.trans h.broken, ?_, ?_⟩
  · intro hfinished
    exact h'.finished (h.finished hfinished)
  · intro hclosed
    exact h'.closed (h.closed hclosed)

theorem Link.follows_closed (link : Link) (closed : Bool) :
    link.Follows { link with closed := link.closed || closed } := by
  refine ⟨rfl, rfl, id, ?_⟩
  intro hclosed
  dsimp only
  rw [hclosed, Bool.true_or]

theorem follows_of_shutdownStep {stage : ShutdownStage} {party : Party} {link after : Link}
    {next : Option ShutdownStage} (h : stage.step? party link = some (after, next)) :
    link.Follows after := by
  unfold ShutdownStage.step? at h
  split at h
  · cases h
    exact ⟨rfl, rfl, id, fun _ => rfl⟩
  · split at h
    · cases h
      exact ⟨rfl, rfl, id, id⟩
    · cases h

theorem Link.Follows.holds : Link.Holds Link.Follows where
  refl := .refl
  trans := .trans
  closed := follows_closed
  release _ _ := ⟨rfl, rfl, id, id⟩
  shutdown := follows_of_shutdownStep

namespace Station

variable {σ ρ : Type}

/-- The bytes that arrive on the link `i`. -/
def fed (i : Nat) (s : Station σ ρ) : Action σ ρ → Bytes
  | .arrive k bytes =>
    if k = i then
      match s.arrive? i bytes with
      | some (.ok (_, n)) => bytes.take n
      | _ => []
    else []
  | _ => []

/-- Why a session has ended, with `rest` behind the last frame it has submitted. -/
inductive Ends (s : Station σ ρ) (link : Link) (rest : Bytes) : RequestFault → Prop
  | shutdown (told : link.closed = true ∨ s.stopped = true) : Ends s link rest .shutdown
  | badFrame {fault : FrameFault} {behind : Bytes}
      (first : Mbap.first? rest = some (.error fault, behind)) :
      Ends s link rest (.badFrame fault)
  | finished (first : Mbap.first? rest = none) (ended : link.incoming.closed = true) :
      Ends s link rest (.io .unexpectedEof)

/-- The session `j` after the bytes `arrived` on the link `i` and the messages `said` about it. -/
inductive Intake (i j : Nat) (s : Station σ ρ) (arrived : Bytes) (said : List (Message σ ρ)) :
    Prop
  | live {session : Session} {link : Link} {frames : List Frame} {waiting : Bytes}
      (known : s.sessions[j]? = some session) (on : s.links[i]? = some link)
      (owns : session.Owns i) (sound : link.incoming.broken = none)
      (phase : (∃ level, session.phase = .parsing level) ∨
        ((∃ level, session.phase = .reading level) ∧ Mbap.first? waiting = none))
      (awaits : Mbap.Awaits session.reader waiting)
      (consumes : Mbap.Consumes frames arrived (waiting ++ link.incoming.content))
      (said_eq : said = frames.map (.request i))
  | gone {session : Session} {link : Link} {frames : List Frame} {fault : RequestFault}
      {rest : Bytes} (known : s.sessions[j]? = some session) (on : s.links[i]? = some link)
      (owns : session.Owns i) (fault?_eq : session.fault? = some fault)
      (ends : s.Ends link rest fault) (consumes : Mbap.Consumes frames arrived rest)
      (said_eq : (session.phase = .over fault ∧ said = frames.map (.request i) ++ [.release i]) ∨
        (s.stopped = true ∧ said = frames.map (.request i)))

variable {i j : Nat} {s t : Station σ ρ} {arrived : Bytes} {said : List (Message σ ρ)}

theorem Intake.owner (h : s.Intake i j arrived said) :
    ∃ session, s.sessions[j]? = some session ∧ session.Owns i := by
  cases h with
  | live known on owns => exact ⟨_, known, owns⟩
  | gone known on owns => exact ⟨_, known, owns⟩

theorem Intake.mono (h : s.Intake i j arrived said)
    (hsession : ∀ session, s.sessions[j]? = some session → t.sessions[j]? = some session)
    (hlink : s.Becomes i Link.Follows t)
    (hstopped : s.stopped = true → t.stopped = true) : t.Intake i j arrived said := by
  cases h with
  | live known on owns sound phase awaits consumes said_eq =>
    obtain ⟨after, hafter, hfollows⟩ := hlink _ on
    rw [← hfollows.content] at consumes
    exact .live (hsession _ known) hafter owns (hfollows.broken.trans sound) phase awaits consumes
      said_eq
  | @gone session link frames fault rest known on owns fault?_eq ends consumes said_eq =>
    obtain ⟨after, hafter, hfollows⟩ := hlink _ on
    refine .gone (hsession _ known) hafter owns fault?_eq ?_ consumes ?_
    · cases ends with
      | shutdown told => exact .shutdown (told.imp hfollows.closed hstopped)
      | badFrame first => exact .badFrame first
      | finished first ended => exact .finished first (hfollows.finished ended)
    · exact said_eq.imp_right fun ⟨hs, hsaid⟩ => ⟨hstopped hs, hsaid⟩

theorem Intake.arrive (h : s.Intake i j arrived said) {link : Link}
    (hlink : s.links[i]? = some link)
    (hopen : link.incoming.closed = false) {incoming : Pipe} {bytes : Bytes}
    (hcontent : incoming.content = link.incoming.content ++ bytes)
    (hbroken : incoming.broken = link.incoming.broken) :
    (s.setLink i { link with incoming }).Intake i j (arrived ++ bytes) said := by
  obtain ⟨hi, -⟩ := Array.getElem?_eq_some_iff.mp hlink
  have hafter : (s.setLink i { link with incoming }).links[i]? = some { link with incoming } :=
    Array.getElem?_setIfInBounds_self_of_lt hi
  cases h with
  | live known on owns sound phase awaits consumes said_eq =>
    obtain rfl := Option.some.inj (hlink.symm.trans on)
    have hmore := consumes.append bytes
    rw [List.append_assoc, ← hcontent] at hmore
    exact .live known hafter owns (hbroken.trans sound) phase awaits hmore said_eq
  | @gone session link' frames fault rest known on owns fault?_eq ends consumes said_eq =>
    obtain rfl := Option.some.inj (hlink.symm.trans on)
    refine .gone known hafter owns fault?_eq ?_ (consumes.append bytes) said_eq
    cases ends with
    | shutdown told => exact .shutdown told
    | badFrame first => exact .badFrame (Mbap.first?_append first bytes)
    | finished first ended =>
      rw [hopen] at ended
      cases ended

theorem spoken_of_offers {a : Action σ ρ} {messages : List (Message σ ρ)}
    (h : s.Offers (s.act a) messages) (hlink : ∀ m ∈ messages, m.link? = some i) :
    s.spoken i a = if s.stopped then [] else messages := by
  rw [spoken, h.queued]
  split
  · rfl
  · rw [List.filter_eq_self]
    intro m hm
    rw [decide_eq_true_eq]
    exact hlink m hm

theorem farewell_of_owns {session : Session} (h : session.Owns i) :
    (session.farewell : List (Message σ ρ)) = [.release i] := by
  obtain ⟨hlink, -, listener, id, hrole⟩ := h
  rw [Session.farewell, hrole, hlink]

theorem sessions_setSession {k : Nat} {before : Session} (session : Session)
    (h : s.sessions[k]? = some before) : (s.setSession k session).sessions[k]? = some session := by
  obtain ⟨hk, -⟩ := Array.getElem?_eq_some_iff.mp h
  exact Array.getElem?_setIfInBounds_self_of_lt hk

theorem intake_leave {session before : Session} {link : Link} {frames : List Frame}
    {rest : Bytes} {fault : RequestFault} (known : s.sessions[j]? = some before)
    (on : s.links[i]? = some link) (owns : session.Owns i) (ends : s.Ends link rest fault)
    (consumes : Mbap.Consumes frames arrived rest) :
    (s.leave j session fault).Intake i j arrived
      (frames.map (.request i) ++ if s.stopped then [] else [.release i]) := by
  obtain ⟨hlink, hpolicy, listener, id, hrole⟩ := owns
  cases hs : s.stopped with
  | true =>
    have hleave : s.leave j session fault = (s.note [.sessionEnded id fault]).setSession j
        { session with phase := .departing fault .entering } := by
      simp only [leave, hrole]
      exact if_pos hs
    rw [hleave, if_pos rfl, List.append_nil]
    refine .gone (sessions_setSession _ known) on ⟨hlink, hpolicy, listener, id, hrole⟩ rfl ?_
      consumes (.inr ⟨hs, rfl⟩)
    cases ends with
    | shutdown told => exact .shutdown told
    | badFrame first => exact .badFrame first
    | finished first ended => exact .finished first ended
  | false =>
    have hleave : s.leave j session fault =
        ((s.note [.sessionEnded id fault]).enqueue (.release session.link)).setSession j
          { session with phase := .over fault } := by
      simp only [leave, hrole]
      exact if_neg (by rw [Bool.not_eq_true]; exact hs)
    have hknown : ((s.note [.sessionEnded id fault]).enqueue
        (.release session.link)).sessions[j]? = some before := by
      rw [sessions_enqueue]
      exact known
    have hon : ((s.note [.sessionEnded id fault]).enqueue
        (.release session.link)).links[i]? = some link := by
      rw [links_enqueue]
      exact on
    rw [hleave, if_neg Bool.false_ne_true]
    refine .gone (sessions_setSession _ hknown) hon ⟨hlink, hpolicy, listener, id, hrole⟩ rfl ?_
      consumes (.inl ⟨rfl, rfl⟩)
    cases ends with
    | shutdown told =>
      refine .shutdown (told.imp_right fun hstopped => ?_)
      rw [hs] at hstopped
      cases hstopped
    | badFrame first => exact .badFrame first
    | finished first ended => exact .finished first ended

theorem intake_sessionStop (h : s.Intake i j arrived said) :
    (s.act (.sessionStop j)).Intake i j arrived (said ++ s.spoken i (.sessionStop j)) := by
  cases hstop : s.sessionStop? j with
  | none =>
    have hsame : s.act (.sessionStop j) = s := by simp [act, hstop]
    rw [spoken, queued, hsame, List.drop_length, List.filter_nil, List.append_nil]
    exact h
  | some t =>
    have hact : s.act (.sessionStop j) = t := by simp [act, hstop]
    cases h with
    | gone known on owns fault?_eq =>
      simp [sessionStop?, known, Session.live, fault?_eq] at hstop
    | @live session link frames waiting known on owns sound phase awaits consumes said_eq =>
      have hclosed : s.isClosed i = link.closed := by rw [isClosed, on]; rfl
      simp only [sessionStop?, known, Option.bind_eq_bind, Option.bind_some, owns.link, hclosed,
        Option.ite_none_right_eq_some, Option.some.injEq] at hstop
      obtain ⟨⟨-, hlink⟩, rfl⟩ := hstop
      have hoffers : s.Offers (s.act (.sessionStop j)) session.farewell := by
        rw [hact]
        exact s.offers_leave j session .shutdown
      have hspoken := spoken_of_offers (i := i) hoffers fun m hm => by
        rw [link?_farewell session hm, owns.link]
      rw [hspoken, farewell_of_owns owns, hact, said_eq]
      exact intake_leave known on owns (.shutdown (.inl hlink)) consumes

theorem act_parsing {session : Session} {level : Option DecodeLevel}
    (known : s.sessions[j]? = some session) (hphase : session.phase = .parsing level) :
    s.act (.step (.session j)) = s.carryOut j (session.parse (level.getD s.level)) := by
  simp only [act, partStep?, sessionStep?, known, hphase, Option.bind_eq_bind, Option.bind_some,
    Option.getD_some]

theorem act_reading {session : Session} {level : DecodeLevel} {link : Link} {incoming : Pipe}
    {got : Except IoKind Bytes} (known : s.sessions[j]? = some session)
    (hphase : session.phase = .reading level) (on : s.links[session.link]? = some link)
    (hread : link.incoming.read? session.reader.room = some (got, incoming)) :
    s.act (.step (.session j)) =
      (s.setLink session.link { link with incoming }).carryOut j (session.receive level got) := by
  simp only [act, partStep?, sessionStep?, known, hphase, on, hread, Option.bind_eq_bind,
    Option.bind_some, Option.getD_some]

theorem act_departing {session : Session} {fault : RequestFault} {stage : ShutdownStage}
    {link after : Link} {next : Option ShutdownStage} (known : s.sessions[j]? = some session)
    (hphase : session.phase = .departing fault stage) (on : s.links[session.link]? = some link)
    (hstep : stage.step? (.session j) link = some (after, next)) :
    ∃ phase : SessionPhase, Session.fault? { session with phase } = some fault ∧
      s.act (.step (.session j)) =
        (s.setLink session.link after).setSession j { session with phase } := by
  cases next with
  | none =>
    refine ⟨.over fault, rfl, ?_⟩
    simp [act, partStep?, sessionStep?, known, hphase, on, hstep]
  | some stage =>
    refine ⟨.departing fault stage, rfl, ?_⟩
    simp [act, partStep?, sessionStep?, known, hphase, on, hstep]

theorem intake_carryOut_leave {session before : Session} {link : Link} {frames : List Frame}
    {rest : Bytes} {fault : RequestFault} (events : List Event)
    (known : s.sessions[j]? = some before) (on : s.links[i]? = some link) (owns : session.Owns i)
    (ends : s.Ends link rest fault) (consumes : Mbap.Consumes frames arrived rest) :
    (s.carryOut j (session, .leave fault, events)).Intake i j arrived
      (frames.map (.request i) ++ if s.stopped then [] else [.release i]) := by
  have hends : (s.note events).Ends link rest fault := by
    cases ends with
    | shutdown told => exact .shutdown told
    | badFrame first => exact .badFrame first
    | finished first ended => exact .finished first ended
  exact intake_leave (s := s.note events) known on owns hends consumes

theorem intake_carryOut_submit {session before : Session} {link : Link} {frames : List Frame}
    {frame : Frame} {waiting left : Bytes} (events : List Event)
    (known : s.sessions[j]? = some before) (on : s.links[i]? = some link) (owns : session.Owns i)
    (sound : link.incoming.broken = none) (phase : ∃ level, session.phase = .parsing level)
    (awaits : Mbap.Awaits session.reader left)
    (first : Mbap.first? waiting = some (.ok frame, left))
    (consumes : Mbap.Consumes frames arrived (waiting ++ link.incoming.content)) :
    (s.carryOut j (session, .submit frame, events)).Intake i j arrived
      (frames.map (.request i) ++ if s.stopped then [] else [.request i frame]) := by
  cases hs : s.stopped with
  | true =>
    have hleave : s.carryOut j (session, .submit frame, events) =
        s.carryOut j (session, .leave .shutdown, events) := by
      simp only [carryOut]
      exact if_pos hs
    have hgone := intake_carryOut_leave events known on owns (.shutdown (.inr hs)) consumes
    rw [hs, if_pos rfl] at hgone
    rw [hleave, if_pos rfl]
    exact hgone
  | false =>
    have hsubmit : s.carryOut j (session, .submit frame, events) =
        ((s.note events).enqueue (.request session.link frame)).setSession j session := by
      simp only [carryOut]
      exact if_neg (by rw [Bool.not_eq_true]; exact hs)
    have hknown :
        ((s.note events).enqueue (.request session.link frame)).sessions[j]? = some before := by
      rw [sessions_enqueue]
      exact known
    have hon : ((s.note events).enqueue (.request session.link frame)).links[i]? = some link := by
      rw [links_enqueue]
      exact on
    rw [hsubmit, if_neg Bool.false_ne_true]
    have hmore := consumes.concat (Mbap.first?_append first link.incoming.content)
    refine .live (sessions_setSession _ hknown) hon owns sound (.inl phase) awaits hmore ?_
    rw [List.map_append]
    rfl

/-- What a turn of a session does that has not ended, with `waiting` in its reader. -/
inductive Turn (i j : Nat) (s : Station σ ρ) (session : Session) (link : Link) (waiting : Bytes) :
    Station σ ρ → Prop
  | frame {after : Session} {level : Option DecodeLevel} {frame : Frame} {left : Bytes}
      {events : List Event} (before : session.phase = .parsing level) (owns : after.Owns i)
      (phase : after.phase = .parsing none) (awaits : Mbap.Awaits after.reader left)
      (first : Mbap.first? waiting = some (.ok frame, left)) :
      Turn i j s session link waiting (s.carryOut j (after, .submit frame, events))
  | fault {after : Session} {fault : FrameFault} {behind : Bytes} {events : List Event}
      (owns : after.Owns i) (first : Mbap.first? waiting = some (.error fault, behind)) :
      Turn i j s session link waiting (s.carryOut j (after, .leave (.badFrame fault), events))
  | waits {after : Session} {level : Option DecodeLevel} {next : DecodeLevel} {events : List Event}
      (before : session.phase = .parsing level) (owns : after.Owns i)
      (phase : after.phase = .reading next) (awaits : Mbap.Awaits after.reader waiting)
      (first : Mbap.first? waiting = none) :
      Turn i j s session link waiting (s.carryOut j (after, .nothing, events))
  | idle (first : Mbap.first? waiting = none) (empty : link.incoming.content = [])
      (unfinished : link.incoming.closed = false) : Turn i j s session link waiting s
  | finished {after : Session} {events : List Event} (owns : after.Owns i)
      (first : Mbap.first? waiting = none) (empty : link.incoming.content = [])
      (ended : link.incoming.closed = true) :
      Turn i j s session link waiting
        ((s.setLink i link).carryOut j (after, .leave (.io .unexpectedEof), events))
  | bytes {after : Session} {level : DecodeLevel} {x : UInt8} {bytes content : Bytes}
      {events : List Event} (owns : after.Owns i) (phase : after.phase = .parsing (some level))
      (awaits : Mbap.Awaits after.reader (waiting ++ x :: bytes))
      (split : link.incoming.content = x :: bytes ++ content) :
      Turn i j s session link waiting
        ((s.setLink i { link with incoming := { link.incoming with content } }).carryOut j
          (after, .nothing, events))

/-- One parse: a frame is submitted, a header without sense ends the session, or more bytes are
needed. -/
theorem turn_of_parsing {session : Session} {waiting : Bytes} {level : Option DecodeLevel}
    (link : Link) (known : s.sessions[j]? = some session) (owns : session.Owns i)
    (hphase : session.phase = .parsing level) (awaits : Mbap.Awaits session.reader waiting) :
    s.Turn i j session link waiting (s.act (.step (.session j))) := by
  obtain ⟨hlink, hpolicy, hrole⟩ := owns
  rw [act_parsing known hphase]
  have hattempts := awaits.attempts (level.getD s.level).frame
  generalize hparsed : session.reader.parser.parse session.reader.buffer
    (level.getD s.level).frame = parsed at hattempts
  cases hattempts with
  | @frame frame left outcome left_awaits first =>
    have hparse : session.parse (level.getD s.level) =
        ({ session with reader := ⟨parsed.parser, parsed.buffer⟩, phase := .parsing none },
          .submit frame, parsed.events) := by
      simp only [Session.parse, hparsed, outcome]
    rw [hparse]
    exact .frame hphase ⟨hlink, hpolicy, hrole⟩ rfl left_awaits first
  | @fault fault left outcome left_awaits first =>
    have hparse : session.parse (level.getD s.level) =
        ({ session with reader := ⟨parsed.parser, parsed.buffer⟩ }, .leave (.badFrame fault),
          parsed.events) := by
      simp only [Session.parse, hparsed, outcome, hpolicy]
    rw [hparse]
    exact .fault ⟨hlink, hpolicy, hrole⟩ first
  | waits outcome left_awaits first =>
    have hparse : session.parse (level.getD s.level) =
        (⟨session.link, ⟨parsed.parser, parsed.buffer⟩, session.policy, session.role,
          .reading (level.getD s.level)⟩, .nothing, parsed.events) := by
      simp only [Session.parse, hparsed, outcome]
    rw [hparse]
    exact .waits hphase ⟨hlink, hpolicy, hrole⟩ rfl left_awaits first

/-- One read: bytes go from the link to the reader, or the end of the stream ends the session. -/
theorem turn_of_reading {session : Session} {link : Link} {waiting : Bytes} {level : DecodeLevel}
    (known : s.sessions[j]? = some session) (on : s.links[i]? = some link) (owns : session.Owns i)
    (sound : link.incoming.broken = none) (hphase : session.phase = .reading level)
    (first : Mbap.first? waiting = none) (awaits : Mbap.Awaits session.reader waiting) :
    s.Turn i j session link waiting (s.act (.step (.session j))) := by
  obtain ⟨hlink, hpolicy, hrole⟩ := owns
  have hon : s.links[session.link]? = some link := by rw [hlink, on]
  cases hcontent : link.incoming.content with
  | nil =>
    cases hend : link.incoming.closed with
    | false =>
      have hread : link.incoming.read? session.reader.room = none := by
        simp [Pipe.read?, sound, hcontent, hend]
      have hsame : s.act (.step (.session j)) = s := by
        simp [act, partStep?, sessionStep?, known, hphase, hon, hread]
      rw [hsame]
      exact .idle first hcontent hend
    | true =>
      have hread : link.incoming.read? session.reader.room = some (.ok [], link.incoming) := by
        simp [Pipe.read?, sound, hcontent, hend]
      have howns : Session.Owns { session with
          reader := (session.reader.receive level.physical (.ok [])).reader } i :=
        ⟨hlink, hpolicy, hrole⟩
      rw [act_reading known hphase hon hread, hlink]
      exact .finished howns first hcontent hend
  | cons x content =>
    obtain ⟨n, hroom⟩ := Nat.exists_eq_succ_of_ne_zero (Nat.ne_of_gt (awaits.room_pos first))
    have hread : link.incoming.read? session.reader.room =
        some (.ok (x :: content.take n), { link.incoming with content := content.drop n }) := by
      simp [Pipe.read?, sound, hcontent, hroom]
    have hfits : (content.take n).length < session.reader.room := by
      rw [hroom, List.length_take]
      omega
    obtain ⟨houtcome, hawaits⟩ := awaits.receive level.physical hfits (x := x)
    have hreceive : session.receive level (.ok (x :: content.take n)) =
        ({ session with
          reader := (session.reader.receive level.physical (.ok (x :: content.take n))).reader
          phase := .parsing (some level) }, .nothing,
          (session.reader.receive level.physical (.ok (x :: content.take n))).events) := by
      simp only [Session.receive, houtcome]
    rw [act_reading known hphase hon hread, hreceive, hlink]
    refine .bytes ⟨rfl, hpolicy, hrole⟩ rfl hawaits ?_
    rw [hcontent, List.cons_append, List.take_append_drop]

theorem turn_of_live {session : Session} {link : Link} {waiting : Bytes}
    (known : s.sessions[j]? = some session) (on : s.links[i]? = some link) (owns : session.Owns i)
    (sound : link.incoming.broken = none)
    (phase : (∃ level, session.phase = .parsing level) ∨
      ((∃ level, session.phase = .reading level) ∧ Mbap.first? waiting = none))
    (awaits : Mbap.Awaits session.reader waiting) :
    s.Turn i j session link waiting (s.act (.step (.session j))) := by
  rcases phase with ⟨level, hphase⟩ | ⟨⟨level, hphase⟩, first⟩
  · exact turn_of_parsing link known owns hphase awaits
  · exact turn_of_reading known on owns sound hphase first awaits

theorem spoken_of_carryOut {u : Station σ ρ} {a : Action σ ρ} {step : Session × Demand × List Event}
    (hact : s.act a = u.carryOut j step) (hworker : u.worker = s.worker) (owns : step.1.Owns i) :
    s.spoken i a = if s.stopped then [] else step.2.1.messages step.1 := by
  have hoffers : s.Offers (s.act a) (step.2.1.messages step.1) := by
    have h := u.offers_carryOut j step
    rwa [Offers, Station.stopped, hworker, ← hact] at h
  apply spoken_of_offers hoffers
  intro m hm
  rw [link?_messages _ hm, owns.link]

theorem intake_turn {session : Session} {link : Link} {frames : List Frame} {waiting : Bytes}
    (known : s.sessions[j]? = some session) (on : s.links[i]? = some link) (owns : session.Owns i)
    (sound : link.incoming.broken = none)
    (phase : (∃ level, session.phase = .parsing level) ∨
      ((∃ level, session.phase = .reading level) ∧ Mbap.first? waiting = none))
    (awaits : Mbap.Awaits session.reader waiting)
    (consumes : Mbap.Consumes frames arrived (waiting ++ link.incoming.content)) :
    (s.act (.step (.session j))).Intake i j arrived
      (frames.map (.request i) ++ s.spoken i (.step (.session j))) := by
  have hturn := turn_of_live known on owns sound phase awaits
  have hset : ∀ after : Link, (s.setLink i after).links[i]? = some after := by
    intro after
    obtain ⟨hi, -⟩ := Array.getElem?_eq_some_iff.mp on
    exact Array.getElem?_setIfInBounds_self_of_lt hi
  generalize hact : s.act (.step (.session j)) = t at hturn ⊢
  cases hturn with
  | @frame after level frame left events before owns phase awaits first =>
    rw [spoken_of_carryOut hact rfl owns]
    dsimp only [Demand.messages]
    rw [owns.link]
    exact intake_carryOut_submit events known on owns sound ⟨none, phase⟩ awaits first consumes
  | @fault after fault behind events owns first =>
    rw [spoken_of_carryOut hact rfl owns]
    dsimp only [Demand.messages]
    rw [farewell_of_owns owns]
    exact intake_carryOut_leave events known on owns
      (.badFrame (Mbap.first?_append first link.incoming.content)) consumes
  | @waits after level next events before owns phase awaits first =>
    rw [spoken_of_carryOut hact rfl owns]
    dsimp only [Demand.messages]
    rw [ite_self, List.append_nil]
    exact .live (sessions_setSession (s := s.note events) _ known) on owns sound
      (.inr ⟨⟨next, phase⟩, first⟩) awaits consumes rfl
  | idle first empty unfinished =>
    rw [spoken, queued, hact, List.drop_length, List.filter_nil, List.append_nil]
    exact .live known on owns sound phase awaits consumes rfl
  | @finished after events owns first empty ended =>
    rw [spoken_of_carryOut hact rfl owns]
    dsimp only [Demand.messages]
    rw [empty, List.append_nil] at consumes
    rw [farewell_of_owns owns]
    exact intake_carryOut_leave (s := s.setLink i link) events known (hset link) owns
      (.finished first ended) consumes
  | @bytes after level x bytes content events owns phase awaits split =>
    rw [spoken_of_carryOut hact rfl owns]
    dsimp only [Demand.messages]
    rw [ite_self, List.append_nil]
    rw [split, ← List.append_assoc] at consumes
    exact .live (sessions_setSession (s := (s.setLink i _).note events) _ known) (hset _) owns
      sound (.inl ⟨_, phase⟩) awaits consumes rfl

theorem intake_departing {session : Session} {link : Link} {frames : List Frame}
    {fault : RequestFault} {rest : Bytes} {stage : ShutdownStage}
    (known : s.sessions[j]? = some session) (on : s.links[i]? = some link) (owns : session.Owns i)
    (hphase : session.phase = .departing fault stage) (ends : s.Ends link rest fault)
    (consumes : Mbap.Consumes frames arrived rest) (hs : s.stopped = true) :
    (s.act (.step (.session j))).Intake i j arrived (frames.map (.request i)) := by
  have hon : s.links[session.link]? = some link := by rw [owns.link, on]
  obtain ⟨hi, -⟩ := Array.getElem?_eq_some_iff.mp on
  cases hstage : stage.step? (.session j) link with
  | none =>
    have hsame : s.act (.step (.session j)) = s := by
      simp [act, partStep?, sessionStep?, known, hphase, hon, hstage]
    rw [hsame]
    refine .gone known on owns ?_ ends consumes (.inr ⟨hs, rfl⟩)
    rw [Session.fault?, hphase]
  | some result =>
    obtain ⟨after, next⟩ := result
    have hfollows := follows_of_shutdownStep hstage
    obtain ⟨phase, hfault, hact⟩ := act_departing known hphase hon hstage
    rw [hact, owns.link]
    refine .gone (sessions_setSession (s := s.setLink i after) _ known)
      (Array.getElem?_setIfInBounds_self_of_lt hi) ⟨rfl, owns.policy, owns.role⟩ hfault ?_
        consumes (.inr ⟨hs, rfl⟩)
    cases ends with
    | shutdown told => exact .shutdown (.inr hs)
    | badFrame first => exact .badFrame first
    | finished first ended => exact .finished first (hfollows.finished ended)

theorem intake_session (h : s.Intake i j arrived said) :
    (s.act (.step (.session j))).Intake i j arrived
      (said ++ s.spoken i (.step (.session j))) := by
  cases h with
  | live known on owns sound phase awaits consumes said_eq =>
    rw [said_eq]
    exact intake_turn known on owns sound phase awaits consumes
  | @gone session link frames fault rest known on owns fault?_eq ends consumes said_eq =>
    cases hphase : session.phase with
    | parsing level => simp [Session.fault?, hphase] at fault?_eq
    | reading level => simp [Session.fault?, hphase] at fault?_eq
    | «over» fault' =>
      have hsame : s.act (.step (.session j)) = s := by
        simp [act, partStep?, sessionStep?, known, hphase]
      rw [spoken, queued, hsame, List.drop_length, List.filter_nil, List.append_nil]
      exact .gone known on owns fault?_eq ends consumes said_eq
    | departing fault' stage =>
      have hfault : fault' = fault := by simpa [Session.fault?, hphase] using fault?_eq
      subst hfault
      obtain ⟨hover, -⟩ | ⟨hs, hsaid⟩ := said_eq
      · rw [hphase] at hover
        cases hover
      · have hspoken : s.spoken i (.step (.session j)) = [] := by
          have hnot : Action.step (.session j) ≠ (.step .worker : Action σ ρ) := by
            intro heq
            cases heq
          obtain ⟨messages, hoffers, -⟩ := s.offers_act hnot
          rw [spoken, hoffers.queued, hs, if_pos rfl, List.filter_nil]
        rw [hspoken, List.append_nil, hsaid]
        exact intake_departing known on owns hphase ends consumes hs

theorem follows_of_writeStep {write : Write} {party : Party} {link : Link} {step : WriteStep}
    (h : write.step? party s.now link = some step) : link.Follows step.link := by
  unfold Write.step? at h
  split at h
  · split at h <;> cases h <;> exact ⟨rfl, rfl, id, id⟩
  · split at h
    · split at h <;> cases h <;> exact ⟨rfl, rfl, id, id⟩
    · cases h
  · split at h
    · cases h
      exact ⟨rfl, rfl, id, id⟩
    · cases h
  · cases h
    exact ⟨rfl, rfl, id, id⟩
  · split at h
    · cases h
    · cases h
      exact ⟨rfl, rfl, id, id⟩
    · cases h
      exact ⟨rfl, rfl, id, id⟩

/-- The worker reads from no link and opens none again. -/
theorem follows_of_move (h : s.WorkerMove t) : s.Becomes i Link.Follows t :=
  becomes_of_move Link.Follows.holds h fun _ => follows_of_writeStep

theorem sessions_of_move (h : s.WorkerMove t) : t.sessions = s.sessions := by
  cases h with
  | take idle waiting taken => exact (frame_of_takeMessage? taken).2.1
  | @write write deadline link step job known hstep =>
    unfold afterWrite
    split
    · rfl
    · rfl
    · dsimp only [writeFailed]
      split <;> rfl
  | giveUpWrite job =>
    dsimp only [Station.giveUpWrite, writeFailed]
    split <;> rfl
  | @release k deadline stage link after next job known hstep =>
    cases next <;> rfl
  | giveUpRelease job => rfl

theorem stopped_act (a : Action σ ρ) (h : s.stopped = true) : (s.act a).stopped = true := by
  obtain hkeeps | ⟨message, queue, htakes⟩ := s.keeps_or_takes a
  · rw [hkeeps.stopped, h]
  · have hidle := htakes.idle
    simp [stopped, hidle] at h

theorem act_arrive_fed (s : Station σ ρ) (i : Nat) (bytes : Bytes) :
    (s.act (.arrive i bytes) = s ∧ s.fed i (.arrive i bytes) = []) ∨
      ∃ link, s.links[i]? = some link ∧ link.incoming.closed = false ∧
        s.act (.arrive i bytes) = s.setLink i { link with
          incoming := { link.incoming with
            content := link.incoming.content ++ s.fed i (.arrive i bytes) } } := by
  rw [fed, if_pos rfl, act]
  cases harrive : s.arrive? i bytes with
  | none => exact .inl ⟨rfl, rfl⟩
  | some result =>
    cases result with
    | error kind => exact .inl ⟨rfl, rfl⟩
    | ok pair =>
      obtain ⟨after, n⟩ := pair
      obtain ⟨link, incoming, rest, hlink, hwrite, rfl, rfl⟩ := arrive?_eq_ok harrive
      obtain ⟨hopen, rfl, rfl⟩ := Pipe.write?_eq_ok hwrite
      have htaken : bytes.take (bytes.length - (bytes.drop link.incoming.room).length) =
          bytes.take link.incoming.room := by
        rw [List.take_eq_take_iff, List.length_drop]
        omega
      refine .inr ⟨link, hlink, hopen, ?_⟩
      dsimp only
      rw [htaken]

theorem intake_arrive (h : s.Intake i j arrived said) (bytes : Bytes) :
    (s.act (.arrive i bytes)).Intake i j (arrived ++ s.fed i (.arrive i bytes)) said := by
  rcases s.act_arrive_fed i bytes with ⟨hact, hfed⟩ | ⟨link, hlink, hopen, hact⟩
  · rw [hact, hfed, List.append_nil]
    exact h
  · rw [hact]
    exact h.arrive hlink hopen rfl rfl

theorem fed_eq_nil {a : Action σ ρ} (h : ∀ bytes, a ≠ .arrive i bytes) : s.fed i a = [] := by
  cases a with
  | arrive k bytes =>
    rw [fed, if_neg]
    rintro rfl
    exact h bytes rfl
  | _ => rfl

theorem session_act {a : Action σ ρ} {session : Session} (hapart : s.Apart i j) (ha : a.Spares i)
    (hstep : a ≠ .step (.session j)) (hstop : a ≠ .sessionStop j)
    (known : s.sessions[j]? = some session) : (s.act a).sessions[j]? = some session := by
  by_cases hconcerns : a.Concerns i j
  · cases a with
    | arrive k bytes =>
      rcases s.act_arrive k bytes with hact | ⟨link, incoming, rest, -, -, hact⟩
      · rw [hact, known]
      · rw [hact]
        exact known
    | collect k count =>
      rcases s.act_collect k count with hact | ⟨link, outgoing, got, -, -, hact⟩
      · rw [hact, known]
      · rw [hact]
        exact known
    | finish k => exact known
    | deafen k => exact known
    | sessionStop k =>
      obtain rfl : k = j := hconcerns
      exact absurd rfl hstop
    | step part =>
      cases part with
      | session k =>
        obtain rfl : k = j := hconcerns
        exact absurd rfl hstep
      | worker =>
        obtain ⟨-, hsame⟩ | hmove := s.act_worker
        · rw [hsame, known]
        · rw [sessions_of_move hmove, known]
      | _ => exact hconcerns.elim
    | _ => exact hconcerns.elim
  · exact (leaves_act hapart ha hconcerns).session session known

/-- Nobody but the session reads from its link. -/
theorem follows_act {a : Action σ ρ} (hapart : s.Apart i j) (ha : a.Spares i)
    (hstep : a ≠ .step (.session j)) (hstop : a ≠ .sessionStop j) (hfed : s.fed i a = []) :
    s.Becomes i Link.Follows (s.act a) := by
  have same : s.Becomes i Link.Follows s := becomes_of_eq Link.Follows.refl rfl
  by_cases hconcerns : a.Concerns i j
  · cases a with
    | arrive k bytes =>
      obtain rfl : k = i := hconcerns
      rcases s.act_arrive_fed k bytes with ⟨hact, -⟩ | ⟨link, hlink, -, hact⟩
      · rwa [hact]
      · rw [hact, hfed, List.append_nil]
        exact becomes_setLink Link.Follows.refl hlink (.refl link)
    | collect k count =>
      rcases s.act_collect k count with hact | ⟨link, outgoing, got, hlink, -, hact⟩
      · rwa [hact]
      · rw [hact]
        exact becomes_setLink Link.Follows.refl hlink ⟨rfl, rfl, id, id⟩
    | finish k =>
      exact becomes_modifyLink Link.Follows.refl s fun link => ⟨rfl, rfl, fun _ => rfl, id⟩
    | deafen k =>
      exact becomes_modifyLink Link.Follows.refl s fun link => ⟨rfl, rfl, id, id⟩
    | sessionStop k =>
      obtain rfl : k = j := hconcerns
      exact absurd rfl hstop
    | step part =>
      cases part with
      | session k =>
        obtain rfl : k = j := hconcerns
        exact absurd rfl hstep
      | worker =>
        obtain ⟨-, hsame⟩ | hmove := s.act_worker
        · rwa [hsame]
        · exact follows_of_move hmove
      | _ => exact hconcerns.elim
    | _ => exact hconcerns.elim
  · exact (leaves_act hapart ha hconcerns).becomes Link.follows_closed

/-- Whatever happens, the intake goes on with what has arrived and what has been said. -/
theorem intake_act {a : Action σ ρ} (h : s.Intake i j arrived said) (hapart : s.Apart i j)
    (ha : a.Spares i) :
    (s.act a).Intake i j (arrived ++ s.fed i a) (said ++ s.spoken i a) := by
  by_cases hstep : a = .step (.session j)
  · subst hstep
    have hfed : s.fed i (.step (.session j)) = [] := rfl
    rw [hfed, List.append_nil]
    exact intake_session h
  by_cases hstop : a = .sessionStop j
  · subst hstop
    have hfed : s.fed i (.sessionStop j) = [] := rfl
    rw [hfed, List.append_nil]
    exact intake_sessionStop h
  rw [spoken_eq_nil hapart ha hstep hstop, List.append_nil]
  by_cases harrive : ∃ bytes, a = .arrive i bytes
  · obtain ⟨bytes, rfl⟩ := harrive
    exact intake_arrive h bytes
  · have hfed : s.fed i a = [] := fed_eq_nil fun bytes ha => harrive ⟨bytes, ha⟩
    rw [hfed, List.append_nil]
    apply h.mono
    · intro session
      exact session_act hapart ha hstep hstop
    · exact follows_act hapart ha hstep hstop hfed
    · exact stopped_act a

theorem apart_run {actions : List (Action σ ρ)} (h : s.Apart i j)
    (hactions : ∀ a ∈ actions, a.Spares i) (hi : i < s.links.size) : (s.run actions).Apart i j := by
  induction actions generalizing s with
  | nil => exact h
  | cons a rest ih =>
    have hnext := apart_act h (hactions a List.mem_cons_self) (.inr hi)
    exact ih hnext (fun b hb => hactions b (List.mem_cons_of_mem a hb))
      (Nat.lt_of_lt_of_le hi (s.size_links_act a))

theorem intake_run {actions : List (Action σ ρ)} (h : s.Intake i j arrived said)
    (hapart : s.Apart i j) (hactions : ∀ a ∈ actions, a.Spares i) (hi : i < s.links.size) :
    (s.run actions).Intake i j (arrived ++ s.along (fed i) actions)
      (said ++ s.along (spoken i) actions) := by
  induction actions generalizing s arrived said with
  | nil =>
    rw [along, along, List.append_nil, List.append_nil]
    exact h
  | cons a rest ih =>
    have ha := hactions a List.mem_cons_self
    have hnext := intake_act h hapart ha
    have hrest := ih hnext (apart_act hapart ha (.inr hi))
      (fun b hb => hactions b (List.mem_cons_of_mem a hb))
      (Nat.lt_of_lt_of_le hi (s.size_links_act a))
    rw [along, along, ← List.append_assoc, ← List.append_assoc]
    exact hrest

end Station

end ModbusSlave
