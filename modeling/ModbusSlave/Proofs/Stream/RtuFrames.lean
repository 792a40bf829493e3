import ModbusSlave.Proofs.Stream.RtuReading

/-!
# Serial frames on the wire and back

A request is read back however the line cuts it, since its own bytes tell its length. Any other
frame is read back when all of it comes at once, since its length is then the length of what is
there. In the other direction nothing depends on how the bytes come: whatever a reader returns
encodes to the very bytes it was read from.
-/
namespace ModbusSlave.Rtu

/-- A frame whose own bytes tell its length, as those of the requests on a serial line do. -/
inductive SelfSized (frame : Frame) : Prop
  | fixed (framing : frame.framing = .rtu) (code : frame.function ∈ fixedCodes)
      (length : frame.data.length = 4)
  | counted {n : UInt8} (framing : frame.framing = .rtu) (code : frame.function ∈ countedCodes)
      (count : frame.data[4]? = some n) (length : frame.data.length = 5 + n.toNat)
      (short : frame.data.length ≤ 252)

/-- A frame of another kind that is not too long. -/
structure Custom (frame : Frame) : Prop where
  framing : frame.framing = .rtu
  not_fixed : frame.function ∉ fixedCodes
  not_counted : frame.function ∉ countedCodes
  short : frame.data.length ≤ 252

/-- A frame that a serial line takes for a request. -/
inductive Shaped (frame : Frame) : Prop
  | standard (own : SelfSized frame)
  | custom (other : Custom frame)

theorem SelfSized.framing {frame : Frame} (h : SelfSized frame) : frame.framing = .rtu := by
  cases h with
  | fixed framing => exact framing
  | counted framing => exact framing

theorem SelfSized.short {frame : Frame} (h : SelfSized frame) : frame.data.length ≤ 252 := by
  cases h with
  | fixed framing code length => omega
  | counted framing code count length short => exact short

theorem Shaped.framing {frame : Frame} (h : Shaped frame) : frame.framing = .rtu := by
  cases h with
  | standard own => exact own.framing
  | custom other => exact other.framing

theorem Shaped.short {frame : Frame} (h : Shaped frame) : frame.data.length ≤ 252 := by
  cases h with
  | standard own => exact own.short
  | custom other => exact other.short

/-- A reader at the start of a frame, with nothing taken in. -/
structure Idle (r : Reader) : Prop where
  parser : r.parser = .rtu .start
  contents : r.buffer.contents = []
  capacity : r.buffer.capacity = maxFrame

theorem idle_ofParser : Idle (.ofParser (.rtu .start)) where
  parser := rfl
  contents := ReadBuffer.contents_ofCapacity _
  capacity := ReadBuffer.capacity_ofCapacity _

theorem Idle.awaits {r : Reader} (h : Idle r) : Awaits r [] := by
  refine ⟨.start, h.parser, .start, ?_, h.capacity⟩
  rw [pending, State.consumed, List.nil_append, h.contents]

theorem idle_of_awaits {r : Reader} (h : Awaits r []) : Idle r := by
  obtain ⟨state, hparser, -, hpending, hcapacity⟩ := h
  obtain ⟨hconsumed, hcontents⟩ := List.append_eq_nil_iff.mp hpending
  cases state with
  | start => exact ⟨hparser, hcontents, hcapacity⟩
  | body unit count => cases hconsumed
  | count unit count => cases hconsumed

theorem Idle.parse {r : Reader} (h : Idle r) (level : FrameLevel) :
    r.parser.parse r.buffer level = ⟨.ok none, r.parser, r.buffer, []⟩ := by
  have hempty : r.buffer.length < 2 := by
    rw [← ReadBuffer.length_contents, h.contents]
    decide
  rw [h.parser, Parser.parse, Rtu.parse, readUnit, if_pos hempty]
  rfl

/-- The bytes of a frame with any word in the place of its checksum. -/
def sealed (frame : Frame) (received : UInt16) : Bytes :=
  frame.unit.value :: frame.function :: (frame.data ++ Word.little received)

/-- What these bytes are taken for. -/
def judged (frame : Frame) (received : UInt16) : Except FrameFault Frame :=
  judge frame.unit frame.function frame.data received

@[simp] theorem length_sealed (frame : Frame) (received : UInt16) :
    (sealed frame received).length = frame.data.length + 4 := by
  simp [sealed, Word.little]

theorem encode_eq {frame : Frame} (h : frame.framing = .rtu) :
    frame.encode = sealed frame frame.checksum := by
  rw [Frame.encode, h]
  rfl

theorem judged_checksum {frame : Frame} (h : frame.framing = .rtu) :
    judged frame frame.checksum = .ok frame := by
  obtain ⟨framing, unit, function, data⟩ := frame
  cases h
  exact if_pos rfl

theorem judged_of_ne {frame : Frame} {received : UInt16} (h : received ≠ frame.checksum) :
    judged frame received = .error (.checksumMismatch received frame.checksum) :=
  if_neg h

theorem body?_sealed (frame : Frame) (received : UInt16) (rest : Bytes) :
    body? frame.unit frame.data.length
        (frame.function :: (frame.data ++ Word.little received ++ rest)) =
      some (judged frame received, rest) := by
  have hjudge : judged frame received = judge frame.unit frame.function frame.data
      (Word.join (Word.high received) (Word.low received)) := by
    rw [judged, Word.join_high_low]
  rw [List.append_assoc, hjudge]
  exact body?_append frame.data (Word.low received) (Word.high received)

/-- A frame that tells its length is judged first, whatever comes behind it. -/
theorem first?_sealed {frame : Frame} (h : SelfSized frame) (received : UInt16) (rest : Bytes) :
    first? (sealed frame received ++ rest) = some (judged frame received, rest) := by
  cases h with
  | fixed framing code length =>
    rw [sealed, List.cons_append, List.cons_append, first?_of_fixed frame.unit code, ← length]
    exact body?_sealed frame received rest
  | @counted n framing code count length short =>
    have hindex : 4 < frame.data.length := by omega
    have hcount : (frame.data ++ Word.little received ++ rest)[4]? = some n := by
      rw [List.append_assoc, List.getElem?_append_left hindex, count]
    rw [sealed, List.cons_append, List.cons_append, first?_of_counted frame.unit code hcount,
      if_neg (by omega), ← length]
    exact body?_sealed frame received rest

theorem first?_encode {frame : Frame} (h : SelfSized frame) (rest : Bytes) :
    first? (frame.encode ++ rest) = some (.ok frame, rest) := by
  rw [encode_eq h.framing, first?_sealed h, judged_checksum h.framing]

/-- A frame that tells its length is read back from any pieces of its encoding. -/
theorem Idle.nextFrame_encode {r : Reader} (h : Idle r) {frame : Frame} (hframe : SelfSized frame)
    (level : DecodeLevel) {script : Script} (hsolid : script.Solid)
    (hcontent : script.content = frame.encode) :
    (r.nextFrame level script).outcome = .ok frame ∧ Idle (r.nextFrame level script).reader ∧
      (r.nextFrame level script).script = [] := by
  have hencode := first?_encode hframe []
  rw [List.append_nil] at hencode
  cases tracks.nexts h.awaits level script with
  | @result result left outcome awaits first length solid =>
    rw [List.nil_append, hcontent] at first
    obtain ⟨rfl, hrest⟩ := Prod.mk.inj (Option.some.inj (first.symm.trans hencode))
    obtain ⟨rfl, hscript⟩ := List.append_eq_nil_iff.mp hrest
    exact ⟨outcome, idle_of_awaits awaits, (solid hsolid).eq_nil hscript⟩
  | io outcome awaits same first shorter ended =>
    obtain ⟨-, hend⟩ := ended hsolid
    rw [hend, Script.content, List.append_nil, List.nil_append, hcontent] at same
    have hnone : first? frame.encode = none := same ▸ first
    cases hencode.symm.trans hnone
  | foreign hforeign =>
    rw [List.nil_append, hcontent] at hforeign
    cases hencode.symm.trans (first?_of_foreign hforeign)

theorem SelfSized.parse_sealed {frame : Frame} (h : SelfSized frame) {received : UInt16}
    {b : ReadBuffer} (hcontents : b.contents = sealed frame received) :
    ∃ after unit?, parse .start b =
        (((judged frame received).map some).mapError .badFrame, .start, after, unit?) ∧
      after.contents = [] ∧ after.capacity = b.capacity := by
  have hfirst := first?_sealed h received []
  rw [List.append_nil, ← hcontents] at hfirst
  have hknown : ¬ Foreign b.contents := by
    intro hforeign
    rw [first?_of_foreign hforeign] at hfirst
    cases hfirst
  have hparses := parses_start b hknown
  generalize parse .start b = parsed at hparses
  obtain ⟨outcome, state, after, unit?⟩ := parsed
  dsimp only at hparses
  cases hparses with
  | @result result after first keeps =>
    rw [hfirst] at first
    obtain ⟨rfl, hafter⟩ := Prod.mk.inj (Option.some.inj first)
    exact ⟨after, unit?, rfl, hafter.symm, keeps⟩
  | waits fits same first =>
    rw [hfirst] at first
    cases first

theorem Custom.parse_sealed {frame : Frame} (h : Custom frame) {received : UInt16}
    {b : ReadBuffer} (hcontents : b.contents = sealed frame received) :
    ∃ after unit?, parse .start b =
        (((judged frame received).map some).mapError .badFrame, .start, after, unit?) ∧
      after.contents = [] ∧ after.capacity = b.capacity := by
  have hlength : b.length = frame.data.length + 4 := by
    rw [← ReadBuffer.length_contents, hcontents, length_sealed]
  have hlayout := layout_of_none (ofCode?_eq_none_iff.mpr ⟨h.not_fixed, h.not_counted⟩)
  obtain ⟨behind, hread, hbehind, hcapacity⟩ := readUnit_of_ready hcontents fun _ => by
    rw [minFrame]
    omega
  have hcount : behind.length - 1 - 2 = frame.data.length := by
    have hlong := congrArg List.length hbehind
    rw [ReadBuffer.length_contents] at hlong
    simp only [Word.little, List.length_cons, List.length_append, List.length_nil] at hlong
    omega
  obtain ⟨after, hparse, hafter, hkept⟩ := parseBody_append frame.unit hbehind h.short
  rw [Word.join_high_low] at hparse
  refine ⟨after, some frame.unit, ?_, hafter, hkept.trans hcapacity⟩
  rw [parse, hread, hlayout]
  dsimp only
  rw [parseLayout, hcount, hparse]
  rfl

theorem Shaped.parse_sealed {frame : Frame} (h : Shaped frame) {received : UInt16}
    {b : ReadBuffer} (hcontents : b.contents = sealed frame received) :
    ∃ after unit?, parse .start b =
        (((judged frame received).map some).mapError .badFrame, .start, after, unit?) ∧
      after.contents = [] ∧ after.capacity = b.capacity := by
  cases h with
  | standard own => exact own.parse_sealed hcontents
  | custom other => exact other.parse_sealed hcontents

/-- A frame that comes in one piece is judged at once, whatever comes behind it. -/
theorem Idle.nextFrame_sealed {r : Reader} (h : Idle r) {frame : Frame} (hframe : Shaped frame)
    (received : UInt16) (level : DecodeLevel) (later : Script) :
    let next := r.nextFrame level (.bytes (sealed frame received) :: later)
    next.outcome = (judged frame received).mapError .badFrame ∧ Idle next.reader ∧
      next.script = later := by
  have hroom : (sealed frame received).length ≤ r.room := by
    have hshort := hframe.short
    rw [Reader.room, r.buffer.room_prepare_of_empty h.contents, h.capacity, length_sealed,
      maxFrame, Frame.maxPdu]
    omega
  have hread : Script.read r.room (.bytes (sealed frame received) :: later) =
      (.ok (sealed frame received), later) :=
    if_pos hroom
  obtain ⟨bytes, hbytes⟩ : ∃ bytes, sealed frame received = frame.unit.value :: bytes := ⟨_, rfl⟩
  have hfits : bytes.length < r.room := by
    rw [hbytes] at hroom
    exact hroom
  have hcontents := Reader.contents_receive (x := frame.unit.value) level.physical hfits
  have hcapacity := r.capacity_receive level.physical frame.unit.value bytes
  rw [← hbytes, h.contents, List.nil_append] at hcontents
  rw [← hbytes, h.capacity] at hcapacity
  obtain ⟨after, unit?, hparse, hafter, hkept⟩ := hframe.parse_sealed hcontents
  have hagain : (r.receive level.physical (.ok (sealed frame received))).reader.parser =
      .rtu .start :=
    h.parser
  have houtcome : (r.receive level.physical (.ok (sealed frame received))).outcome =
      .ok (bytes.length + 1) := by
    rw [hbytes]
    rfl
  have hidle : Idle ⟨.rtu .start, after⟩ := ⟨rfl, hafter, hkept.trans hcapacity⟩
  rw [Reader.nextFrame_eq, h.parse]
  dsimp only
  rw [hread]
  dsimp only
  rw [houtcome]
  dsimp only
  rw [Reader.nextFrame_eq, hagain, Parser.parse, hparse]
  cases judged frame received with
  | ok found => exact ⟨rfl, hidle, rfl⟩
  | error fault => exact ⟨rfl, hidle, rfl⟩

theorem Idle.nextFrame_whole {r : Reader} (h : Idle r) {frame : Frame} (hframe : Shaped frame)
    (level : DecodeLevel) (later : Script) :
    let next := r.nextFrame level (.bytes frame.encode :: later)
    next.outcome = .ok frame ∧ Idle next.reader ∧ next.script = later := by
  have hnext := h.nextFrame_sealed hframe frame.checksum level later
  rwa [← encode_eq hframe.framing, judged_checksum hframe.framing] at hnext

theorem Idle.nextFrame_custom {r : Reader} (h : Idle r) {frame : Frame} (hframe : Custom frame)
    (level : DecodeLevel) (later : Script) :
    let next := r.nextFrame level (.bytes frame.encode :: later)
    next.outcome = .ok frame ∧ Idle next.reader ∧ next.script = later :=
  h.nextFrame_whole (.custom hframe) level later

theorem Idle.transcript_whole {r : Reader} (h : Idle r) {frames : List Frame}
    (hframes : ∀ frame ∈ frames, Shaped frame) (level : DecodeLevel) (recovery : Recovery)
    (more : Nat) :
    (r.transcript (frames.length + 1 + more) level recovery
        (frames.map fun frame => .bytes frame.encode)).map (·.outcome) =
      frames.map .ok ++ [.error (.io .unexpectedEof)] := by
  induction frames generalizing r with
  | nil =>
    have hlimit : ([] : List Frame).length + 1 + more = more + 1 := by
      rw [List.length_nil]
      omega
    have hnext : (r.nextFrame level []).outcome = .error (.io .unexpectedEof) ∧
        (r.nextFrame level []).script = [] := by
      rw [Reader.nextFrame_eq, h.parse]
      exact ⟨rfl, rfl⟩
    rw [hlimit, List.map_nil, Reader.transcript_of_end hnext.1 hnext.2]
    rfl
  | cons frame frames ih =>
    obtain ⟨houtcome, hidle, hscript⟩ := h.nextFrame_whole (hframes frame List.mem_cons_self) level
      (frames.map fun frame => .bytes frame.encode)
    have hlater := ih hidle fun f hf => hframes f (List.mem_cons_of_mem _ hf)
    have hlimit : (frame :: frames).length + 1 + more = frames.length + 1 + more + 1 := by
      rw [List.length_cons]
      omega
    rw [hlimit, List.map_cons, Reader.transcript_of_frame houtcome, hscript, List.map_cons, hlater]
    rfl

/-- What an outcome takes up of a stream, and the bytes behind it: a frame its own encoding, a frame
that would be too long its unit, a frame with another checksum all of its bytes. An error of the
stream takes up nothing. -/
inductive Consumes : Bytes → Except RequestFault Frame → Bytes → Prop
  | frame {frame : Frame} {rest : Bytes} (framing : frame.framing = .rtu)
      (short : frame.data.length ≤ 252) : Consumes (frame.encode ++ rest) (.ok frame) rest
  | long {unit : UInt8} {count : Nat} {rest : Bytes} (long : 253 < count) :
      Consumes (unit :: rest) (.error (.badFrame (.frameTooLong count 253))) rest
  | mismatch {frame : Frame} {received : UInt16} {rest : Bytes} (short : frame.data.length ≤ 252)
      (differs : received ≠ frame.checksum) :
      Consumes (frame.unit.value :: frame.pdu ++ (Word.little received ++ rest))
        (.error (.badFrame (.checksumMismatch received frame.checksum))) rest
  | io {kind : IoKind} {rest : Bytes} : Consumes rest (.error (.io kind)) rest

theorem Consumes.append {stream rest : Bytes} {outcome : Except RequestFault Frame}
    (h : Consumes stream outcome rest) (more : Bytes) :
    Consumes (stream ++ more) outcome (rest ++ more) := by
  cases h with
  | frame framing short =>
    rw [List.append_assoc]
    exact .frame framing short
  | long long => exact .long long
  | mismatch short differs =>
    rw [List.append_assoc, List.append_assoc]
    exact .mismatch short differs
  | io => exact .io

theorem consumes_judge (unit : UnitId) (code : UInt8) {data : Bytes} (low high : UInt8)
    (rest : Bytes) (hshort : data.length ≤ 252) :
    Consumes (unit.value :: code :: (data ++ low :: high :: rest))
      ((judge unit code data (Word.join high low)).mapError .badFrame) rest := by
  have hlittle : low :: high :: rest = Word.little (Word.join high low) ++ rest := by
    rw [Word.little, Word.low_join, Word.high_join]
    rfl
  rw [judge, hlittle]
  split_ifs with hreceived
  · have hframe : Consumes ((⟨.rtu, unit, code, data⟩ : Frame).encode ++ rest)
        (.ok ⟨.rtu, unit, code, data⟩) rest := .frame rfl hshort
    rw [encode_eq rfl, sealed, Frame.checksum, Frame.pdu, ← hreceived, List.cons_append,
      List.cons_append, List.append_assoc] at hframe
    exact hframe
  · exact @Consumes.mismatch ⟨.rtu, unit, code, data⟩ _ rest hshort hreceived

/-- What a parser may answer to a stream at all, whatever it remembers: it waits and keeps the
stream, or it is back at the start. -/
inductive Answers (stream : Bytes) : Except RequestFault (Option Frame) → State → ReadBuffer → Prop
  | waits {state : State} {b : ReadBuffer} (same : pending state b = stream) :
      Answers stream (.ok none) state b
  | takes {outcome : Except RequestFault Frame} {b : ReadBuffer}
      (consumes : Consumes stream outcome b.contents) :
      Answers stream (outcome.map some) .start b

theorem answers_parseBody (unit : UnitId) (count : Nat) (b : ReadBuffer) :
    Answers (unit.value :: b.contents) (parseBody unit count b).1 (parseBody unit count b).2.1
      (parseBody unit count b).2.2 := by
  by_cases hlong : Frame.maxPdu < 1 + count
  · rw [parseBody, if_pos hlong]
    exact .takes (.long hlong)
  have hshort : count ≤ 252 := by
    rw [Frame.maxPdu] at hlong
    omega
  cases hbody : body? unit count b.contents with
  | none =>
    have hlength := length_of_body?_none hbody
    rw [ReadBuffer.length_contents] at hlength
    rw [parseBody, if_neg hlong, if_pos (by omega)]
    exact .waits rfl
  | some found =>
    obtain ⟨result, rest⟩ := found
    obtain ⟨code, data, low, high, hcontents, rfl, rfl⟩ := body?_eq_some hbody
    obtain ⟨after, hparse, rfl, -⟩ := parseBody_append unit hcontents hshort
    have hconsumes := consumes_judge unit code low high after.contents hshort
    rw [hparse, hcontents]
    cases hresult : judge unit code data (Word.join high low) with
    | ok frame =>
      rw [hresult] at hconsumes
      exact .takes hconsumes
    | error fault =>
      rw [hresult] at hconsumes
      exact .takes hconsumes

theorem answers_parseCount (unit : UnitId) (count : Nat) (b : ReadBuffer) :
    Answers (unit.value :: b.contents) (parseCount unit count b).1 (parseCount unit count b).2.1
      (parseCount unit count b).2.2 := by
  by_cases hshort : b.length < 1 + count
  · rw [parseCount, if_pos hshort]
    exact .waits rfl
  have hindex : 1 + count - 1 < b.contents.length := by
    rw [ReadBuffer.length_contents]
    omega
  have hpeek := b.peek_eq_ok (List.getElem?_eq_getElem hindex)
  rw [parseCount, if_neg hshort, hpeek]
  exact answers_parseBody unit _ b

theorem readUnit_cases (b : ReadBuffer) :
    (readUnit b = (.ok none, b) ∧ b.length < minFrame) ∨
      ∃ code unit after, readUnit b = (.ok (some (Layout.ofCode code, unit)), after) ∧
        unit.value :: after.contents = b.contents ∧ after.capacity = b.capacity := by
  match hc : b.contents with
  | [] | [_] =>
    have hshort : b.length < 2 := by
      rw [← ReadBuffer.length_contents, hc]
      simp
    exact .inl ⟨if_pos hshort, Nat.lt_trans hshort (by decide)⟩
  | unit :: code :: rest =>
    by_cases hready : Layout.ofCode code = .unbounded → minFrame ≤ b.length
    · obtain ⟨after, hread, hafter, hcapacity⟩ := readUnit_of_ready hc hready
      exact .inr ⟨code, ⟨unit⟩, after, hread, congrArg (unit :: ·) hafter, hcapacity⟩
    · obtain ⟨hunbounded, hshort⟩ := Classical.not_imp.mp hready
      have hlength : ¬ b.length < 2 := by
        rw [← ReadBuffer.length_contents, hc]
        simp
      have hpeek : b.peek 1 = .ok code := by
        apply b.peek_eq_ok
        rw [hc]
        rfl
      refine .inl ⟨?_, Nat.lt_of_not_le hshort⟩
      rw [readUnit, if_neg hlength, hpeek]
      exact if_pos ⟨hunbounded, Nat.lt_of_not_le hshort⟩

theorem answers_parse (state : State) (b : ReadBuffer) :
    Answers (pending state b) (parse state b).1 (parse state b).2.1 (parse state b).2.2.1 := by
  cases state with
  | body unit count => exact answers_parseBody unit count b
  | count unit count => exact answers_parseCount unit count b
  | start =>
    rw [pending, State.consumed, List.nil_append, parse]
    rcases readUnit_cases b with ⟨hwaits, -⟩ | ⟨code, unit, after, hread, hcontents, -⟩
    · rw [hwaits]
      exact .waits rfl
    · rw [hread, ← hcontents]
      dsimp only
      cases Layout.ofCode code with
      | fixed length => exact answers_parseBody unit length after
      | counted length => exact answers_parseCount unit length after
      | unbounded => exact answers_parseBody unit _ after

theorem Answers.of_frame {stream : Bytes} {outcome : Except RequestFault (Option Frame)}
    {state : State} {b : ReadBuffer} {frame : Frame} (h : Answers stream outcome state b)
    (hframe : outcome = .ok (some frame)) :
    state = .start ∧ stream = frame.encode ++ b.contents := by
  cases h with
  | waits => cases hframe
  | @takes outcome _ consumes =>
    cases outcome with
    | error fault => cases hframe
    | ok taken =>
      cases hframe
      cases consumes
      exact ⟨rfl, rfl⟩

/-- A reader that has taken in `waiting` and not used it, whatever it remembers. -/
def Holds (r : Reader) (waiting : Bytes) : Prop :=
  ∃ state : State, r.parser = .rtu state ∧ pending state r.buffer = waiting

theorem holds_ofParser : Holds (.ofParser (.rtu .start)) [] := by
  obtain ⟨state, hparser, -, hpending, -⟩ := awaits_ofParser
  exact ⟨state, hparser, hpending⟩

theorem Holds.reset {r : Reader} {waiting : Bytes} (h : Holds r waiting) : Holds r.reset [] := by
  obtain ⟨state, hparser, -⟩ := h
  refine ⟨.start, ?_, ?_⟩
  · rw [Reader.reset, hparser, Parser.reset]
  · rw [pending, State.consumed, List.nil_append]
    exact r.buffer.contents_clear

theorem Holds.prepare {r : Reader} {waiting : Bytes} (h : Holds r waiting) :
    Holds ⟨r.parser, r.buffer.prepare⟩ waiting := by
  obtain ⟨state, hparser, rfl⟩ := h
  refine ⟨state, hparser, ?_⟩
  rw [pending, ReadBuffer.contents_prepare, pending]

theorem Holds.receive {r : Reader} {waiting : Bytes} (h : Holds r waiting)
    (level : PhysicalLevel) (x : UInt8) {bytes : Bytes} (hroom : bytes.length < r.room) :
    Holds (r.receive level (.ok (x :: bytes))).reader (waiting ++ x :: bytes) := by
  obtain ⟨state, hparser, rfl⟩ := h
  refine ⟨state, hparser, ?_⟩
  rw [pending, Reader.contents_receive level hroom, pending, List.append_assoc]

/-- One call goes on in the stream by what its outcome takes up, wherever the reads of the script
cut it. -/
theorem Holds.nextFrame {r : Reader} {waiting : Bytes} (h : Holds r waiting) (level : DecodeLevel)
    (script : Script) :
    ∃ left, Holds (r.nextFrame level script).reader left ∧
      Consumes (waiting ++ script.content) (r.nextFrame level script).outcome
        (left ++ (r.nextFrame level script).script.content) := by
  -- Each further round takes bytes off the script.
  induction hn : script.content.length using Nat.strongRecOn generalizing r waiting script with
  | ind n ih =>
    obtain ⟨state, hparser, rfl⟩ := h
    have hanswers := answers_parse state r.buffer
    rw [Reader.nextFrame_eq, hparser, Parser.parse]
    generalize parse state r.buffer = parsed at hanswers
    obtain ⟨outcome, after, b, unit?⟩ := parsed
    dsimp only at hanswers ⊢
    cases hanswers with
    | @takes outcome _ consumes =>
      have hstart : Holds ⟨.rtu .start, b⟩ b.contents := ⟨.start, rfl, rfl⟩
      cases outcome with
      | ok frame => exact ⟨b.contents, hstart, consumes.append script.content⟩
      | error fault => exact ⟨b.contents, hstart, consumes.append script.content⟩
    | waits same =>
      have hwaits : Holds ⟨.rtu after, b⟩ (pending state r.buffer) := ⟨after, rfl, same⟩
      dsimp only [Except.map]
      generalize hread : script.read (Reader.room ⟨.rtu after, b⟩) = got
      obtain ⟨got, rest⟩ := got
      match got with
      | .error kind =>
        refine ⟨_, hwaits.prepare, ?_⟩
        rw [← Script.content_of_failure hread]
        exact .io
      | .ok [] =>
        refine ⟨_, hwaits.prepare, ?_⟩
        rw [Script.content_read hread]
        exact .io
      | .ok (x :: bytes) =>
        have hcontent := Script.content_read hread
        have hmore := hwaits.receive level.physical x (Script.length_of_read hread)
        have hless : rest.content.length < n := by
          rw [← hn, hcontent, List.length_append, List.length_cons]
          omega
        rw [hcontent, ← List.append_assoc]
        exact ih _ hless hmore rest rfl

/-- The outcomes of a transcript account for a stream from its front, one after the other. Bytes are
lost only where a reader starts afresh behind a fault. -/
inductive Accounts (recovery : Recovery) : Bytes → List (Except RequestFault Frame) → Prop
  | done {rest : Bytes} : Accounts recovery rest []
  | frame {stream rest : Bytes} {frame : Frame} {outcomes : List (Except RequestFault Frame)}
      (consumes : Consumes stream (.ok frame) rest) (later : Accounts recovery rest outcomes) :
      Accounts recovery stream (.ok frame :: outcomes)
  | fault {stream lost rest : Bytes} {fault : RequestFault}
      {outcomes : List (Except RequestFault Frame)}
      (consumes : Consumes stream (.error fault) (lost ++ rest))
      (kept : recovery ≠ .reset → lost = []) (later : Accounts recovery rest outcomes) :
      Accounts recovery stream (.error fault :: outcomes)

theorem accounts_transcript {r : Reader} {waiting : Bytes} (h : Holds r waiting)
    (level : DecodeLevel) (recovery : Recovery) (limit : Nat) (script : Script) :
    Accounts recovery (waiting ++ script.content)
      ((r.transcript limit level recovery script).map (·.outcome)) := by
  induction limit generalizing r waiting script with
  | zero => exact .done
  | succ limit ih =>
    obtain ⟨left, hleft, hconsumes⟩ := h.nextFrame level script
    cases houtcome : (r.nextFrame level script).outcome with
    | ok frame =>
      rw [houtcome] at hconsumes
      rw [Reader.transcript_of_frame houtcome, List.map_cons]
      exact .frame hconsumes (ih hleft _)
    | error fault =>
      rw [houtcome] at hconsumes
      obtain ⟨later, htranscript, hlater⟩ := Reader.transcript_of_fault houtcome limit recovery
      rw [htranscript, List.map_cons]
      have hnone : Consumes (waiting ++ script.content) (.error fault) ([] ++ _) := hconsumes
      cases hlater with
      | stops => exact .fault hnone (fun _ => rfl) .done
      | resumes => exact .fault hnone (fun _ => rfl) (ih hleft _)
      | resets => exact .fault hconsumes (fun hreset => absurd rfl hreset) (ih hleft.reset _)

/-- Writing and reading are inverse. From the start, where a new reader is, a request is read back
from any pieces of its encoding and any other frame from one piece, and the reader is at the start
again with nothing taken in. In the other direction, whatever a parser remembers and whatever waits,
a frame that it returns encodes to the bytes it took, and all that is read of any stream accounts
for it. -/
theorem frame_roundTrip (level : DecodeLevel) :
    Idle (.ofParser (.rtu .start)) ∧
    (∀ (r : Reader) (frame : Frame) (script : Script), Idle r → SelfSized frame → script.Solid →
      script.content = frame.encode →
      let next := r.nextFrame level script
      next.outcome = .ok frame ∧ Idle next.reader ∧ next.script = []) ∧
    (∀ (r : Reader) (frame : Frame) (later : Script), Idle r → Custom frame →
      let next := r.nextFrame level (.bytes frame.encode :: later)
      next.outcome = .ok frame ∧ Idle next.reader ∧ next.script = later) ∧
    (∀ (state : State) (b : ReadBuffer) (frame : Frame),
      let (outcome, after, left, _) := parse state b
      outcome = .ok (some frame) →
        after = .start ∧ pending state b = frame.encode ++ left.contents) ∧
    ∀ (script : Script) (limit : Nat) (recovery : Recovery),
      Accounts recovery script.content
        (((Reader.ofParser (.rtu .start)).transcript limit level recovery script).map
          (·.outcome)) := by
  refine ⟨idle_ofParser, ?_, ?_, ?_, ?_⟩
  · intro r frame script hidle hframe hsolid hcontent
    exact hidle.nextFrame_encode hframe level hsolid hcontent
  · intro r frame later hidle hframe
    exact hidle.nextFrame_custom hframe level later
  · intro state b frame
    have hanswers := answers_parse state b
    generalize parse state b = parsed at hanswers
    obtain ⟨outcome, after, left, unit?⟩ := parsed
    intro houtcome
    exact hanswers.of_frame houtcome
  · intro script limit recovery
    exact accounts_transcript holds_ofParser level recovery limit script

/-- A request cut behind its unit, inside its data and inside its checksum, and a frame of another
kind in one piece. -/
theorem frame_roundTrip_cut :
    let request : Frame := ⟨.rtu, ⟨1⟩, 0x10, [0x00, 0x00, 0x00, 0x01, 0x02, 0xAB, 0xCD]⟩
    let pieces : Script :=
      [.bytes [0x01], .bytes [0x10, 0x00, 0x00, 0x00, 0x01], .bytes [0x02, 0xAB, 0xCD, 0x18],
        .bytes [0xF5]]
    let custom : Frame := ⟨.rtu, ⟨7⟩, 0x41, []⟩
    let start := Reader.ofParser (.rtu .start)
    Idle start ∧ SelfSized request ∧ pieces.Solid ∧ pieces.content = request.encode ∧
      (start.nextFrame .nothing pieces).outcome = .ok request ∧ Custom custom ∧
      (start.nextFrame .nothing [.bytes custom.encode]).outcome = .ok custom := by
  intro request pieces custom start
  obtain ⟨hidle, hrequests, hcustoms, -⟩ := frame_roundTrip .nothing
  have hrequest : SelfSized request := .counted rfl (by decide) rfl rfl (by decide)
  have hsolid : pieces.Solid := by
    intro chunk hchunk
    simp only [pieces, List.mem_cons, List.not_mem_nil, or_false] at hchunk
    rcases hchunk with rfl | rfl | rfl | rfl
    · exact ⟨_, _, rfl⟩
    · exact ⟨_, _, rfl⟩
    · exact ⟨_, _, rfl⟩
    · exact ⟨_, _, rfl⟩
  have hcontent : pieces.content = request.encode := by decide +kernel
  have hcustom : Custom custom := ⟨rfl, by decide, by decide, by decide⟩
  exact ⟨hidle, hrequest, hsolid, hcontent,
    (hrequests start request pieces hidle hrequest hsolid hcontent).1, hcustom,
    (hcustoms start custom [] hidle hcustom).1⟩

end ModbusSlave.Rtu
