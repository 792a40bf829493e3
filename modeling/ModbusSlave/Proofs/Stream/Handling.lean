import ModbusSlave.Proofs.Stream.LooseParsing
import ModbusSlave.Proofs.Stream.MbapReading
import ModbusSlave.Proofs.Stream.Renewal
import ModbusSlave.Proofs.Stream.Rounds

/-!
# Readers handled in any order

A parser and its buffer may come apart: either can be emptied without the other, and bytes can come
in at any time. Whatever is done with them, in whatever order and with whatever room, no operation
is stuck and no parsing fails on the inside. With room for the longest frame a parser that waits
leaves room for more, so that an error of the stream is always the doing of the stream.
-/
namespace ModbusSlave

inductive Handling
  /-- Take in what one read of a stream delivers. -/
  | feed (level : PhysicalLevel) (script : Script)
  | parse (level : FrameLevel)
  /-- Forget an unfinished frame, but no byte that waits. -/
  | reset
  /-- Forget everything that waits, but no unfinished frame. -/
  | clear

def Reader.handle (r : Reader) : Handling → Reader
  | .feed level script => (r.receive level (script.read r.room).1).reader
  | .parse level => r.parsed level
  | .reset => { r with parser := r.parser.reset }
  | .clear => { r with buffer := r.buffer.clear }

/-- The same without the proofs of the buffer. -/
def LooseReader.handle? (r : LooseReader) : Handling → Option LooseReader
  | .feed _ script => (r.receive? script).map fun (_, r, _) => r
  | .parse _ => r.parse?.map fun (_, r) => r
  | .reset => some { r with parser := r.parser.reset }
  | .clear => some { r with buffer := { r.buffer with first := 0, last := 0 } }

theorem Reader.handle?_loose (r : Reader) (handling : Handling) :
    r.loose.handle? handling = some (r.handle handling).loose := by
  cases handling with
  | feed level script => rw [LooseReader.handle?, r.receive?_loose level script]; rfl
  | parse level => rw [LooseReader.handle?, r.parse?_loose level]; rfl
  | reset => rfl
  | clear => rfl

theorem Reader.handles_loose (r : Reader) (handlings : List Handling) :
    handlings.foldlM LooseReader.handle? r.loose =
      some (handlings.foldl Reader.handle r).loose := by
  induction handlings generalizing r with
  | nil => rfl
  | cons handling handlings ih =>
    rw [List.foldlM_cons, r.handle?_loose handling]
    exact ih (r.handle handling)

def Parser.Valid : Parser → Prop
  | .mbap state => state.Valid
  | .rtu state => state.Bounded

@[simp] theorem Parser.maxFrame_reset (p : Parser) : p.reset.maxFrame = p.maxFrame := by
  cases p with
  | mbap => rfl
  | rtu => rfl

@[simp] theorem Parser.reset_reset (p : Parser) : p.reset.reset = p.reset := by
  cases p with
  | mbap => rfl
  | rtu => rfl

theorem Parser.valid_reset (p : Parser) : p.reset.Valid := by
  cases p with
  | mbap => exact trivial
  | rtu => exact trivial

/-- The bytes that wait begin with a header that makes no sense. -/
def Mbap.Refuses (b : ReadBuffer) (fault : FrameFault) : Prop :=
  ∃ t₁ t₀ p₁ p₀ l₁ l₀ unit rest, b.contents = t₁ :: t₀ :: p₁ :: p₀ :: l₁ :: l₀ :: unit :: rest ∧
    Header.of? (Word.join t₁ t₀) (Word.join p₁ p₀) (Word.join l₁ l₀) unit = .error fault

/-- What a parsing may come to. Behind a header nothing is rejected, and on a serial line a frame is
too long or has another checksum. -/
inductive Proper (p : Parser) (b : ReadBuffer) : Except RequestFault (Option Frame) → Prop
  | waits : Proper p b (.ok none)
  | frame {frame : Frame} : Proper p b (.ok (some frame))
  | header {fault : FrameFault} (start : p = .mbap .start) (refuses : Mbap.Refuses b fault) :
      Proper p b (.error (.badFrame fault))
  | serial {state : Rtu.State} {fault : FrameFault} (serial : p = .rtu state)
      (spoils : Rtu.Spoils fault) : Proper p b (.error (.badFrame fault))

namespace Proper

variable {p : Parser} {b : ReadBuffer} {outcome : Except RequestFault (Option Frame)}

theorem ne_internal (h : Proper p b outcome) {shortage : Shortage} :
    outcome ≠ .error (.internal shortage) := by
  rintro rfl
  cases h

theorem ne_tooShort (h : Proper p b outcome) {length : Nat} :
    outcome ≠ .error (.badFrame (.frameTooShort length)) := by
  rintro rfl
  cases h with
  | header start refuses =>
    obtain ⟨_, _, _, _, _, _, _, _, -, hof⟩ := refuses
    rw [Mbap.Header.of?] at hof
    split_ifs at hof <;> cases hof
  | serial serial spoils => cases spoils

theorem of_missing (h : Proper p b outcome)
    (hmissing : outcome = .error (.badFrame .missingFunctionCode)) :
    p = .mbap .start ∧ Mbap.Refuses b .missingFunctionCode := by
  subst hmissing
  cases h with
  | header start refuses => exact ⟨start, refuses⟩
  | serial serial spoils => cases spoils

end Proper

/-- A reader that has been handled: it keeps its framing and its capacity. -/
structure Reader.Settled (p : Parser) (capacity : Nat) (r : Reader) : Prop where
  framing : r.parser.reset = p.reset
  valid : r.parser.Valid
  keeps : r.buffer.capacity = capacity

/-- What a reader that has been handled comes to when it parses. -/
structure Judged (p : Parser) (capacity : Nat) (r : Reader) (parsed : Parsed) : Prop where
  proper : Proper r.parser r.buffer parsed.outcome
  settled : Reader.Settled p capacity ⟨parsed.parser, parsed.buffer⟩
  short : parsed.outcome = .ok none → parsed.buffer.contents.length < p.maxFrame

namespace Mbap

theorem refuses_of_first? {state : State} (h : state.Valid) {b : ReadBuffer} {fault : FrameFault}
    {rest : Bytes} (hfirst : first? (pending state b) = some (.error fault, rest)) :
    state = .start ∧ Refuses b fault := by
  have behind {header : Header} (h : (State.body header).Valid) {bytes : Bytes}
      (hfirst : first? ((State.body header).consumed ++ bytes) = some (.error fault, rest)) :
      False := by
    rw [first?_consumed header h] at hfirst
    obtain ⟨found, -, hpair⟩ := Option.map_eq_some_iff.mp hfirst
    cases hpair
  cases state with
  | body header => exact (behind h hfirst).elim
  | start =>
    refine ⟨rfl, ?_⟩
    rw [pending, State.consumed, List.nil_append] at hfirst
    rcases hcontents : b.contents with
      _ | ⟨t₁, _ | ⟨t₀, _ | ⟨p₁, _ | ⟨p₀, _ | ⟨l₁, _ | ⟨l₀, _ | ⟨unit, more⟩⟩⟩⟩⟩⟩⟩ <;>
      rw [hcontents] at hfirst
    iterate 7 cases hfirst
    refine ⟨t₁, t₀, p₁, p₀, l₁, l₀, unit, more, hcontents, ?_⟩
    cases hof : Header.of? (Word.join t₁ t₀) (Word.join p₁ p₀) (Word.join l₁ l₀) unit with
    | error found =>
      rw [first?_of_error hof more] at hfirst
      cases hfirst
      rfl
    | ok header =>
      obtain ⟨hvalid, hconsumed⟩ := consumed_of_ok hof
      have hheader : first? ((State.body header).consumed ++ more) =
          some (.error fault, rest) := by
        rw [hconsumed]
        exact hfirst
      exact (behind hvalid hheader).elim

end Mbap

namespace Reader.Settled

variable {p : Parser} {capacity : Nat} {r : Reader}

theorem maxFrame_eq (h : r.Settled p capacity) : r.parser.maxFrame = p.maxFrame := by
  rw [← r.parser.maxFrame_reset, h.framing, p.maxFrame_reset]

/-- One parsing of a reader that has been handled. -/
theorem judged (h : r.Settled p capacity) (level : FrameLevel) :
    Judged p capacity r (r.parser.parse r.buffer level) := by
  have hmax := h.maxFrame_eq
  obtain ⟨parser, b⟩ := r
  obtain ⟨framing, valid, keeps⟩ := h
  cases parser with
  | mbap state =>
    have hparses := Mbap.parses valid b
    dsimp only [Parser.parse]
    generalize Mbap.parse state b = parsed at hparses
    cases hparses with
    | frame first fits =>
      exact ⟨.frame, ⟨framing, trivial, fits.trans keeps⟩, fun hnone => by cases hnone⟩
    | fault first fits =>
      obtain ⟨hstart, hrefuses⟩ := Mbap.refuses_of_first? valid first
      refine ⟨.header (congrArg _ hstart) hrefuses, ⟨framing, trivial, fits.trans keeps⟩, ?_⟩
      exact fun hnone => by cases hnone
    | waits valid same first fits =>
      refine ⟨.waits, ⟨framing, valid, fits.trans keeps⟩, fun _ => ?_⟩
      have hlength := Mbap.length_of_first?_none first
      rw [← same, Mbap.pending, List.length_append] at hlength
      rw [← hmax]
      exact Nat.lt_of_le_of_lt (Nat.le_add_left _ _) hlength
  | rtu state =>
    have hverdict := Rtu.verdict_parse valid b
    dsimp only [Parser.parse]
    generalize Rtu.parse state b = parsed at hverdict
    obtain ⟨outcome, after, left, unit?⟩ := parsed
    dsimp only at hverdict
    cases hverdict with
    | waits bounded short fits =>
      refine ⟨.waits, ⟨framing, bounded, fits.trans keeps⟩, fun _ => ?_⟩
      rw [← hmax]
      exact short
    | frame fits =>
      exact ⟨.frame, ⟨framing, trivial, fits.trans keeps⟩, fun hnone => by cases hnone⟩
    | spoiled spoils fits =>
      exact ⟨.serial rfl spoils, ⟨framing, trivial, fits.trans keeps⟩, fun hnone => by cases hnone⟩

theorem prepare (h : r.Settled p capacity) :
    Reader.Settled p capacity ⟨r.parser, r.buffer.prepare⟩ :=
  ⟨h.framing, h.valid, r.buffer.capacity_prepare.trans h.keeps⟩

theorem receive (h : r.Settled p capacity) (level : PhysicalLevel) (got : Except IoKind Bytes) :
    (r.receive level got).reader.Settled p capacity := by
  match got with
  | .error kind => exact h.prepare
  | .ok [] => exact h.prepare
  | .ok (x :: bytes) =>
    exact ⟨h.framing, h.valid, (r.capacity_receive level x bytes).trans h.keeps⟩

theorem handle (h : r.Settled p capacity) (handling : Handling) :
    (r.handle handling).Settled p capacity := by
  cases handling with
  | feed level script => exact h.receive level _
  | parse level => exact (h.judged level).settled
  | reset => exact ⟨r.parser.reset_reset.trans h.framing, r.parser.valid_reset, h.keeps⟩
  | clear => exact ⟨h.framing, h.valid, h.keeps⟩

theorem handles (h : r.Settled p capacity) (handlings : List Handling) :
    (handlings.foldl Reader.handle r).Settled p capacity := by
  induction handlings generalizing r with
  | nil => exact h
  | cons handling handlings ih => exact ih (h.handle handling)

/-- A parser that waits leaves room for more. -/
theorem room_pos (h : r.Settled p p.maxFrame) (level : FrameLevel)
    (hwaits : (r.parser.parse r.buffer level).outcome = .ok none) : 0 < (r.parsed level).room := by
  have hjudged := h.judged level
  have hkeeps : (r.parsed level).buffer.capacity = p.maxFrame := hjudged.settled.keeps
  apply ReadBuffer.room_prepare_pos
  rw [hkeeps]
  exact hjudged.short hwaits

variable {level : DecodeLevel} {script left : Script} {after : Reader}

theorem finds {outcome : Except RequestFault Frame} (h : r.Settled p capacity)
    (hfinds : Reader.Finds level r script outcome after left) : after.Settled p capacity := by
  induction hfinds with
  | frame => exact (h.judged level.frame).settled
  | fault => exact (h.judged level.frame).settled
  | failure => exact (h.judged level.frame).settled.prepare
  | nothing => exact (h.judged level.frame).settled.prepare
  | more waits read later ih => exact ih ((h.judged level.frame).settled.receive _ _)

theorem breaks {kind : IoKind} (h : r.Settled p p.maxFrame)
    (hfinds : Reader.Finds level r script (.error (.io kind)) after left) :
    ∃ rest, script.Leaves rest ∧ rest.Breaks kind left := by
  generalize houtcome : (Except.error (.io kind) : Except RequestFault Frame) = outcome at hfinds
  induction hfinds with
  | frame => cases houtcome
  | fault outcome =>
    have hproper := (h.judged level.frame).proper
    cases houtcome
    rw [outcome] at hproper
    cases hproper
  | failure waits read =>
    cases houtcome
    exact ⟨_, .here, Script.breaks_of_error read⟩
  | nothing waits read =>
    cases houtcome
    exact ⟨_, .here, Script.breaks_of_nothing (h.room_pos level.frame waits) read⟩
  | more waits read later ih =>
    obtain ⟨rest, hleaves, hbreaks⟩ := ih ((h.judged level.frame).settled.receive _ _) houtcome
    exact ⟨rest, .behind read hleaves, hbreaks⟩

end Reader.Settled

theorem settled_ofCapacity (p : Parser) (capacity : Nat) :
    Reader.Settled p capacity ⟨p.reset, .ofCapacity capacity⟩ :=
  ⟨p.reset_reset, p.valid_reset, ReadBuffer.capacity_ofCapacity capacity⟩

/-- From a new parser and an empty buffer of any capacity, whatever is done with them in whatever
order: no operation is stuck, and no parsing or search for a frame that follows. A parsing never
fails on the inside and never finds a frame too short; it misses a function code only in a header.
If the buffer has room for the longest frame, a parsing that waits leaves room for a byte, and an
error of the stream comes from the stream itself. -/
theorem handling_safe (p : Parser) (capacity : Nat) (handlings : List Handling)
    (level : DecodeLevel) (script : Script) :
    let start : Reader := ⟨p.reset, .ofCapacity capacity⟩
    let r := handlings.foldl Reader.handle start
    let parsed := r.parser.parse r.buffer level.frame
    let after : Reader := ⟨parsed.parser, parsed.buffer⟩
    let next := r.nextFrame level script
    handlings.foldlM LooseReader.handle? start.loose = some r.loose ∧
    r.loose.parse? = some (parsed.outcome, after.loose) ∧
    r.loose.nextFrame? (script.content.length + 1) script =
      some (next.outcome, next.reader.loose, next.script) ∧
    Proper r.parser r.buffer parsed.outcome ∧
    (∀ shortage, parsed.outcome ≠ .error (.internal shortage)) ∧
    (∀ length, parsed.outcome ≠ .error (.badFrame (.frameTooShort length))) ∧
    (parsed.outcome = .error (.badFrame .missingFunctionCode) →
      r.parser = .mbap .start ∧ Mbap.Refuses r.buffer .missingFunctionCode) ∧
    (capacity = p.maxFrame →
      (parsed.outcome = .ok none → parsed.buffer.length < capacity ∧ 0 < after.room) ∧
      ∀ kind, next.outcome = .error (.io kind) →
        ∃ left, script.Leaves left ∧ left.Breaks kind next.script) := by
  intro start r parsed after next
  have hsettled : r.Settled p capacity := (settled_ofCapacity p capacity).handles handlings
  have hjudged := hsettled.judged level.frame
  refine ⟨start.handles_loose handlings, r.parse?_loose level.frame,
    r.nextFrame?_loose level script (Nat.lt_succ_self _), hjudged.proper, ?_, ?_, ?_, ?_⟩
  · exact fun shortage => hjudged.proper.ne_internal
  · exact fun length => hjudged.proper.ne_tooShort
  · exact hjudged.proper.of_missing
  · rintro rfl
    refine ⟨fun hwaits => ⟨?_, hsettled.room_pos level.frame hwaits⟩, fun kind hio => ?_⟩
    · rw [← ReadBuffer.length_contents]
      exact hjudged.short hwaits
    · exact hsettled.breaks (hio ▸ r.finds level script)

/-- A header is parsed and the byte behind it is cleared away: the body still waits for its four
bytes, until the stream ends. -/
theorem handling_safe_torn :
    let torn : Script := [.bytes [0x00, 0x01, 0x00, 0x00, 0x00, 0x05, 0x01, 0x03]]
    let handlings : List Handling := [.feed .nothing torn, .parse .nothing, .clear]
    let r := handlings.foldl Reader.handle ⟨.mbap .start, .ofCapacity Mbap.maxFrame⟩
    let parsed := r.parser.parse r.buffer .nothing
    let next := r.nextFrame .nothing []
    r.parser = .mbap (.body ⟨1, ⟨1⟩, 4⟩) ∧ parsed.outcome = .ok none ∧
      parsed.buffer.length < Mbap.maxFrame ∧ next.outcome = .error (.io .unexpectedEof) ∧
      ∃ left, Script.Leaves [] left ∧ left.Breaks .unexpectedEof next.script := by
  intro torn handlings r parsed next
  obtain ⟨-, -, -, -, -, -, -, hroom⟩ :=
    handling_safe (.mbap .start) Mbap.maxFrame handlings .nothing []
  obtain ⟨hwaits, hio⟩ := hroom rfl
  have hvalues : r.parser = .mbap (.body ⟨1, ⟨1⟩, 4⟩) ∧ parsed.outcome = .ok none ∧
      next.outcome = .error (.io .unexpectedEof) := by
    decide +kernel
  obtain ⟨hbody, hparsed, hended⟩ := hvalues
  exact ⟨hbody, hparsed, (hwaits hparsed).1, hended, hio _ hended⟩

end ModbusSlave
