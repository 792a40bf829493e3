import ModbusSlave.Proofs.Stream.RtuFrames

/-!
# Bytes without meaning

What has been read or thrown away stays in the storage of a buffer until something is put in its
place. No operation looks at it: buffers that differ in nothing else give the same answers and go on
differing in nothing else. So a reader that has forgotten an unfinished frame is as good as new. A
parser of a serial line never fails except on a frame, which it can forget.
-/
namespace ModbusSlave

namespace ReadBuffer

/-- The buffers differ at most in bytes that do not wait. -/
structure Same (a b : ReadBuffer) : Prop where
  first : a.first = b.first
  last : a.last = b.last
  capacity : a.capacity = b.capacity
  contents : a.contents = b.contents

/-- Zeros stand in the place of bytes that do not wait. -/
def blank (b : ReadBuffer) : ReadBuffer where
  storage := Array.replicate b.first 0 ++ b.contents.toArray ++
    Array.replicate (b.capacity - b.last) 0
  first := b.first
  last := b.last
  first_le_last := b.first_le_last
  last_le_size := by
    have := b.first_le_last
    simp only [Array.size_append, Array.size_replicate, List.size_toArray, length_contents, length]
    omega

theorem capacity_blank (b : ReadBuffer) : b.blank.capacity = b.capacity := by
  have hfirst := b.first_le_last
  have hlast : b.last ≤ b.capacity := b.last_le_size
  simp only [capacity, blank, Array.size_append, Array.size_replicate, List.size_toArray,
    length_contents, length] at hlast ⊢
  omega

theorem contents_blank (b : ReadBuffer) : b.blank.contents = b.contents := by
  have hlength : b.contents.length = b.last - b.first := b.length_contents
  rw [contents, Array.toList_extract, List.extract_eq_take_drop]
  simp only [blank, Array.toList_append, Array.toList_replicate]
  rw [List.append_assoc, List.drop_left' (List.length_replicate ..), List.take_left' hlength]

/-- An operation answers the same on two buffers and leaves the same behind. -/
structure Agree {α : Type} (x y : α × ReadBuffer) : Prop where
  answer : x.1 = y.1
  buffer : x.2.Same y.2

theorem Agree.cases {ε α : Type} {x y : Except ε α × ReadBuffer} (h : Agree x y) :
    (∃ fault a b, x = (.error fault, a) ∧ y = (.error fault, b) ∧ a.Same b) ∨
      ∃ value a b, x = (.ok value, a) ∧ y = (.ok value, b) ∧ a.Same b := by
  obtain ⟨answer, a⟩ := x
  obtain ⟨answer', b⟩ := y
  obtain rfl : answer = answer' := h.answer
  cases answer with
  | error fault => exact .inl ⟨fault, a, b, rfl, rfl, h.buffer⟩
  | ok value => exact .inr ⟨value, a, b, rfl, rfl, h.buffer⟩

theorem first_read (b : ReadBuffer) (count : Nat) :
    (b.read count).2.first = if b.length < count then b.first else b.first + count := by
  unfold read
  split <;> rfl

theorem last_read (b : ReadBuffer) (count : Nat) : (b.read count).2.last = b.last := by
  unfold read
  split <;> rfl

theorem first_readByte (b : ReadBuffer) :
    b.readByte.2.first = if b.first < b.last then b.first + 1 else b.first := by
  unfold readByte
  split <;> rfl

theorem last_readByte (b : ReadBuffer) : b.readByte.2.last = b.last := by
  unfold readByte
  split <;> rfl

theorem first_prepare (b : ReadBuffer) :
    b.prepare.first =
      if b.first = b.last then 0 else if b.last = b.capacity then 0 else b.first := by
  unfold prepare capacity
  split
  · rfl
  · split <;> rfl

theorem last_prepare (b : ReadBuffer) :
    b.prepare.last =
      if b.first = b.last then 0 else if b.last = b.capacity then b.length else b.last := by
  unfold prepare capacity
  split
  · rfl
  · split <;> rfl

namespace Same

variable {a b : ReadBuffer}

theorem refl (b : ReadBuffer) : b.Same b := ⟨rfl, rfl, rfl, rfl⟩

theorem symm (h : a.Same b) : b.Same a :=
  ⟨h.first.symm, h.last.symm, h.capacity.symm, h.contents.symm⟩

theorem length (h : a.Same b) : a.length = b.length := by
  rw [ReadBuffer.length, ReadBuffer.length, h.first, h.last]

theorem read (h : a.Same b) (count : Nat) : Agree (a.read count) (b.read count) := by
  have hfirst : (a.read count).2.first = (b.read count).2.first := by
    rw [first_read, first_read, h.length, h.first]
  have hlast : (a.read count).2.last = (b.read count).2.last := by
    rw [last_read, last_read, h.last]
  by_cases hshort : a.contents.length < count
  · have hshort' := hshort
    rw [h.contents] at hshort'
    rw [a.read_eq_error hshort, b.read_eq_error hshort', h.contents]
    exact ⟨rfl, h⟩
  · have hlong := Nat.le_of_not_lt hshort
    obtain ⟨after, hread, hcontents, hcapacity⟩ := a.read_eq_ok hlong
    rw [h.contents] at hlong
    obtain ⟨after', hread', hcontents', hcapacity'⟩ := b.read_eq_ok hlong
    rw [hread, hread'] at hfirst hlast ⊢
    refine ⟨by rw [h.contents], hfirst, hlast, ?_, ?_⟩
    · rw [hcapacity, hcapacity', h.capacity]
    · rw [hcontents, hcontents', h.contents]

theorem readByte (h : a.Same b) : Agree a.readByte b.readByte := by
  have hfirst : a.readByte.2.first = b.readByte.2.first := by
    rw [first_readByte, first_readByte, h.first, h.last]
  have hlast : a.readByte.2.last = b.readByte.2.last := by
    rw [last_readByte, last_readByte, h.last]
  cases hcontents : a.contents with
  | nil =>
    rw [a.readByte_eq_error hcontents, b.readByte_eq_error (h.contents ▸ hcontents)]
    exact ⟨rfl, h⟩
  | cons x rest =>
    obtain ⟨after, hread, hrest, hcapacity⟩ := a.readByte_eq_ok hcontents
    obtain ⟨after', hread', hrest', hcapacity'⟩ := b.readByte_eq_ok (h.contents ▸ hcontents)
    rw [hread, hread'] at hfirst hlast ⊢
    refine ⟨rfl, hfirst, hlast, ?_, ?_⟩
    · rw [hcapacity, hcapacity', h.capacity]
    · rw [hrest, hrest']

theorem readPair (h : a.Same b) : Agree a.readPair b.readPair := by
  rcases h.readByte.cases with ⟨fault, a', b', ha, hb, h'⟩ | ⟨x, a', b', ha, hb, h'⟩
  · rw [ReadBuffer.readPair, ReadBuffer.readPair, ha, hb]
    exact ⟨rfl, h'⟩
  · rw [ReadBuffer.readPair, ReadBuffer.readPair, ha, hb]
    dsimp only
    rcases h'.readByte.cases with ⟨fault, a'', b'', ha', hb', h''⟩ | ⟨y, a'', b'', ha', hb', h''⟩
    · rw [ha', hb']
      exact ⟨rfl, h''⟩
    · rw [ha', hb']
      exact ⟨rfl, h''⟩

theorem readBig (h : a.Same b) : Agree a.readBig b.readBig :=
  ⟨congrArg (Except.map fun pair : UInt8 × UInt8 => Word.join pair.1 pair.2) h.readPair.answer,
    h.readPair.buffer⟩

theorem readLittle (h : a.Same b) : Agree a.readLittle b.readLittle :=
  ⟨congrArg (Except.map fun pair : UInt8 × UInt8 => Word.join pair.2 pair.1) h.readPair.answer,
    h.readPair.buffer⟩

theorem peek (h : a.Same b) (index : Nat) : a.peek index = b.peek index := by
  by_cases hindex : index < b.contents.length
  · have hpeek := b.peek_eq_ok (List.getElem?_eq_getElem hindex)
    rw [hpeek]
    apply a.peek_eq_ok
    rw [h.contents, List.getElem?_eq_getElem hindex]
  · rw [length_contents] at hindex
    rw [ReadBuffer.peek, ReadBuffer.peek, dif_neg hindex, dif_neg (h.length ▸ hindex), h.length]

theorem prepare (h : a.Same b) : a.prepare.Same b.prepare where
  first := by rw [first_prepare, first_prepare, h.first, h.last, h.capacity]
  last := by rw [last_prepare, last_prepare, h.first, h.last, h.capacity, h.length]
  capacity := by rw [capacity_prepare, capacity_prepare, h.capacity]
  contents := by rw [contents_prepare, contents_prepare, h.contents]

theorem clear (h : a.Same b) : a.clear.Same b.clear where
  first := rfl
  last := rfl
  capacity := h.capacity
  contents := by rw [contents_clear, contents_clear]

theorem room (h : a.Same b) : a.room = b.room := by
  have hcapacity := h.capacity
  simp only [ReadBuffer.capacity] at hcapacity
  rw [ReadBuffer.room, ReadBuffer.room, hcapacity, h.last]

theorem fill (h : a.Same b) (bytes : Bytes) : (a.fill bytes).Same (b.fill bytes) where
  first := h.first
  last := by
    show a.last + (bytes.take a.room).length = b.last + (bytes.take b.room).length
    rw [h.last, h.room]
  capacity := by rw [capacity_fill, capacity_fill, h.capacity]
  contents := by rw [contents_fill, contents_fill, h.contents, h.room]

theorem receive (h : a.Same b) (got : Except IoKind Bytes) :
    Agree (a.receive got) (b.receive got) := by
  match got with
  | .error kind => exact ⟨rfl, h⟩
  | .ok [] => exact ⟨rfl, h⟩
  | .ok (x :: bytes) => exact ⟨rfl, h.fill _⟩

theorem blank_eq (h : a.Same b) : a.blank = b.blank := by
  simp only [blank, h.contents, h.capacity, h.first, h.last]

theorem of_blank (h : a.blank = b.blank) : a.Same b where
  first := show a.blank.first = b.blank.first by rw [h]
  last := show a.blank.last = b.blank.last by rw [h]
  capacity := by rw [← a.capacity_blank, h, b.capacity_blank]
  contents := by rw [← a.contents_blank, h, b.contents_blank]

theorem of_clear (b : ReadBuffer) : b.clear.Same (.ofCapacity b.capacity) where
  first := rfl
  last := rfl
  capacity := (capacity_ofCapacity b.capacity).symm
  contents := by rw [contents_clear, contents_ofCapacity]

end Same

end ReadBuffer

open ReadBuffer (Same)

structure Alike {α β : Type} (x y : α × β × ReadBuffer) : Prop where
  answer : x.1 = y.1
  state : x.2.1 = y.2.1
  buffer : x.2.2.Same y.2.2

namespace Mbap

variable {a b : ReadBuffer}

theorem agree_readHeader (h : a.Same b) : ReadBuffer.Agree (readHeader a) (readHeader b) := by
  unfold readHeader
  rcases h.readBig.cases with ⟨_, a, b, ha, hb, h⟩ | ⟨transaction, a, b, ha, hb, h⟩
  · rw [ha, hb]
    exact ⟨rfl, h⟩
  rw [ha, hb]
  dsimp only
  rcases h.readBig.cases with ⟨_, a, b, ha, hb, h⟩ | ⟨protocol, a, b, ha, hb, h⟩
  · rw [ha, hb]
    exact ⟨rfl, h⟩
  rw [ha, hb]
  dsimp only
  rcases h.readBig.cases with ⟨_, a, b, ha, hb, h⟩ | ⟨length, a, b, ha, hb, h⟩
  · rw [ha, hb]
    exact ⟨rfl, h⟩
  rw [ha, hb]
  dsimp only
  rcases h.readByte.cases with ⟨_, a, b, ha, hb, h⟩ | ⟨unit, a, b, ha, hb, h⟩
  · rw [ha, hb]
    exact ⟨rfl, h⟩
  · rw [ha, hb]
    exact ⟨rfl, h⟩

theorem alike_parseBody (h : a.Same b) (header : Header) :
    Alike (parseBody header a) (parseBody header b) := by
  unfold parseBody readBody
  rw [h.length]
  split
  · exact ⟨rfl, rfl, h⟩
  rcases (h.read header.pduLength).cases with ⟨_, a, b, ha, hb, h⟩ | ⟨bytes, a, b, ha, hb, h⟩
  · rw [ha, hb]
    exact ⟨rfl, rfl, h⟩
  · rw [ha, hb]
    cases bytes with
    | nil => exact ⟨rfl, rfl, h⟩
    | cons function data => exact ⟨rfl, rfl, h⟩

theorem alike_parse (h : a.Same b) (state : State) : Alike (parse state a) (parse state b) := by
  cases state with
  | body header => exact alike_parseBody h header
  | start =>
    unfold parse
    dsimp only
    rw [h.length]
    split
    · exact ⟨rfl, rfl, h⟩
    rcases (agree_readHeader h).cases with ⟨_, a, b, ha, hb, h⟩ | ⟨header, a, b, ha, hb, h⟩
    · rw [ha, hb]
      exact ⟨rfl, rfl, h⟩
    · rw [ha, hb]
      exact alike_parseBody h header

end Mbap

namespace Rtu

variable {a b : ReadBuffer}

theorem alike_parseBody (h : a.Same b) (unit : UnitId) (count : Nat) :
    Alike (parseBody unit count a) (parseBody unit count b) := by
  unfold parseBody
  rw [h.length]
  split
  · exact ⟨rfl, rfl, h⟩
  split
  · exact ⟨rfl, rfl, h⟩
  rcases (h.read (1 + count)).cases with ⟨_, a, b, ha, hb, h⟩ | ⟨bytes, a, b, ha, hb, h⟩
  · rw [ha, hb]
    exact ⟨rfl, rfl, h⟩
  rw [ha, hb]
  cases bytes with
  | nil => exact ⟨rfl, rfl, h⟩
  | cons function data =>
    dsimp only
    rcases h.readLittle.cases with ⟨_, a, b, ha, hb, h⟩ | ⟨received, a, b, ha, hb, h⟩
    · rw [ha, hb]
      exact ⟨rfl, rfl, h⟩
    · rw [ha, hb]
      dsimp only
      split
      · exact ⟨rfl, rfl, h⟩
      · exact ⟨rfl, rfl, h⟩

theorem alike_parseCount (h : a.Same b) (unit : UnitId) (count : Nat) :
    Alike (parseCount unit count a) (parseCount unit count b) := by
  unfold parseCount
  rw [h.length, h.peek]
  split
  · exact ⟨rfl, rfl, h⟩
  · split
    · exact ⟨rfl, rfl, h⟩
    · exact alike_parseBody h unit _

theorem alike_parseLayout (h : a.Same b) (layout : Layout) (unit : UnitId) :
    Alike (parseLayout layout unit a) (parseLayout layout unit b) := by
  cases layout with
  | fixed length => exact alike_parseBody h unit length
  | counted length => exact alike_parseCount h unit length
  | unbounded =>
    rw [parseLayout, parseLayout, h.length]
    exact alike_parseBody h unit _

theorem agree_readUnit (h : a.Same b) : ReadBuffer.Agree (readUnit a) (readUnit b) := by
  unfold readUnit
  rw [h.length, h.peek]
  split
  · exact ⟨rfl, h⟩
  split
  · exact ⟨rfl, h⟩
  split
  · exact ⟨rfl, h⟩
  rcases h.readByte.cases with ⟨_, a, b, ha, hb, h⟩ | ⟨unit, a, b, ha, hb, h⟩
  · rw [ha, hb]
    exact ⟨rfl, h⟩
  · rw [ha, hb]
    exact ⟨rfl, h⟩

/-- The unit is the same as well, if it is consumed. -/
theorem alike_parse (h : a.Same b) (state : State) :
    (parse state a).1 = (parse state b).1 ∧ (parse state a).2.1 = (parse state b).2.1 ∧
      (parse state a).2.2.1.Same (parse state b).2.2.1 ∧
      (parse state a).2.2.2 = (parse state b).2.2.2 := by
  have same {x y : Except RequestFault (Option Frame) × State × ReadBuffer} {unit : Option UnitId}
      (h : Alike x y) : x.1 = y.1 ∧ x.2.1 = y.2.1 ∧ x.2.2.Same y.2.2 ∧ unit = unit :=
    ⟨h.answer, h.state, h.buffer, rfl⟩
  cases state with
  | body unit count => exact same (alike_parseBody h unit count)
  | count unit count => exact same (alike_parseCount h unit count)
  | start =>
    unfold parse
    dsimp only
    rcases (agree_readUnit h).cases with ⟨_, a, b, ha, hb, h⟩ | ⟨found, a, b, ha, hb, h⟩
    · rw [ha, hb]
      exact ⟨rfl, rfl, h, rfl⟩
    · rw [ha, hb]
      cases found with
      | none => exact ⟨rfl, rfl, h, rfl⟩
      | some found => exact same (alike_parseLayout h found.1 found.2)

inductive Spoils : FrameFault → Prop
  | mismatch {received calculated : UInt16} (differs : received ≠ calculated) :
      Spoils (.checksumMismatch received calculated)
  | long {length : Nat} (long : Frame.maxPdu < length) : Spoils (.frameTooLong length Frame.maxPdu)

/-- A parser that waits for a count does not wait for more than a frame. -/
def State.Bounded : State → Prop
  | .count _ dataLength => dataLength ≤ 252
  | _ => True

/-- What a parser may answer, whatever it finds in its buffer: nothing ever goes wrong inside, and
while it waits there is room for more. -/
inductive Verdict (capacity : Nat) : Except RequestFault (Option Frame) → State → ReadBuffer → Prop
  | waits {state : State} {b : ReadBuffer} (bounded : state.Bounded)
      (short : b.contents.length < maxFrame) (keeps : b.capacity = capacity) :
      Verdict capacity (.ok none) state b
  | frame {frame : Frame} {b : ReadBuffer} (keeps : b.capacity = capacity) :
      Verdict capacity (.ok (some frame)) .start b
  | spoiled {fault : FrameFault} {b : ReadBuffer} (spoils : Spoils fault)
      (keeps : b.capacity = capacity) : Verdict capacity (.error (.badFrame fault)) .start b

theorem verdict_parseBody (unit : UnitId) (count : Nat) (b : ReadBuffer) :
    Verdict b.capacity (parseBody unit count b).1 (parseBody unit count b).2.1
      (parseBody unit count b).2.2 := by
  by_cases hlong : Frame.maxPdu < 1 + count
  · rw [parseBody, if_pos hlong]
    exact .spoiled (.long hlong) rfl
  have hshort : count ≤ 252 := by
    rw [Frame.maxPdu] at hlong
    omega
  cases hbody : body? unit count b.contents with
  | none =>
    have hlength := length_of_body?_none hbody
    have hmax : maxFrame = 256 := rfl
    have hwaits : b.length < 1 + count + 2 := by
      rw [ReadBuffer.length_contents] at hlength
      omega
    have hroom : b.contents.length < maxFrame := by omega
    rw [parseBody, if_neg hlong, if_pos hwaits]
    exact .waits trivial hroom rfl
  | some found =>
    obtain ⟨result, rest⟩ := found
    obtain ⟨code, data, low, high, hcontents, rfl, rfl⟩ := body?_eq_some hbody
    obtain ⟨after, hparse, -, hcapacity⟩ := parseBody_append unit hcontents hshort
    rw [hparse, judge]
    dsimp only
    split
    · exact .frame hcapacity
    · next hdiffers => exact .spoiled (.mismatch hdiffers) hcapacity

theorem verdict_parseCount (unit : UnitId) {count : Nat} (hcount : count ≤ 252) (b : ReadBuffer) :
    Verdict b.capacity (parseCount unit count b).1 (parseCount unit count b).2.1
      (parseCount unit count b).2.2 := by
  by_cases hshort : b.length < 1 + count
  · have hmax : maxFrame = 256 := rfl
    have hroom : b.contents.length < maxFrame := by
      rw [ReadBuffer.length_contents]
      omega
    rw [parseCount, if_pos hshort]
    exact .waits hcount hroom rfl
  have hindex : 1 + count - 1 < b.contents.length := by
    rw [ReadBuffer.length_contents]
    omega
  have hpeek := b.peek_eq_ok (List.getElem?_eq_getElem hindex)
  rw [parseCount, if_neg hshort, hpeek]
  exact verdict_parseBody unit _ b

theorem counted_eq {code : UInt8} {dataLength : Nat}
    (h : Layout.ofCode code = .counted dataLength) : dataLength = 5 := by
  unfold Layout.ofCode at h
  split at h
  · exact (Layout.counted.inj h).symm
  · exact (Layout.counted.inj h).symm
  · cases h
  · cases h

theorem verdict_parse {state : State} (h : state.Bounded) (b : ReadBuffer) :
    Verdict b.capacity (parse state b).1 (parse state b).2.1 (parse state b).2.2.1 := by
  cases state with
  | body unit count => exact verdict_parseBody unit count b
  | count unit count => exact verdict_parseCount unit h b
  | start =>
    rw [parse]
    rcases readUnit_cases b with ⟨hwaits, hshort⟩ | ⟨code, unit, after, hread, -, hcapacity⟩
    · rw [hwaits]
      rw [← ReadBuffer.length_contents] at hshort
      exact .waits trivial (Nat.lt_trans hshort (by decide)) rfl
    · rw [hread, ← hcapacity]
      dsimp only
      cases hlayout : Layout.ofCode code with
      | fixed length => exact verdict_parseBody unit length after
      | counted length =>
        have hlength : length ≤ 252 := Nat.le_trans (Nat.le_of_eq (counted_eq hlayout)) (by decide)
        exact verdict_parseCount unit hlength after
      | unbounded => exact verdict_parseBody unit _ after

end Rtu

structure Parsed.Same (x y : Parsed) : Prop where
  outcome : x.outcome = y.outcome
  parser : x.parser = y.parser
  buffer : x.buffer.Same y.buffer
  events : x.events = y.events

theorem Parser.same_parse {a b : ReadBuffer} (h : a.Same b) (p : Parser) (level : FrameLevel) :
    (p.parse a level).Same (p.parse b level) := by
  cases p with
  | mbap state =>
    obtain ⟨hanswer, hstate, hbuffer⟩ := Mbap.alike_parse h state
    refine ⟨hanswer, congrArg mbap hstate, hbuffer, ?_⟩
    simp only [parse, hanswer]
  | rtu state =>
    obtain ⟨hanswer, hstate, hbuffer, hunit⟩ := Rtu.alike_parse h state
    refine ⟨hanswer, congrArg rtu hstate, hbuffer, ?_⟩
    simp only [parse, hanswer, hunit]

namespace Reader

structure Same (x y : Reader) : Prop where
  parser : x.parser = y.parser
  buffer : x.buffer.Same y.buffer

variable {x y : Reader}

theorem Same.refl (r : Reader) : r.Same r := ⟨rfl, .refl _⟩

def blank (r : Reader) : Reader := { r with buffer := r.buffer.blank }

theorem Same.blank_eq (h : x.Same y) : x.blank = y.blank := by
  rw [blank, blank, h.parser, h.buffer.blank_eq]

theorem Same.of_blank (h : x.blank = y.blank) : x.Same y :=
  ⟨congrArg (·.parser) h, .of_blank (congrArg (·.buffer) h)⟩

theorem Same.room (h : x.Same y) : x.room = y.room := h.buffer.prepare.room

theorem Same.reset (h : x.Same y) : x.reset.Same y.reset :=
  ⟨congrArg Parser.reset h.parser, h.buffer.clear⟩

theorem Same.receive (h : x.Same y) (level : PhysicalLevel) (got : Except IoKind Bytes) :
    (x.receive level got).outcome = (y.receive level got).outcome ∧
      (x.receive level got).reader.Same (y.receive level got).reader ∧
      (x.receive level got).events = (y.receive level got).events := by
  obtain ⟨hanswer, hbuffer⟩ := h.buffer.prepare.receive got
  exact ⟨hanswer, ⟨h.parser, hbuffer⟩, rfl⟩

end Reader

end ModbusSlave
