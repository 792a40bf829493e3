import ModbusSlave.Proofs.Stream.LooseBuffer

/-!
# Parsing with every index in doubt

The parsers on a buffer without proofs, one call at a time: a parser answers, or it calls itself in
another state. Besides the buffer, a parser can only be stuck at a difference of its own, or when it
has called itself more often than it may. It never is, whatever it remembers and whatever waits, and
three calls inside each other are enough.
-/
namespace ModbusSlave

/-- What one call of a parser comes to: an answer, or a call of itself in another state. -/
inductive Turn (σ : Type)
  | answer (outcome : Except RequestFault (Option Frame)) (state : σ) (b : LooseBuffer)
  | again (state : σ) (b : LooseBuffer)

/-- A parser with at most `depth` calls, each inside the one before. -/
def calls? {σ : Type} (turn? : σ → LooseBuffer → Option (Turn σ)) (depth : Nat) (state : σ)
    (b : LooseBuffer) : Option (Except RequestFault (Option Frame) × σ × LooseBuffer) :=
  match depth with
  | 0 => none
  | depth + 1 => do
    match ← turn? state b with
    | .answer outcome state b => some (outcome, state, b)
    | .again state b => calls? turn? depth state b

/-- What a parser comes to, without the proofs of its buffer. -/
def loosely {α σ : Type} (parsed : α × σ × ReadBuffer) : α × σ × LooseBuffer :=
  (parsed.1, parsed.2.1, parsed.2.2.loose)

def Turn.last {σ : Type} (parsed : Except RequestFault (Option Frame) × σ × ReadBuffer) : Turn σ :=
  .answer parsed.1 parsed.2.1 parsed.2.2.loose

section Calls

variable {σ : Type} {turn? : σ → LooseBuffer → Option (Turn σ)} {state after : σ}
  {b b' : LooseBuffer}

theorem calls?_of_last {parsed : Except RequestFault (Option Frame) × σ × ReadBuffer}
    (h : turn? state b = some (.last parsed)) (depth : Nat) :
    calls? turn? (depth + 1) state b = some (loosely parsed) := by
  rw [calls?, h]
  rfl

theorem calls?_of_again (h : turn? state b = some (.again after b')) (depth : Nat) :
    calls? turn? (depth + 1) state b = calls? turn? depth after b' := by
  rw [calls?, h]
  rfl

end Calls

namespace Mbap

def header? (transaction protocol length : UInt16) (unit : UInt8) :
    Option (Except FrameFault Header) :=
  if protocol ≠ 0 then some (.error (.unknownProtocolId protocol))
  else if maxLengthField < length.toNat then
    some (.error (.mbapLengthTooBig length.toNat maxLengthField))
  else if length.toNat = 0 then some (.error .mbapLengthZero)
  else if length.toNat = 1 then some (.error .missingFunctionCode)
  else do
    let pduLength ← length.toNat.psub 1
    some (.ok ⟨transaction, ⟨unit⟩, pduLength⟩)

def readHeader? (b : LooseBuffer) : Option (Except RequestFault Header × LooseBuffer) := do
  match ← b.readBig? with
  | (.error shortage, b) => some (.error (.internal shortage), b)
  | (.ok transaction, b) =>
    match ← b.readBig? with
    | (.error shortage, b) => some (.error (.internal shortage), b)
    | (.ok protocol, b) =>
      match ← b.readBig? with
      | (.error shortage, b) => some (.error (.internal shortage), b)
      | (.ok length, b) =>
        match ← b.readByte? with
        | (.error shortage, b) => some (.error (.internal shortage), b)
        | (.ok unit, b) =>
          let header ← header? transaction protocol length unit
          some (header.mapError .badFrame, b)

def readBody? (header : Header) (b : LooseBuffer) :
    Option (Except RequestFault Frame × LooseBuffer) := do
  match ← b.read? header.pduLength with
  | (.error shortage, b) => some (.error (.internal shortage), b)
  | (.ok [], b) => some (.error (.badFrame .missingFunctionCode), b)
  | (.ok (function :: data), b) =>
    some (.ok ⟨.mbap header.transaction, header.unit, function, data⟩, b)

def turn? (s : State) (b : LooseBuffer) : Option (Turn State) :=
  match s with
  | .body header => do
    let length ← b.length?
    if length < header.pduLength then some (.answer (.ok none) (.body header) b)
    else
      match ← readBody? header b with
      | (.error fault, b) => some (.answer (.error fault) (.body header) b)
      | (.ok frame, b) => some (.answer (.ok (some frame)) .start b)
  | .start => do
    let length ← b.length?
    if length < headerLength then some (.answer (.ok none) .start b)
    else
      match ← readHeader? b with
      | (.error fault, b) => some (.answer (.error fault) .start b)
      | (.ok header, b) => some (.again (.body header) b)

theorem header?_eq (transaction protocol length : UInt16) (unit : UInt8) :
    header? transaction protocol length unit =
      some (Header.of? transaction protocol length unit) := by
  rw [header?, Header.of?]
  split_ifs with h₁ h₂ h₃ h₄
  · rfl
  · rfl
  · rfl
  · rfl
  · rw [Nat.psub_eq_sub (by omega)]
    rfl

theorem readHeader?_loose (b : ReadBuffer) :
    readHeader? b.loose = some ((readHeader b).1, (readHeader b).2.loose) := by
  rw [readHeader?, readHeader, ReadBuffer.readBig?_loose]
  rcases b.readBig with ⟨_ | transaction, b⟩
  · rfl
  dsimp only [Option.bind_eq_bind, Option.bind_some]
  rw [ReadBuffer.readBig?_loose]
  rcases b.readBig with ⟨_ | protocol, b⟩
  · rfl
  dsimp only [Option.bind_eq_bind, Option.bind_some]
  rw [ReadBuffer.readBig?_loose]
  rcases b.readBig with ⟨_ | length, b⟩
  · rfl
  dsimp only [Option.bind_eq_bind, Option.bind_some]
  rw [ReadBuffer.readByte?_loose]
  rcases b.readByte with ⟨_ | unit, b⟩
  · rfl
  dsimp only [Option.bind_eq_bind, Option.bind_some]
  rw [header?_eq]
  rfl

theorem readBody?_loose (header : Header) (b : ReadBuffer) :
    readBody? header b.loose = some ((readBody header b).1, (readBody header b).2.loose) := by
  rw [readBody?, readBody, ReadBuffer.read?_loose]
  rcases b.read header.pduLength with ⟨_ | _ | ⟨function, data⟩, b⟩
  · rfl
  · rfl
  · rfl

theorem turn?_body (header : Header) (b : ReadBuffer) :
    turn? (.body header) b.loose = some (.last (parseBody header b)) := by
  rw [turn?, ReadBuffer.length?_loose, parseBody]
  dsimp only [Option.bind_eq_bind, Option.bind_some]
  split_ifs
  · rfl
  · rw [readBody?_loose]
    rcases readBody header b with ⟨_ | frame, b⟩
    · rfl
    · rfl

theorem calls?_loose (s : State) (b : ReadBuffer) (depth : Nat) :
    calls? turn? (depth + 2) s b.loose = some (loosely (parse s b)) := by
  cases s with
  | body header => exact calls?_of_last (turn?_body header b) (depth + 1)
  | start =>
    rw [parse]
    by_cases hshort : b.length < headerLength
    · have hturn : turn? .start b.loose = some (.answer (.ok none) .start b.loose) := by
        rw [turn?, ReadBuffer.length?_loose]
        exact if_pos hshort
      rw [if_pos hshort]
      exact calls?_of_last hturn (depth + 1)
    · rw [if_neg hshort]
      rcases hread : readHeader b with ⟨fault | header, after⟩
      · have hturn : turn? .start b.loose = some (.answer (.error fault) .start after.loose) := by
          rw [turn?, ReadBuffer.length?_loose]
          dsimp only [Option.bind_eq_bind, Option.bind_some]
          rw [if_neg hshort, readHeader?_loose, hread]
          rfl
        exact calls?_of_last hturn (depth + 1)
      · have hturn : turn? .start b.loose = some (.again (.body header) after.loose) := by
          rw [turn?, ReadBuffer.length?_loose]
          dsimp only [Option.bind_eq_bind, Option.bind_some]
          rw [if_neg hshort, readHeader?_loose, hread]
          rfl
        rw [calls?_of_again hturn]
        exact calls?_of_last (turn?_body header after) depth

end Mbap

namespace Rtu

def readUnit? (b : LooseBuffer) :
    Option (Except RequestFault (Option (Layout × UnitId)) × LooseBuffer) := do
  let length ← b.length?
  if length < 2 then some (.ok none, b)
  else
    match ← b.peek? 1 with
    | .error shortage => some (.error (.internal shortage), b)
    | .ok code =>
      if Layout.ofCode code = .unbounded ∧ length < minFrame then some (.ok none, b)
      else
        match ← b.readByte? with
        | (.error shortage, b) => some (.error (.internal shortage), b)
        | (.ok unit, b) => some (.ok (some (Layout.ofCode code, ⟨unit⟩)), b)

/-- The state behind the unit. -/
def enter? (layout : Layout) (unit : UnitId) (b : LooseBuffer) : Option State :=
  match layout with
  | .fixed length => some (.body unit length)
  | .counted length => some (.count unit length)
  | .unbounded => do
    let length ← b.length?
    let rest ← length.psub 1
    let dataLength ← rest.psub 2
    some (.body unit dataLength)

def turnStart? (b : LooseBuffer) : Option (Turn State) := do
  match ← readUnit? b with
  | (.error fault, b) => some (.answer (.error fault) .start b)
  | (.ok none, b) => some (.answer (.ok none) .start b)
  | (.ok (some (layout, unit)), b) =>
    let state ← enter? layout unit b
    some (.again state b)

def turnCount? (unit : UnitId) (dataLength : Nat) (b : LooseBuffer) : Option (Turn State) := do
  let length ← b.length?
  if length < 1 + dataLength then some (.answer (.ok none) (.count unit dataLength) b)
  else
    let index ← (1 + dataLength).psub 1
    match ← b.peek? index with
    | .error shortage => some (.answer (.error (.internal shortage)) (.count unit dataLength) b)
    | .ok more => some (.again (.body unit (dataLength + more.toNat)) b)

def turnBody? (unit : UnitId) (dataLength : Nat) (b : LooseBuffer) : Option (Turn State) :=
  if Frame.maxPdu < 1 + dataLength then
    some (.answer (.error (.badFrame (.frameTooLong (1 + dataLength) Frame.maxPdu))) .start b)
  else do
    let length ← b.length?
    if length < 1 + dataLength + 2 then some (.answer (.ok none) (.body unit dataLength) b)
    else
      match ← b.read? (1 + dataLength) with
      | (.error shortage, b) =>
        some (.answer (.error (.internal shortage)) (.body unit dataLength) b)
      | (.ok [], b) => some (.answer (.error (.badFrame (.frameTooShort 1))) .start b)
      | (.ok (function :: data), b) =>
        match ← b.readLittle? with
        | (.error shortage, b) =>
          some (.answer (.error (.internal shortage)) (.body unit dataLength) b)
        | (.ok received, b) =>
          let frame : Frame := ⟨.rtu, unit, function, data⟩
          if received = frame.checksum then some (.answer (.ok (some frame)) .start b)
          else
            some (.answer (.error (.badFrame (.checksumMismatch received frame.checksum))) .start b)

def turn? (s : State) (b : LooseBuffer) : Option (Turn State) :=
  match s with
  | .start => turnStart? b
  | .count unit dataLength => turnCount? unit dataLength b
  | .body unit dataLength => turnBody? unit dataLength b

theorem turnBody?_loose (unit : UnitId) (dataLength : Nat) (b : ReadBuffer) :
    turnBody? unit dataLength b.loose = some (.last (parseBody unit dataLength b)) := by
  by_cases hlong : Frame.maxPdu < 1 + dataLength
  · rw [turnBody?, parseBody, if_pos hlong, if_pos hlong]
    rfl
  rw [turnBody?, parseBody, if_neg hlong, if_neg hlong, ReadBuffer.length?_loose]
  dsimp only [Option.bind_eq_bind, Option.bind_some]
  by_cases hshort : b.length < 1 + dataLength + 2
  · rw [if_pos hshort, if_pos hshort]
    rfl
  rw [if_neg hshort, if_neg hshort, ReadBuffer.read?_loose]
  rcases b.read (1 + dataLength) with ⟨_ | _ | ⟨function, data⟩, b⟩
  · rfl
  · rfl
  dsimp only [Option.bind_eq_bind, Option.bind_some]
  rw [ReadBuffer.readLittle?_loose]
  rcases b.readLittle with ⟨_ | received, b⟩
  · rfl
  dsimp only [Option.bind_eq_bind, Option.bind_some]
  split
  · rfl
  · rfl

theorem calls?_body (unit : UnitId) (dataLength : Nat) (b : ReadBuffer) (depth : Nat) :
    calls? turn? (depth + 1) (.body unit dataLength) b.loose =
      some (loosely (parseBody unit dataLength b)) :=
  calls?_of_last (turnBody?_loose unit dataLength b) depth

theorem calls?_count (unit : UnitId) (dataLength : Nat) (b : ReadBuffer) (depth : Nat) :
    calls? turn? (depth + 2) (.count unit dataLength) b.loose =
      some (loosely (parseCount unit dataLength b)) := by
  have hturn : turn? (.count unit dataLength) b.loose = if b.length < 1 + dataLength then
      some (.answer (.ok none) (.count unit dataLength) b.loose) else
      match b.peek (1 + dataLength - 1) with
      | .error shortage =>
        some (.answer (.error (.internal shortage)) (.count unit dataLength) b.loose)
      | .ok more => some (.again (.body unit (dataLength + more.toNat)) b.loose) := by
    rw [turn?, turnCount?, ReadBuffer.length?_loose,
      Nat.psub_eq_sub (Nat.le_add_right 1 dataLength)]
    dsimp only [Option.bind_eq_bind, Option.bind_some]
    rw [ReadBuffer.peek?_loose]
    rcases b.peek (1 + dataLength - 1) with _ | more
    · rfl
    · rfl
  rw [parseCount]
  split_ifs at hturn ⊢
  · exact calls?_of_last hturn (depth + 1)
  · generalize b.peek (1 + dataLength - 1) = peeked at hturn ⊢
    rcases peeked with shortage | more
    · exact calls?_of_last hturn (depth + 1)
    · rw [calls?_of_again hturn]
      exact calls?_body unit _ b depth

theorem readUnit?_loose (b : ReadBuffer) :
    readUnit? b.loose = some ((readUnit b).1, (readUnit b).2.loose) := by
  rw [readUnit?, ReadBuffer.length?_loose, readUnit]
  dsimp only [Option.bind_eq_bind, Option.bind_some]
  by_cases hshort : b.length < 2
  · rw [if_pos hshort, if_pos hshort]
  rw [if_neg hshort, if_neg hshort, ReadBuffer.peek?_loose]
  rcases b.peek 1 with _ | code
  · rfl
  dsimp only [Option.bind_eq_bind, Option.bind_some]
  by_cases hwaits : Layout.ofCode code = .unbounded ∧ b.length < minFrame
  · rw [if_pos hwaits, if_pos hwaits]
  rw [if_neg hwaits, if_neg hwaits, ReadBuffer.readByte?_loose]
  rcases b.readByte with ⟨_ | unit, b⟩
  · rfl
  · rfl

/-- Three bytes are left behind the unit of a frame that goes up to the end. -/
theorem length_of_readUnit {b after : ReadBuffer} {unit : UnitId}
    (h : readUnit b = (.ok (some (.unbounded, unit)), after)) : 3 ≤ after.length := by
  rw [readUnit] at h
  by_cases hshort : b.length < 2
  · rw [if_pos hshort] at h
    cases h
  rw [if_neg hshort] at h
  rcases hpeek : b.peek 1 with _ | code
  · rw [hpeek] at h
    cases h
  rw [hpeek] at h
  dsimp only at h
  by_cases hwaits : Layout.ofCode code = .unbounded ∧ b.length < minFrame
  · rw [if_pos hwaits] at h
    cases h
  rw [if_neg hwaits] at h
  cases hcontents : b.contents with
  | nil =>
    rw [← ReadBuffer.length_contents, hcontents] at hshort
    exact absurd (by decide) hshort
  | cons x rest =>
    obtain ⟨left, hread, hrest, -⟩ := b.readByte_eq_ok hcontents
    rw [hread] at h
    simp only [Prod.mk.injEq, Except.ok.injEq, Option.some.injEq] at h
    obtain ⟨⟨hlayout, -⟩, rfl⟩ := h
    have hlong : minFrame ≤ b.length := Nat.le_of_not_lt fun hless => hwaits ⟨hlayout, hless⟩
    rw [← ReadBuffer.length_contents, hcontents, ← hrest, List.length_cons,
      ReadBuffer.length_contents, minFrame] at hlong
    omega

theorem calls?_unit {layout : Layout} {unit : UnitId} {b after : ReadBuffer}
    (h : readUnit b = (.ok (some (layout, unit)), after)) (depth : Nat) :
    calls? turn? (depth + 3) .start b.loose = some (loosely (parseLayout layout unit after)) := by
  have hstart : ∀ state, enter? layout unit after.loose = some state →
      turn? .start b.loose = some (.again state after.loose) := by
    intro state hstate
    rw [turn?, turnStart?, readUnit?_loose, h]
    dsimp only [Option.bind_eq_bind, Option.bind_some]
    rw [hstate]
    rfl
  cases layout with
  | fixed length =>
    rw [calls?_of_again (hstart _ rfl)]
    exact calls?_body unit length after (depth + 1)
  | counted length =>
    rw [calls?_of_again (hstart _ rfl)]
    exact calls?_count unit length after depth
  | unbounded =>
    have hlength := length_of_readUnit h
    have henter : enter? .unbounded unit after.loose =
        some (.body unit (after.length - 1 - 2)) := by
      rw [enter?, ReadBuffer.length?_loose]
      dsimp only [Option.bind_eq_bind, Option.bind_some]
      rw [Nat.psub_eq_sub (by omega)]
      dsimp only [Option.bind_eq_bind, Option.bind_some]
      rw [Nat.psub_eq_sub (by omega)]
      rfl
    rw [calls?_of_again (hstart _ henter)]
    exact calls?_body unit _ after (depth + 1)

theorem calls?_loose (s : State) (b : ReadBuffer) (depth : Nat) :
    calls? turn? (depth + 3) s b.loose =
      some ((parse s b).1, (parse s b).2.1, (parse s b).2.2.1.loose) := by
  cases s with
  | body unit dataLength => exact calls?_body unit dataLength b (depth + 2)
  | count unit dataLength => exact calls?_count unit dataLength b (depth + 1)
  | start =>
    rw [parse]
    rcases hread : readUnit b with ⟨_ | _ | ⟨layout, unit⟩, after⟩
    · rw [calls?, turn?, turnStart?, readUnit?_loose, hread]
      rfl
    · rw [calls?, turn?, turnStart?, readUnit?_loose, hread]
      rfl
    · exact calls?_unit hread depth

end Rtu

structure LooseReader where
  parser : Parser
  buffer : LooseBuffer

def Reader.loose (r : Reader) : LooseReader := ⟨r.parser, r.buffer.loose⟩

namespace LooseReader

/-- One parsing, with at most three calls of the parser inside each other. -/
def parse? (r : LooseReader) : Option (Except RequestFault (Option Frame) × LooseReader) :=
  match r.parser with
  | .mbap state =>
    (calls? Mbap.turn? 3 state r.buffer).map fun (outcome, state, b) => (outcome, ⟨.mbap state, b⟩)
  | .rtu state =>
    (calls? Rtu.turn? 3 state r.buffer).map fun (outcome, state, b) => (outcome, ⟨.rtu state, b⟩)

def receive? (r : LooseReader) (script : Script) :
    Option (Except IoKind Nat × LooseReader × Script) := do
  let (outcome, b, script) ← r.buffer.readSome? script
  some (outcome, ⟨r.parser, b⟩, script)

/-- The next frame, with at most `rounds` parsings. -/
def nextFrame? (rounds : Nat) (r : LooseReader) (script : Script) :
    Option (Except RequestFault Frame × LooseReader × Script) :=
  match rounds with
  | 0 => none
  | rounds + 1 => do
    match ← r.parse? with
    | (.error fault, r) => some (.error fault, r, script)
    | (.ok (some frame), r) => some (.ok frame, r, script)
    | (.ok none, r) =>
      match ← r.receive? script with
      | (.error kind, r, script) => some (.error (.io kind), r, script)
      | (.ok _, r, script) => r.nextFrame? rounds script

end LooseReader

namespace Reader

/-- No parsing is ever stuck, whatever the parser remembers and whatever waits in the buffer. -/
theorem parse?_loose (r : Reader) (level : FrameLevel) :
    let parsed := r.parser.parse r.buffer level
    r.loose.parse? = some (parsed.outcome, Reader.loose ⟨parsed.parser, parsed.buffer⟩) := by
  obtain ⟨parser, b⟩ := r
  cases parser with
  | mbap state =>
    have hcalls := Mbap.calls?_loose state b 1
    dsimp only [LooseReader.parse?, Reader.loose]
    rw [hcalls]
    rfl
  | rtu state =>
    have hcalls := Rtu.calls?_loose state b 0
    dsimp only [LooseReader.parse?, Reader.loose]
    rw [hcalls]
    rfl

theorem receive?_loose (r : Reader) (level : PhysicalLevel) (script : Script) :
    let got := script.read r.room
    let received := r.receive level got.1
    r.loose.receive? script = some (received.outcome, received.reader.loose, got.2) := by
  dsimp only [LooseReader.receive?, Reader.loose]
  rw [ReadBuffer.readSome?_loose]
  rfl

/-- Looking for the next frame is never stuck, and it ends: each further round has taken a byte off
the stream. -/
theorem nextFrame?_loose (r : Reader) (level : DecodeLevel) (script : Script) {rounds : Nat}
    (h : script.content.length < rounds) :
    let next := r.nextFrame level script
    r.loose.nextFrame? rounds script = some (next.outcome, next.reader.loose, next.script) := by
  induction rounds generalizing r script with
  | zero => exact absurd h (Nat.not_lt_zero _)
  | succ rounds ih =>
    have hparse := r.parse?_loose level.frame
    rw [nextFrame_eq, LooseReader.nextFrame?]
    generalize r.parser.parse r.buffer level.frame = parsed at hparse ⊢
    obtain ⟨outcome, parser, b, events⟩ := parsed
    rw [hparse]
    rcases outcome with fault | _ | frame
    · rfl
    · have hreceive := receive?_loose ⟨parser, b⟩ level.physical script
      dsimp only [Option.bind_eq_bind, Option.bind_some]
      rw [hreceive]
      rcases hread : script.read (room ⟨parser, b⟩) with ⟨kind | _ | ⟨x, bytes⟩, rest⟩
      · rfl
      · rfl
      · have hless : rest.content.length < rounds := by
          rw [Script.content_read hread, List.length_append, List.length_cons] at h
          omega
        exact ih _ rest hless
    · rfl

end Reader

end ModbusSlave
