import ModbusSlave.Proofs.Stream.Reading

/-!
# The rounds of a call

A call parses and reads in turn. The rules below say how it goes on and how it ends, so that what
every round keeps is kept by the call. It ends in an error of the stream only while its parser
waits, and a parser that waits goes on waiting until bytes come in.
-/
namespace ModbusSlave

namespace Script

/-- What is left of a script behind some reads of it that brought bytes. -/
inductive Leaves : Script → Script → Prop
  | here {script : Script} : Leaves script script
  | behind {script rest left : Script} {room : Nat} {x : UInt8} {bytes : Bytes}
      (read : script.read room = (.ok (x :: bytes), rest)) (later : Leaves rest left) :
      Leaves script left

/-- The stream itself gives an error: it fails, or it delivers nothing, as it does at its end. -/
inductive Breaks : Script → IoKind → Script → Prop
  | failure {kind : IoKind} {rest : Script} : Breaks (.failure kind :: rest) kind rest
  | nothing {rest : Script} : Breaks (.bytes [] :: rest) .unexpectedEof rest
  | ended : Breaks [] .unexpectedEof []

variable {room : Nat} {script rest left : Script}

theorem breaks_of_error {kind : IoKind} (h : script.read room = (.error kind, rest)) :
    script.Breaks kind rest := by
  match script with
  | [] => cases h
  | .failure _ :: _ =>
    cases h
    exact .failure
  | .bytes _ :: _ =>
    rw [read] at h
    split_ifs at h <;> cases h

theorem breaks_of_nothing (hroom : 0 < room) (h : script.read room = (.ok [], rest)) :
    script.Breaks .unexpectedEof rest := by
  match script with
  | [] =>
    cases h
    exact .ended
  | .failure _ :: _ => cases h
  | .bytes [] :: _ =>
    rw [read, List.length_nil, if_pos (Nat.zero_le room)] at h
    cases h
    exact .nothing
  | .bytes (x :: bytes) :: _ =>
    obtain ⟨n, rfl⟩ := Nat.exists_eq_succ_of_ne_zero (Nat.ne_of_gt hroom)
    rw [read] at h
    split_ifs at h
    · cases h
    · cases h

theorem Breaks.shorter {kind : IoKind} (h : script.Breaks kind rest) :
    rest = [] ∨ rest.length < script.length := by
  cases h with
  | failure => exact .inr (Nat.lt_succ_self _)
  | nothing => exact .inr (Nat.lt_succ_self _)
  | ended => exact .inl rfl

theorem length_le_of_read {got : Except IoKind Bytes} (h : script.read room = (got, rest)) :
    rest.length ≤ script.length := by
  match script with
  | [] =>
    cases h
    exact Nat.le_refl _
  | .failure _ :: _ =>
    cases h
    exact Nat.le_succ _
  | .bytes _ :: _ =>
    rw [read] at h
    split_ifs at h
    · cases h
      exact Nat.le_succ _
    · cases h
      exact Nat.le_refl _

theorem Leaves.length_le (h : script.Leaves left) : left.length ≤ script.length := by
  induction h with
  | here => exact Nat.le_refl _
  | behind read later ih => exact Nat.le_trans ih (length_le_of_read read)

end Script

namespace Reader

/-- A reader after one parsing. -/
def parsed (r : Reader) (level : FrameLevel) : Reader :=
  ⟨(r.parser.parse r.buffer level).parser, (r.parser.parse r.buffer level).buffer⟩

/-- A call of a reader finds a result, and leaves a reader and a script. -/
inductive Finds (level : DecodeLevel) :
    Reader → Script → Except RequestFault Frame → Reader → Script → Prop
  | frame {r : Reader} {script : Script} {frame : Frame}
      (outcome : (r.parser.parse r.buffer level.frame).outcome = .ok (some frame)) :
      Finds level r script (.ok frame) (r.parsed level.frame) script
  | fault {r : Reader} {script : Script} {fault : RequestFault}
      (outcome : (r.parser.parse r.buffer level.frame).outcome = .error fault) :
      Finds level r script (.error fault) (r.parsed level.frame) script
  | failure {r : Reader} {script rest : Script} {kind : IoKind}
      (waits : (r.parser.parse r.buffer level.frame).outcome = .ok none)
      (read : script.read (r.parsed level.frame).room = (.error kind, rest)) :
      Finds level r script (.error (.io kind))
        ⟨(r.parsed level.frame).parser, (r.parsed level.frame).buffer.prepare⟩ rest
  | nothing {r : Reader} {script rest : Script}
      (waits : (r.parser.parse r.buffer level.frame).outcome = .ok none)
      (read : script.read (r.parsed level.frame).room = (.ok [], rest)) :
      Finds level r script (.error (.io .unexpectedEof))
        ⟨(r.parsed level.frame).parser, (r.parsed level.frame).buffer.prepare⟩ rest
  | more {r after : Reader} {script rest left : Script} {x : UInt8} {bytes : Bytes}
      {outcome : Except RequestFault Frame}
      (waits : (r.parser.parse r.buffer level.frame).outcome = .ok none)
      (read : script.read (r.parsed level.frame).room = (.ok (x :: bytes), rest))
      (later : Finds level ((r.parsed level.frame).receive level.physical (.ok (x :: bytes))).reader
        rest outcome after left) :
      Finds level r script outcome after left

theorem finds (r : Reader) (level : DecodeLevel) (script : Script) :
    Finds level r script (r.nextFrame level script).outcome (r.nextFrame level script).reader
      (r.nextFrame level script).script := by
  -- Each further round takes bytes off the script.
  induction hn : script.content.length using Nat.strongRecOn generalizing r script with
  | ind n ih =>
    rw [nextFrame_eq]
    dsimp only
    cases houtcome : (r.parser.parse r.buffer level.frame).outcome with
    | error fault => exact .fault houtcome
    | ok answer =>
      cases answer with
      | some frame => exact .frame houtcome
      | none =>
        have hparsed : (⟨(r.parser.parse r.buffer level.frame).parser,
            (r.parser.parse r.buffer level.frame).buffer⟩ : Reader) = r.parsed level.frame := rfl
        dsimp only
        rw [hparsed]
        rcases hread : script.read (r.parsed level.frame).room with ⟨kind | _ | ⟨x, bytes⟩, rest⟩
        · exact .failure houtcome hread
        · exact .nothing houtcome hread
        · have hless : rest.content.length < n := by
            rw [← hn, Script.content_read hread, List.length_append, List.length_cons]
            omega
          exact .more houtcome hread (ih _ hless _ rest rfl)

variable {level : DecodeLevel} {r after : Reader} {script left : Script}
  {outcome : Except RequestFault Frame}

theorem Finds.length_le (h : Finds level r script outcome after left) :
    left.length ≤ script.length := by
  induction h with
  | frame => exact Nat.le_refl _
  | fault => exact Nat.le_refl _
  | failure waits read => exact Script.length_le_of_read read
  | nothing waits read => exact Script.length_le_of_read read
  | more waits read later ih => exact Nat.le_trans ih (Script.length_le_of_read read)

end Reader

/-- The bytes that wait are not enough for the parser to go on. -/
inductive Parser.Lacks : Parser → Bytes → Prop
  | header {bytes : Bytes} (short : bytes.length < Mbap.headerLength) : Lacks (.mbap .start) bytes
  | pdu {header : Mbap.Header} {bytes : Bytes} (short : bytes.length < header.pduLength) :
      Lacks (.mbap (.body header)) bytes
  | code {bytes : Bytes} (short : bytes.length < 2) : Lacks (.rtu .start) bytes
  | frame {bytes : Bytes} {code : UInt8} (second : bytes[1]? = some code)
      (unbounded : Rtu.Layout.ofCode code = .unbounded) (short : bytes.length < Rtu.minFrame) :
      Lacks (.rtu .start) bytes
  | count {unit : UnitId} {dataLength : Nat} {bytes : Bytes}
      (short : bytes.length < 1 + dataLength) : Lacks (.rtu (.count unit dataLength)) bytes
  | body {unit : UnitId} {dataLength : Nat} {bytes : Bytes} (fits : 1 + dataLength ≤ Frame.maxPdu)
      (short : bytes.length < 1 + dataLength + 2) : Lacks (.rtu (.body unit dataLength)) bytes

namespace Mbap

theorem lacks_parseBody {header : Header} {b : ReadBuffer}
    (h : (parseBody header b).1 = .ok none) :
    (Parser.mbap (parseBody header b).2.1).Lacks (parseBody header b).2.2.contents := by
  unfold parseBody at h ⊢
  split at h
  · next hshort =>
    rw [if_pos hshort]
    rw [← ReadBuffer.length_contents] at hshort
    exact .pdu hshort
  · next hlong =>
    rcases hread : readBody header b with ⟨_ | frame, after⟩
    · rw [hread] at h
      cases h
    · rw [hread] at h
      cases h

theorem lacks_parse {state : State} {b : ReadBuffer} (h : (parse state b).1 = .ok none) :
    (Parser.mbap (parse state b).2.1).Lacks (parse state b).2.2.contents := by
  cases state with
  | body header => exact lacks_parseBody h
  | start =>
    unfold parse at h ⊢
    dsimp only at h ⊢
    by_cases hshort : b.length < headerLength
    · rw [if_pos hshort]
      rw [← ReadBuffer.length_contents] at hshort
      exact .header hshort
    · rw [if_neg hshort] at h ⊢
      generalize readHeader b = header at h ⊢
      rcases header with ⟨fault | header, after⟩
      · cases h
      · exact lacks_parseBody h

end Mbap

namespace Rtu

theorem lacks_parseBody {unit : UnitId} {dataLength : Nat} {b : ReadBuffer}
    (h : (parseBody unit dataLength b).1 = .ok none) :
    (Parser.rtu (parseBody unit dataLength b).2.1).Lacks
      (parseBody unit dataLength b).2.2.contents := by
  rw [parseBody] at h ⊢
  by_cases hlong : Frame.maxPdu < 1 + dataLength
  · rw [if_pos hlong] at h
    cases h
  rw [if_neg hlong] at h ⊢
  by_cases hshort : b.length < 1 + dataLength + 2
  · rw [if_pos hshort]
    rw [← ReadBuffer.length_contents] at hshort
    exact .body (Nat.le_of_not_lt hlong) hshort
  rw [if_neg hshort] at h
  rcases hread : b.read (1 + dataLength) with ⟨_ | _ | ⟨function, data⟩, after⟩
  · rw [hread] at h
    cases h
  · rw [hread] at h
    cases h
  rw [hread] at h
  dsimp only at h
  rcases hlittle : after.readLittle with ⟨_ | received, left⟩
  · rw [hlittle] at h
    cases h
  rw [hlittle] at h
  dsimp only at h
  split at h
  · cases h
  · cases h

theorem lacks_parseCount {unit : UnitId} {dataLength : Nat} {b : ReadBuffer}
    (h : (parseCount unit dataLength b).1 = .ok none) :
    (Parser.rtu (parseCount unit dataLength b).2.1).Lacks
      (parseCount unit dataLength b).2.2.contents := by
  rw [parseCount] at h ⊢
  by_cases hshort : b.length < 1 + dataLength
  · rw [if_pos hshort]
    rw [← ReadBuffer.length_contents] at hshort
    exact .count hshort
  rw [if_neg hshort] at h ⊢
  generalize b.peek (1 + dataLength - 1) = peeked at h ⊢
  cases peeked with
  | error shortage => cases h
  | ok more => exact lacks_parseBody h

theorem lacks_readUnit {b after : ReadBuffer} (h : readUnit b = (.ok none, after)) :
    (Parser.rtu .start).Lacks after.contents := by
  rw [readUnit] at h
  by_cases hshort : b.length < 2
  · rw [if_pos hshort] at h
    cases h
    rw [← ReadBuffer.length_contents] at hshort
    exact .code hshort
  have hindex : 1 < b.contents.length := by
    rw [ReadBuffer.length_contents]
    omega
  have hsecond := List.getElem?_eq_getElem hindex
  rw [if_neg hshort, b.peek_eq_ok hsecond] at h
  dsimp only at h
  by_cases hwaits : Layout.ofCode b.contents[1] = .unbounded ∧ b.length < minFrame
  · rw [if_pos hwaits] at h
    cases h
    obtain ⟨hunbounded, hless⟩ := hwaits
    rw [← ReadBuffer.length_contents] at hless
    exact .frame hsecond hunbounded hless
  · rw [if_neg hwaits] at h
    rcases hread : b.readByte with ⟨_ | unit, left⟩
    · rw [hread] at h
      cases h
    · rw [hread] at h
      cases h

theorem lacks_parse {state : State} {b : ReadBuffer} (h : (parse state b).1 = .ok none) :
    (Parser.rtu (parse state b).2.1).Lacks (parse state b).2.2.1.contents := by
  cases state with
  | body unit dataLength => exact lacks_parseBody h
  | count unit dataLength => exact lacks_parseCount h
  | start =>
    unfold parse at h ⊢
    dsimp only at h ⊢
    rcases hread : readUnit b with ⟨_ | _ | ⟨layout, unit⟩, after⟩
    · rw [hread] at h
      cases h
    · exact lacks_readUnit hread
    · rw [hread] at h
      dsimp only at h ⊢
      cases layout with
      | fixed length => exact lacks_parseBody h
      | counted length => exact lacks_parseCount h
      | unbounded => exact lacks_parseBody h

end Rtu

theorem Parser.lacks_parse {p : Parser} {b : ReadBuffer} {level : FrameLevel}
    (h : (p.parse b level).outcome = .ok none) :
    (p.parse b level).parser.Lacks (p.parse b level).buffer.contents := by
  cases p with
  | mbap state => exact Mbap.lacks_parse h
  | rtu state => exact Rtu.lacks_parse h

/-- Without more bytes, a parser that lacks them waits and changes nothing. -/
theorem Parser.Lacks.parse {p : Parser} {b : ReadBuffer} (h : p.Lacks b.contents)
    (level : FrameLevel) :
    (p.parse b level).outcome = .ok none ∧ (p.parse b level).parser = p ∧
      (p.parse b level).buffer = b := by
  generalize hbytes : b.contents = bytes at h
  have hlength : bytes.length = b.length := by rw [← hbytes, ReadBuffer.length_contents]
  cases h with
  | header short =>
    rw [hlength] at short
    simp [Parser.parse, Mbap.parse, short]
  | pdu short =>
    rw [hlength] at short
    simp [Parser.parse, Mbap.parse, Mbap.parseBody, short]
  | code short =>
    rw [hlength] at short
    simp [Parser.parse, Rtu.parse, Rtu.readUnit, short]
  | frame second unbounded short =>
    rw [← hbytes] at second
    have hpeek := b.peek_eq_ok second
    rw [hlength] at short
    simp [Parser.parse, Rtu.parse, Rtu.readUnit, short, hpeek, unbounded]
  | count short =>
    rw [hlength] at short
    simp [Parser.parse, Rtu.parse, Rtu.parseCount, short]
  | body fits short =>
    rw [hlength] at short
    simp [Parser.parse, Rtu.parse, Rtu.parseBody, short, Nat.not_lt.mpr fits]

end ModbusSlave
