import Mathlib.Tactic.SplitIfs
import ModbusSlave.Proofs.Stream.Reading

/-!
# Decoding the standard requests of a serial line at once

What the bytes of a serial line mean, said for the stream as a whole, as long as every frame starts
like a standard request: the function code tells the length or where the length is, and a checksum
ends the frame. The parser takes the same decisions while the bytes come in piece by piece. It
consumes the unit early; what it remembers besides is a length that the bytes behind the unit
already tell.
-/
namespace ModbusSlave.Rtu

def fixedCodes : List UInt8 := [0x01, 0x02, 0x03, 0x04, 0x05, 0x06]

/-- The requests whose fifth byte of data counts the bytes behind it. -/
def countedCodes : List UInt8 := [0x0F, 0x10]

/-- The frame, if it ends with its checksum. -/
def judge (unit : UnitId) (code : UInt8) (data : Bytes) (received : UInt16) :
    Except FrameFault Frame :=
  let calculated := Checksum.ofBytes (unit.value :: code :: data)
  if received = calculated then .ok ⟨.rtu, unit, code, data⟩
  else .error (.checksumMismatch received calculated)

/-- The function code, `count` bytes of data and the checksum, and the bytes behind them. -/
def body? (unit : UnitId) (count : Nat) : Bytes → Option (Except FrameFault Frame × Bytes)
  | code :: rest =>
    match rest.drop count with
    | low :: high :: behind =>
      some (judge unit code (rest.take count) (Word.join high low), behind)
    | _ => none
  | [] => none

/-- The first result of a stream and the bytes behind it. A frame that would be too long takes up
its unit only; there is no result while bytes are missing, and none for another function code. -/
def first? : Bytes → Option (Except FrameFault Frame × Bytes)
  | unit :: code :: rest =>
    if code ∈ fixedCodes then body? ⟨unit⟩ 4 (code :: rest)
    else if code ∈ countedCodes then
      match rest[4]? with
      | some n =>
        if 247 < n.toNat then some (.error (.frameTooLong (6 + n.toNat) 253), code :: rest)
        else body? ⟨unit⟩ (5 + n.toNat) (code :: rest)
      | none => none
    else none
  | _ => none

/-- A stream whose first frame is no standard request. -/
def Foreign : Bytes → Prop
  | _ :: code :: _ => StandardFunction.ofCode? code = none
  | _ => False

theorem layout_of_fixed {code : UInt8} (h : code ∈ fixedCodes) :
    Layout.ofCode code = .fixed 4 := by
  simp only [fixedCodes, List.mem_cons, List.not_mem_nil, or_false] at h
  rcases h with rfl | rfl | rfl | rfl | rfl | rfl <;> rfl

theorem layout_of_counted {code : UInt8} (h : code ∈ countedCodes) :
    Layout.ofCode code = .counted 5 := by
  simp only [countedCodes, List.mem_cons, List.not_mem_nil, or_false] at h
  rcases h with rfl | rfl <;> rfl

theorem layout_of_none {code : UInt8} (h : StandardFunction.ofCode? code = none) :
    Layout.ofCode code = .unbounded := by
  rw [Layout.ofCode, h]

theorem not_fixed_of_counted {code : UInt8} (h : code ∈ countedCodes) : code ∉ fixedCodes := by
  intro hfixed
  have hlayout := (layout_of_fixed hfixed).symm.trans (layout_of_counted h)
  cases hlayout

theorem ofCode?_eq_none_iff {code : UInt8} :
    StandardFunction.ofCode? code = none ↔ code ∉ fixedCodes ∧ code ∉ countedCodes := by
  constructor
  · intro h
    constructor
    · intro hfixed
      have hlayout := (layout_of_none h).symm.trans (layout_of_fixed hfixed)
      cases hlayout
    · intro hcounted
      have hlayout := (layout_of_none h).symm.trans (layout_of_counted hcounted)
      cases hlayout
  · rintro ⟨hfixed, hcounted⟩
    cases h : StandardFunction.ofCode? code with
    | none => rfl
    | some f =>
      have hall : f.code ∈ fixedCodes ∨ f.code ∈ countedCodes := by
        cases f <;> simp [StandardFunction.code, fixedCodes, countedCodes]
      rw [StandardFunction.code_of_ofCode? h] at hall
      exact absurd hall (not_or.mpr ⟨hfixed, hcounted⟩)

section First

variable {unit : UnitId} {code : UInt8} {count : Nat} {stream bytes rest : Bytes}
  {result : Except FrameFault Frame}

theorem body?_eq_some (h : body? unit count bytes = some (result, rest)) :
    ∃ code data low high, bytes = code :: (data ++ low :: high :: rest) ∧ data.length = count ∧
      result = judge unit code data (Word.join high low) := by
  cases bytes with
  | nil => cases h
  | cons code more =>
    rw [body?] at h
    split at h
    · next low high behind hdrop =>
      cases h
      refine ⟨code, more.take count, low, high, ?_, ?_, rfl⟩
      · rw [← hdrop, List.take_append_drop]
      · have hlength := congrArg List.length hdrop
        simp only [List.length_drop, List.length_cons] at hlength
        rw [List.length_take]
        omega
    · cases h

theorem body?_append (data : Bytes) (low high : UInt8) :
    body? unit data.length (code :: (data ++ low :: high :: rest)) =
      some (judge unit code data (Word.join high low), rest) := by
  rw [body?, List.drop_left, List.take_left]

theorem length_of_body?_none (h : body? unit count bytes = none) : bytes.length < count + 3 := by
  cases bytes with
  | nil => exact Nat.succ_pos _
  | cons code more =>
    apply Nat.lt_of_not_le
    intro hlong
    have hdrop : 2 ≤ (more.drop count).length := by
      rw [List.length_cons] at hlong
      rw [List.length_drop]
      omega
    rw [body?] at h
    split at h
    · cases h
    · next hshort =>
      match hmore : more.drop count with
      | low :: high :: behind => exact hshort low high behind hmore
      | [] | [_] => simp [hmore] at hdrop

theorem first?_of_fixed (unit : UnitId) (h : code ∈ fixedCodes) (bytes : Bytes) :
    first? (unit.value :: code :: bytes) = body? unit 4 (code :: bytes) := if_pos h

theorem first?_of_counted (unit : UnitId) (h : code ∈ countedCodes) {n : UInt8}
    (hn : bytes[4]? = some n) :
    first? (unit.value :: code :: bytes) =
      if 247 < n.toNat then some (.error (.frameTooLong (6 + n.toNat) 253), code :: bytes)
      else body? unit (5 + n.toNat) (code :: bytes) := by
  rw [first?, if_neg (not_fixed_of_counted h), if_pos h, hn]

theorem first?_of_uncounted (unit : UnitId) (h : code ∈ countedCodes) (hshort : bytes.length ≤ 4) :
    first? (unit.value :: code :: bytes) = none := by
  rw [first?, if_neg (not_fixed_of_counted h), if_pos h, List.getElem?_eq_none hshort]

theorem first?_of_foreign (h : Foreign stream) : first? stream = none := by
  match stream with
  | [] | [_] => exact h.elim
  | unit :: code :: rest =>
    obtain ⟨hfixed, hcounted⟩ := ofCode?_eq_none_iff.mp h
    rw [first?, if_neg hfixed, if_neg hcounted]

/-- How a result comes about: the bytes behind the unit are a body, or they announce too much. -/
inductive Begins (unit : UInt8) (behind : Bytes) : Except FrameFault Frame × Bytes → Prop
  | body {count : Nat} {result : Except FrameFault Frame} {rest : Bytes}
      (body : body? ⟨unit⟩ count behind = some (result, rest))
      (same : ∀ more, first? (unit :: (behind ++ more)) = body? ⟨unit⟩ count (behind ++ more)) :
      Begins unit behind (result, rest)
  | long {fault : FrameFault}
      (same : ∀ more, first? (unit :: (behind ++ more)) = some (.error fault, behind ++ more)) :
      Begins unit behind (.error fault, behind)

theorem first?_eq_some (h : first? stream = some (result, rest)) :
    ∃ unit behind, stream = unit :: behind ∧ Begins unit behind (result, rest) := by
  match stream with
  | [] | [_] => cases h
  | unit :: code :: bytes =>
    refine ⟨unit, code :: bytes, rfl, ?_⟩
    by_cases hfixed : code ∈ fixedCodes
    · rw [first?_of_fixed ⟨unit⟩ hfixed] at h
      exact .body h fun more => first?_of_fixed ⟨unit⟩ hfixed (bytes ++ more)
    by_cases hcounted : code ∈ countedCodes
    · cases hn : bytes[4]? with
      | none =>
        have hshort := List.getElem?_eq_none_iff.mp hn
        rw [first?_of_uncounted ⟨unit⟩ hcounted hshort] at h
        cases h
      | some n =>
        have hmore : ∀ more : Bytes, (bytes ++ more)[4]? = some n := by
          intro more
          rw [List.getElem?_append_left (List.getElem?_eq_some_iff.mp hn).1, hn]
        have hsame := fun more => first?_of_counted ⟨unit⟩ hcounted (hmore more)
        rw [first?_of_counted ⟨unit⟩ hcounted hn] at h
        split_ifs at h with hlong
        · cases h
          exact .long fun more => (hsame more).trans (if_pos hlong)
        · exact .body h fun more => (hsame more).trans (if_neg hlong)
    · rw [first?, if_neg hfixed, if_neg hcounted] at h
      cases h

theorem length_of_first? (h : first? stream = some (result, rest)) :
    rest.length < stream.length := by
  obtain ⟨unit, behind, rfl, hbegins⟩ := first?_eq_some h
  cases hbegins with
  | body body =>
    obtain ⟨code, data, low, high, rfl, -, -⟩ := body?_eq_some body
    simp only [List.length_cons, List.length_append]
    omega
  | long => exact Nat.lt_succ_self _

/-- A result stays what it is when more bytes come in behind it. -/
theorem first?_append (h : first? stream = some (result, rest)) (more : Bytes) :
    first? (stream ++ more) = some (result, rest ++ more) := by
  obtain ⟨unit, behind, rfl, hbegins⟩ := first?_eq_some h
  cases hbegins with
  | body body same =>
    obtain ⟨code, data, low, high, rfl, rfl, rfl⟩ := body?_eq_some body
    rw [List.cons_append, same, List.cons_append, List.append_assoc]
    exact body?_append data low high
  | long same => exact same more

/-- The longest frame is complete with its last byte, so that a stream without a result is shorter,
unless its first frame is of another kind. -/
theorem length_of_first?_none (h : first? stream = none) (hknown : ¬ Foreign stream) :
    stream.length < maxFrame := by
  have hmax : maxFrame = 256 := rfl
  match stream with
  | [] | [_] =>
    simp only [List.length_cons, List.length_nil]
    omega
  | unit :: code :: bytes =>
    rw [List.length_cons, hmax]
    by_cases hfixed : code ∈ fixedCodes
    · rw [first?_of_fixed ⟨unit⟩ hfixed] at h
      have := length_of_body?_none h
      omega
    by_cases hcounted : code ∈ countedCodes
    · cases hn : bytes[4]? with
      | none =>
        have hshort := List.getElem?_eq_none_iff.mp hn
        rw [List.length_cons]
        omega
      | some n =>
        rw [first?_of_counted ⟨unit⟩ hcounted hn] at h
        split_ifs at h with hlong
        have := length_of_body?_none h
        omega
    · exact absurd (ofCode?_eq_none_iff.mpr ⟨hfixed, hcounted⟩) hknown

end First

def State.consumed : State → Bytes
  | .start => []
  | .body unit _ => [unit.value]
  | .count unit _ => [unit.value]

/-- What the parser remembers is what the bytes that wait behind the unit tell. -/
inductive State.Fits : State → Bytes → Prop
  | start {bytes : Bytes} : Fits .start bytes
  | fixed {unit : UnitId} {code : UInt8} {rest : Bytes} (known : code ∈ fixedCodes) :
      Fits (.body unit 4) (code :: rest)
  | counted {unit : UnitId} {code n : UInt8} {rest : Bytes} (known : code ∈ countedCodes)
      (count : rest[4]? = some n) (short : n.toNat ≤ 247) :
      Fits (.body unit (5 + n.toNat)) (code :: rest)
  | count {unit : UnitId} {code : UInt8} {rest : Bytes} (known : code ∈ countedCodes) :
      Fits (.count unit 5) (code :: rest)

theorem State.Fits.append {state : State} {bytes : Bytes} (h : state.Fits bytes) (more : Bytes) :
    state.Fits (bytes ++ more) := by
  cases h with
  | start => exact .start
  | fixed known => exact .fixed known
  | counted known count short =>
    have hlong := (List.getElem?_eq_some_iff.mp count).1
    exact .counted known ((List.getElem?_append_left hlong).trans count) short
  | count known => exact .count known

def pending (state : State) (b : ReadBuffer) : Bytes := state.consumed ++ b.contents

/-- What a parser may answer when `stream` is pending. -/
inductive Parses (stream : Bytes) (capacity : Nat) :
    Except RequestFault (Option Frame) → State → ReadBuffer → Prop
  | result {result : Except FrameFault Frame} {b : ReadBuffer}
      (first : first? stream = some (result, b.contents)) (keeps : b.capacity = capacity) :
      Parses stream capacity ((result.map some).mapError .badFrame) .start b
  | waits {state : State} {b : ReadBuffer} (fits : state.Fits b.contents)
      (same : pending state b = stream) (first : first? stream = none)
      (keeps : b.capacity = capacity) : Parses stream capacity (.ok none) state b

theorem parseBody_append (unit : UnitId) {code low high : UInt8} {data rest : Bytes}
    {b : ReadBuffer} (h : b.contents = code :: (data ++ low :: high :: rest))
    (hshort : data.length ≤ 252) :
    ∃ after, parseBody unit data.length b =
        (((judge unit code data (Word.join high low)).map some).mapError .badFrame, .start, after) ∧
      after.contents = rest ∧ after.capacity = b.capacity := by
  have hlength := congrArg List.length h
  rw [ReadBuffer.length_contents] at hlength
  simp only [List.length_cons, List.length_append] at hlength
  have hfits : 1 + data.length ≤ b.contents.length := by
    rw [ReadBuffer.length_contents]
    omega
  obtain ⟨b₁, hread, hc₁, hcap₁⟩ := b.read_eq_ok hfits
  rw [h, Nat.add_comm 1, List.take_succ_cons, List.take_left] at hread
  rw [h, Nat.add_comm 1, List.drop_succ_cons, List.drop_left] at hc₁
  obtain ⟨b₂, hlittle, hc₂, hcap₂⟩ := b₁.readLittle_eq_ok hc₁
  refine ⟨b₂, ?_, hc₂, hcap₂.trans hcap₁⟩
  have hmax : ¬ Frame.maxPdu < 1 + data.length := by
    rw [Frame.maxPdu]
    omega
  rw [parseBody, if_neg hmax, if_neg (by omega), Nat.add_comm 1, hread]
  dsimp only
  rw [hlittle]
  dsimp only
  rw [judge, Frame.checksum, Frame.pdu]
  split_ifs <;> rfl

theorem parses_body {unit : UnitId} {count : Nat} {b : ReadBuffer}
    (hfits : (State.body unit count).Fits b.contents)
    (hshort : count ≤ 252)
    (hfirst : first? (unit.value :: b.contents) = body? unit count b.contents) :
    Parses (unit.value :: b.contents) b.capacity (parseBody unit count b).1
      (parseBody unit count b).2.1 (parseBody unit count b).2.2 := by
  cases hbody : body? unit count b.contents with
  | none =>
    have hmax : ¬ Frame.maxPdu < 1 + count := by
      rw [Frame.maxPdu]
      omega
    have hlength := length_of_body?_none hbody
    rw [ReadBuffer.length_contents] at hlength
    rw [parseBody, if_neg hmax, if_pos (by omega)]
    exact .waits hfits rfl (hfirst.trans hbody) rfl
  | some found =>
    obtain ⟨result, rest⟩ := found
    obtain ⟨code, data, low, high, hcontents, rfl, rfl⟩ := body?_eq_some hbody
    obtain ⟨after, hparse, rfl, hcapacity⟩ := parseBody_append unit hcontents hshort
    rw [hparse]
    exact .result (hfirst.trans hbody) hcapacity

theorem parses_count (unit : UnitId) {code : UInt8} {rest : Bytes} {b : ReadBuffer}
    (hcode : code ∈ countedCodes) (hcontents : b.contents = code :: rest) :
    Parses (unit.value :: b.contents) b.capacity (parseCount unit 5 b).1
      (parseCount unit 5 b).2.1 (parseCount unit 5 b).2.2 := by
  have hlength := congrArg List.length hcontents
  rw [ReadBuffer.length_contents, List.length_cons] at hlength
  cases hn : rest[4]? with
  | none =>
    have hshort := List.getElem?_eq_none_iff.mp hn
    rw [parseCount, if_pos (by omega)]
    have hfits : (State.count unit 5).Fits b.contents := by
      rw [hcontents]
      exact .count hcode
    have hnone : first? (unit.value :: b.contents) = none := by
      rw [hcontents]
      exact first?_of_uncounted unit hcode hshort
    exact .waits hfits rfl hnone rfl
  | some n =>
    obtain ⟨hlong, -⟩ := List.getElem?_eq_some_iff.mp hn
    have hpeek : b.peek (1 + 5 - 1) = .ok n := by
      apply b.peek_eq_ok
      rw [hcontents]
      exact hn
    have hfirst := first?_of_counted unit hcode hn
    rw [parseCount, if_neg (by omega), hpeek]
    dsimp only
    by_cases hmax : 247 < n.toNat
    · rw [if_pos hmax] at hfirst
      have hpdu : Frame.maxPdu < 1 + (5 + n.toNat) := by
        rw [Frame.maxPdu]
        omega
      rw [parseBody, if_pos hpdu, show 1 + (5 + n.toNat) = 6 + n.toNat by omega]
      rw [← hcontents] at hfirst
      exact .result hfirst rfl
    · rw [if_neg hmax, ← hcontents] at hfirst
      apply parses_body ?_ (by omega) hfirst
      rw [hcontents]
      exact .counted hcode hn (by omega)

/-- The unit is consumed as soon as a function code stands behind it, for a frame of another kind as
soon as there may be a whole one. -/
theorem readUnit_of_ready {b : ReadBuffer} {unit code : UInt8} {rest : Bytes}
    (h : b.contents = unit :: code :: rest)
    (hready : Layout.ofCode code = .unbounded → minFrame ≤ b.length) :
    ∃ after, readUnit b = (.ok (some (Layout.ofCode code, ⟨unit⟩)), after) ∧
      after.contents = code :: rest ∧ after.capacity = b.capacity := by
  have hlength := congrArg List.length h
  rw [ReadBuffer.length_contents] at hlength
  simp only [List.length_cons] at hlength
  have hpeek : b.peek 1 = .ok code := by
    apply b.peek_eq_ok
    rw [h]
    rfl
  obtain ⟨after, hread, hcontents, hcapacity⟩ := b.readByte_eq_ok h
  refine ⟨after, ?_, hcontents, hcapacity⟩
  rw [readUnit, if_neg (by omega), hpeek]
  dsimp only
  rw [if_neg fun hshort => Nat.not_lt.mpr (hready hshort.1) hshort.2, hread]

theorem parses_start (b : ReadBuffer) (hknown : ¬ Foreign b.contents) :
    Parses b.contents b.capacity (parse .start b).1 (parse .start b).2.1
      (parse .start b).2.2.1 := by
  match hc : b.contents with
  | [] | [_] =>
    have hshort : b.length < 2 := by
      rw [← ReadBuffer.length_contents, hc]
      simp
    rw [parse, readUnit, if_pos hshort]
    exact .waits .start hc rfl rfl
  | unit :: code :: rest =>
    rw [hc] at hknown
    by_cases hfixed : code ∈ fixedCodes
    · have hlayout := layout_of_fixed hfixed
      obtain ⟨after, hread, hafter, hcapacity⟩ :=
        readUnit_of_ready hc (by rw [hlayout]; exact Layout.noConfusion)
      rw [parse, hread, hlayout]
      have hfits : (State.body ⟨unit⟩ 4).Fits after.contents := by
        rw [hafter]
        exact .fixed hfixed
      have hfirst := first?_of_fixed ⟨unit⟩ hfixed rest
      rw [← hafter] at hfirst
      have hbody := parses_body hfits (by decide) hfirst
      rwa [hafter, hcapacity] at hbody
    by_cases hcounted : code ∈ countedCodes
    · have hlayout := layout_of_counted hcounted
      obtain ⟨after, hread, hafter, hcapacity⟩ :=
        readUnit_of_ready hc (by rw [hlayout]; exact Layout.noConfusion)
      rw [parse, hread, hlayout]
      have hcount := parses_count ⟨unit⟩ hcounted hafter
      rwa [hafter, hcapacity] at hcount
    · exact absurd (ofCode?_eq_none_iff.mpr ⟨hfixed, hcounted⟩) hknown

/-- Parsing is decoding, as far as the bytes that wait allow it and up to a frame of another
kind. -/
theorem parses {state : State} {b : ReadBuffer} (h : state.Fits b.contents)
    (hknown : ¬ Foreign (pending state b)) :
    Parses (pending state b) b.capacity (parse state b).1 (parse state b).2.1
      (parse state b).2.2.1 := by
  generalize hbytes : b.contents = bytes at h
  cases h with
  | start => exact parses_start b hknown
  | @fixed unit code rest known =>
    have hfits : (State.body unit 4).Fits b.contents := by
      rw [hbytes]
      exact .fixed known
    have hfirst := first?_of_fixed unit known rest
    rw [← hbytes] at hfirst
    exact parses_body hfits (by decide) hfirst
  | @counted unit code n rest known count short =>
    have hfits : (State.body unit (5 + n.toNat)).Fits b.contents := by
      rw [hbytes]
      exact .counted known count short
    have hfirst := first?_of_counted unit known count
    rw [if_neg (Nat.not_lt.mpr short), ← hbytes] at hfirst
    exact parses_body hfits (by omega) hfirst
  | @count unit code rest known => exact parses_count unit known hbytes

end ModbusSlave.Rtu
