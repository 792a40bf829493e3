import Mathlib.Tactic.SplitIfs
import ModbusSlave.Proofs.Stream.Buffer

/-!
# Decoding a network stream at once

What the bytes of a network stream mean, said for the stream as a whole: a header of seven bytes and
what it announces, again and again until the bytes run out. The parser takes the same decisions
while the bytes come in piece by piece; what it has consumed of an unfinished frame is the header it
remembers.
-/
namespace ModbusSlave

/-- A network frame whose length a header can tell. -/
def Frame.Fits (frame : Frame) : Prop :=
  (∃ transaction, frame.framing = .mbap transaction) ∧ frame.data.length < Frame.maxPdu

namespace Mbap

/-- The function code and `count` bytes of data, and the bytes behind them. -/
def body? (transaction : UInt16) (unit : UInt8) (count : Nat) : Bytes → Option (Frame × Bytes)
  | function :: rest =>
    if rest.length < count then none
    else some (⟨.mbap transaction, ⟨unit⟩, function, rest.take count⟩, rest.drop count)
  | [] => none

/-- The first result of a stream and the bytes behind it. A header without sense takes up seven
bytes; without a result, the bytes run out before it. -/
def first? : Bytes → Option (Except FrameFault Frame × Bytes)
  | t₁ :: t₀ :: p₁ :: p₀ :: l₁ :: l₀ :: unit :: rest =>
    let protocol := p₁.toNat * 256 + p₀.toNat
    let length := l₁.toNat * 256 + l₀.toNat
    if protocol ≠ 0 then some (.error (.unknownProtocolId (UInt16.ofNat protocol)), rest)
    else if 254 < length then some (.error (.mbapLengthTooBig length 254), rest)
    else if length = 0 then some (.error .mbapLengthZero, rest)
    else if length = 1 then some (.error .missingFunctionCode, rest)
    else (body? (Word.join t₁ t₀) unit (length - 2) rest).map fun (frame, rest) => (.ok frame, rest)
  | _ => none

theorem body?_eq_some {transaction : UInt16} {unit : UInt8} {count : Nat} {bytes rest : Bytes}
    {frame : Frame} (h : body? transaction unit count bytes = some (frame, rest)) :
    ∃ function data, bytes = function :: (data ++ rest) ∧ data.length = count ∧
      frame = ⟨.mbap transaction, ⟨unit⟩, function, data⟩ := by
  cases bytes with
  | nil => simp [body?] at h
  | cons function more =>
    rw [body?] at h
    split at h
    · cases h
    · next hlong =>
      cases h
      refine ⟨function, more.take count, ?_, ?_, rfl⟩
      · rw [List.take_append_drop]
      · rw [List.length_take]
        omega

theorem body?_append {transaction : UInt16} {unit : UInt8} {function : UInt8} {data : Bytes}
    (rest : Bytes) :
    body? transaction unit data.length (function :: (data ++ rest)) =
      some (⟨.mbap transaction, ⟨unit⟩, function, data⟩, rest) := by
  have hlong : ¬ (data ++ rest).length < data.length := by
    rw [List.length_append]
    omega
  rw [body?, if_neg hlong, List.take_left, List.drop_left]

/-- A result is a piece of the stream, whatever the bytes behind it are. -/
theorem first?_eq_some {stream rest : Bytes} {result : Except FrameFault Frame}
    (h : first? stream = some (result, rest)) :
    ∃ piece, stream = piece ++ rest ∧ 7 ≤ piece.length ∧
      ∀ more, first? (piece ++ more) = some (result, more) := by
  unfold first? at h
  split at h
  · next t₁ t₀ p₁ p₀ l₁ l₀ unit behind =>
    have hheader : ∀ more, t₁ :: t₀ :: p₁ :: p₀ :: l₁ :: l₀ :: unit :: more =
      [t₁, t₀, p₁, p₀, l₁, l₀, unit] ++ more := fun _ => rfl
    dsimp only at h
    split_ifs at h with hprotocol hbig hzero hone
    · cases h
      refine ⟨_, hheader rest, Nat.le_refl 7, fun more => ?_⟩
      exact if_pos hprotocol
    · cases h
      refine ⟨_, hheader rest, Nat.le_refl 7, fun more => ?_⟩
      exact (if_neg hprotocol).trans (if_pos hbig)
    · cases h
      refine ⟨_, hheader rest, Nat.le_refl 7, fun more => ?_⟩
      exact (if_neg hprotocol).trans ((if_neg hbig).trans (if_pos hzero))
    · cases h
      refine ⟨_, hheader rest, Nat.le_refl 7, fun more => ?_⟩
      exact (if_neg hprotocol).trans ((if_neg hbig).trans ((if_neg hzero).trans (if_pos hone)))
    · obtain ⟨⟨frame, behind⟩, hbody, hpair⟩ := Option.map_eq_some_iff.mp h
      cases hpair
      obtain ⟨function, data, rfl, hcount, rfl⟩ := body?_eq_some hbody
      refine ⟨t₁ :: t₀ :: p₁ :: p₀ :: l₁ :: l₀ :: unit :: function :: data, rfl, ?_, fun more => ?_⟩
      · simp only [List.length_cons]
        omega
      · simp only [List.cons_append, first?]
        rw [if_neg hprotocol, if_neg hbig, if_neg hzero, if_neg hone, ← hcount, body?_append]
        rfl
  · cases h

theorem length_of_first? {stream rest : Bytes} {result : Except FrameFault Frame}
    (h : first? stream = some (result, rest)) : rest.length + 7 ≤ stream.length := by
  obtain ⟨piece, rfl, hpiece, -⟩ := first?_eq_some h
  rw [List.length_append]
  omega

/-- A result stays what it is when more bytes come in behind it. -/
theorem first?_append {stream rest : Bytes} {result : Except FrameFault Frame}
    (h : first? stream = some (result, rest)) (more : Bytes) :
    first? (stream ++ more) = some (result, rest ++ more) := by
  obtain ⟨piece, rfl, -, hfirst⟩ := first?_eq_some h
  rw [List.append_assoc]
  exact hfirst (rest ++ more)

theorem length_of_first?_none {stream : Bytes} (h : first? stream = none) :
    stream.length < maxFrame := by
  have hmax : maxFrame = 260 := rfl
  unfold first? at h
  split at h
  · next t₁ t₀ p₁ p₀ l₁ l₀ unit rest =>
    dsimp only at h
    split_ifs at h with hprotocol hbig hzero hone
    rw [Option.map_eq_none_iff] at h
    cases rest with
    | nil =>
      simp only [List.length_cons, List.length_nil]
      omega
    | cons function more =>
      rw [body?] at h
      split_ifs at h
      simp only [List.length_cons]
      omega
  · next hshort =>
    match stream with
    | t₁ :: t₀ :: p₁ :: p₀ :: l₁ :: l₀ :: unit :: rest => exact absurd rfl (hshort _ _ _ _ _ _ _ _)
    | [] | [_] | [_, _] | [_, _, _] | [_, _, _, _] | [_, _, _, _, _] | [_, _, _, _, _, _] =>
      simp only [List.length_cons, List.length_nil]
      omega

def decode (stream : Bytes) : List (Except FrameFault Frame) :=
  match h : first? stream with
  | none => []
  | some (result, rest) =>
    have : rest.length < stream.length := by
      have := length_of_first? h
      omega
    result :: decode rest
termination_by stream.length

theorem decode_of_none {stream : Bytes} (h : first? stream = none) : decode stream = [] := by
  rw [decode]
  split
  · rfl
  · next hsome => simp [h] at hsome

theorem decode_of_some {stream rest : Bytes} {result : Except FrameFault Frame}
    (h : first? stream = some (result, rest)) : decode stream = result :: decode rest := by
  rw [decode]
  split
  · next hnone => simp [h] at hnone
  · next hsome =>
    rw [h] at hsome
    cases hsome
    rfl

/-- A stream begins with these frames and goes on with `rest`. -/
def Consumes : List Frame → Bytes → Bytes → Prop
  | [], stream, rest => stream = rest
  | frame :: frames, stream, rest =>
    ∃ behind, first? stream = some (.ok frame, behind) ∧ Consumes frames behind rest

theorem Consumes.append {frames : List Frame} {stream rest : Bytes}
    (h : Consumes frames stream rest) (more : Bytes) :
    Consumes frames (stream ++ more) (rest ++ more) := by
  induction frames generalizing stream with
  | nil =>
    cases h
    rfl
  | cons frame frames ih =>
    obtain ⟨behind, hfirst, hbehind⟩ := h
    exact ⟨behind ++ more, first?_append hfirst more, ih hbehind⟩

theorem Consumes.concat {frames : List Frame} {frame : Frame} {stream rest behind : Bytes}
    (h : Consumes frames stream rest) (hfirst : first? rest = some (.ok frame, behind)) :
    Consumes (frames ++ [frame]) stream behind := by
  induction frames generalizing stream with
  | nil =>
    cases h
    exact ⟨behind, hfirst, rfl⟩
  | cons f frames ih =>
    obtain ⟨next, hnext, hrest⟩ := h
    exact ⟨next, hnext, ih hrest⟩

theorem first?_encode {frame : Frame} (h : frame.Fits) (rest : Bytes) :
    first? (frame.encode ++ rest) = some (.ok frame, rest) := by
  obtain ⟨⟨transaction, hframing⟩, hlength⟩ := h
  obtain ⟨framing, unit, function, data⟩ := frame
  dsimp only [Frame.maxPdu] at hframing hlength
  subst hframing
  have hword : (UInt16.ofNat (data.length + 2)).toNat = data.length + 2 := by
    rw [UInt16.toNat_ofNat']
    omega
  have hfield : (Word.high (UInt16.ofNat (data.length + 2))).toNat * 256 +
      (Word.low (UInt16.ofNat (data.length + 2))).toNat = data.length + 2 := by
    rw [Word.toNat_high, Word.toNat_low, hword]
    omega
  have hprotocol : (Word.high 0).toNat * 256 + (Word.low 0).toNat = 0 := by decide
  simp only [Frame.encode, Frame.lengthField, Frame.pdu, Word.big, List.cons_append,
    List.nil_append, first?, hfield, hprotocol]
  rw [if_neg (by decide), if_neg (by omega), if_neg (by omega), if_neg (by omega),
    Nat.add_sub_cancel, body?_append, Word.join_high_low]
  rfl

/-- A stream of frames that fit is read frame by frame; what is behind them is no frame. -/
theorem Consumes.of_encodings {requests frames : List Frame} {tail rest : Bytes}
    (hfits : ∀ request ∈ requests, request.Fits)
    (htail : ∀ frame behind, first? tail ≠ some (.ok frame, behind))
    (h : Consumes frames (requests.flatMap Frame.encode ++ tail) rest) :
    ∃ n, frames = requests.take n ∧ rest = (requests.drop n).flatMap Frame.encode ++ tail := by
  induction frames generalizing requests with
  | nil => exact ⟨0, rfl, h.symm⟩
  | cons frame frames ih =>
    obtain ⟨behind, hfirst, hbehind⟩ := h
    cases requests with
    | nil => exact absurd hfirst (htail frame behind)
    | cons request requests =>
      rw [List.flatMap_cons, List.append_assoc,
        first?_encode (hfits request List.mem_cons_self)] at hfirst
      cases hfirst
      obtain ⟨n, hframes, hrest⟩ :=
        ih (fun r hr => hfits r (List.mem_cons_of_mem _ hr)) hbehind
      exact ⟨n + 1, by rw [hframes, List.take_succ_cons], by rw [hrest, List.drop_succ_cons]⟩

theorem Consumes.encodings {requests : List Frame} (hfits : ∀ request ∈ requests, request.Fits)
    (tail : Bytes) : Consumes requests (requests.flatMap Frame.encode ++ tail) tail := by
  induction requests with
  | nil => rfl
  | cons request requests ih =>
    refine ⟨requests.flatMap Frame.encode ++ tail, ?_, ?_⟩
    · rw [List.flatMap_cons, List.append_assoc]
      exact first?_encode (hfits request List.mem_cons_self) _
    · exact ih fun r hr => hfits r (List.mem_cons_of_mem request hr)

theorem Consumes.eq_of_encodings {requests frames : List Frame} {tail rest : Bytes}
    (hfits : ∀ request ∈ requests, request.Fits)
    (htail : ∀ frame behind, first? tail ≠ some (.ok frame, behind))
    (h : Consumes frames (requests.flatMap Frame.encode ++ tail) rest)
    (hrest : ∀ frame behind, first? rest ≠ some (.ok frame, behind)) : frames = requests := by
  obtain ⟨n, hframes, hbehind⟩ := h.of_encodings hfits htail
  cases hdrop : requests.drop n with
  | nil => rw [hframes, List.take_of_length_le (List.drop_eq_nil_iff.mp hdrop)]
  | cons request left =>
    have hmem : request ∈ requests := List.mem_of_mem_drop (hdrop ▸ List.mem_cons_self)
    rw [hdrop, List.flatMap_cons, List.append_assoc] at hbehind
    rw [hbehind] at hrest
    exact absurd (first?_encode (hfits request hmem) _) (hrest _ _)

/-- The bytes of a header that the parser has consumed. -/
def State.consumed : State → Bytes
  | .start => []
  | .body header =>
    Word.big header.transaction ++ [0, 0] ++ Word.big (UInt16.ofNat (header.pduLength + 1)) ++
      [header.unit.value]

/-- A header is remembered only if a function code and at most 252 bytes of data follow it. -/
def State.Valid : State → Prop
  | .start => True
  | .body header => 0 < header.pduLength ∧ header.pduLength ≤ Frame.maxPdu

/-- The part of the stream that has been read and has not become a result. -/
def pending (state : State) (b : ReadBuffer) : Bytes := state.consumed ++ b.contents

/-- What a parser may answer when `stream` is pending. -/
inductive Parses (stream : Bytes) (capacity : Nat) :
    Except RequestFault (Option Frame) × State × ReadBuffer → Prop
  | frame {frame : Frame} {b : ReadBuffer} (first : first? stream = some (.ok frame, b.contents))
      (fits : b.capacity = capacity) : Parses stream capacity (.ok (some frame), .start, b)
  | fault {fault : FrameFault} {b : ReadBuffer}
      (first : first? stream = some (.error fault, b.contents))
      (fits : b.capacity = capacity) : Parses stream capacity (.error (.badFrame fault), .start, b)
  | waits {state : State} {b : ReadBuffer} (valid : state.Valid)
      (same : pending state b = stream) (first : first? stream = none)
      (fits : b.capacity = capacity) :
      Parses stream capacity (.ok none, state, b)

theorem first?_consumed (header : Header) (h : (State.body header).Valid) (bytes : Bytes) :
    first? ((State.body header).consumed ++ bytes) =
      (body? header.transaction header.unit.value (header.pduLength - 1) bytes).map
        fun (frame, rest) => (.ok frame, rest) := by
  obtain ⟨hpos, hmax⟩ := h
  simp only [Frame.maxPdu] at hmax
  have hword : (UInt16.ofNat (header.pduLength + 1)).toNat = header.pduLength + 1 := by
    rw [UInt16.toNat_ofNat']
    omega
  have hlength :
      (Word.high (UInt16.ofNat (header.pduLength + 1))).toNat * 256 +
        (Word.low (UInt16.ofNat (header.pduLength + 1))).toNat = header.pduLength + 1 := by
    rw [Word.toNat_high, Word.toNat_low, hword]
    omega
  have hrest : header.pduLength + 1 - 2 = header.pduLength - 1 := by omega
  simp only [State.consumed, Word.big, List.cons_append, List.nil_append, first?, hlength,
    Word.join_high_low, hrest]
  rw [if_neg (by decide), if_neg (by omega), if_neg (by omega), if_neg (by omega)]

/-- Behind a header, the parser takes the frame as soon as it is complete. -/
theorem parses_body (header : Header) (b : ReadBuffer) (h : (State.body header).Valid) :
    Parses (pending (.body header) b) b.capacity (parseBody header b) := by
  have hfirst := first?_consumed header h b.contents
  have hpos := h.1
  unfold parseBody
  split
  · next hshort =>
    rw [← ReadBuffer.length_contents] at hshort
    refine .waits h rfl ?_ rfl
    rw [pending, hfirst, Option.map_eq_none_iff]
    cases hc : b.contents with
    | nil => rfl
    | cons function more =>
      rw [hc, List.length_cons] at hshort
      exact if_pos (by omega)
  · next hlong =>
    rw [← ReadBuffer.length_contents] at hlong
    obtain ⟨after, hread, hcontents, hcap⟩ := b.read_eq_ok (Nat.not_lt.mp hlong)
    obtain ⟨n, hn⟩ := Nat.exists_eq_succ_of_ne_zero (Nat.ne_of_gt hpos)
    cases hc : b.contents with
    | nil =>
      rw [hc, List.length_nil] at hlong
      omega
    | cons function more =>
      rw [hc, hn, List.take_succ_cons] at hread
      rw [hc, hn, List.drop_succ_cons] at hcontents
      rw [hc, List.length_cons, hn] at hlong
      have hbody : readBody header b =
          (.ok ⟨.mbap header.transaction, header.unit, function, more.take n⟩, after) := by
        rw [readBody, hn, hread]
      rw [hbody]
      refine .frame ?_ hcap
      rw [pending, hfirst, hc, hn, Nat.succ_sub_one, body?, if_neg (by omega), hcontents]
      rfl

theorem first?_of_error {t₁ t₀ p₁ p₀ l₁ l₀ unit : UInt8} {fault : FrameFault}
    (h : Header.of? (Word.join t₁ t₀) (Word.join p₁ p₀) (Word.join l₁ l₀) unit = .error fault)
    (rest : Bytes) :
    first? (t₁ :: t₀ :: p₁ :: p₀ :: l₁ :: l₀ :: unit :: rest) = some (.error fault, rest) := by
  have hprotocol := Word.toNat_join p₁ p₀
  have hlength := Word.toNat_join l₁ l₀
  have hzero : Word.join p₁ p₀ ≠ 0 ↔ p₁.toNat * 256 + p₀.toNat ≠ 0 := by
    rw [← hprotocol, ne_eq, ne_eq, ← UInt16.toNat_inj]
    rfl
  have hmax : maxLengthField = 254 := rfl
  rw [Header.of?, hlength, hmax] at h
  rw [first?]
  split_ifs at h with h₁ h₂ h₃ h₄
  · cases h
    rw [if_pos (hzero.mp h₁), ← hprotocol, UInt16.ofNat_toNat]
  · cases h
    rw [if_neg (mt hzero.mpr h₁), if_pos h₂]
  · cases h
    rw [if_neg (mt hzero.mpr h₁), if_neg h₂, if_pos h₃]
  · cases h
    rw [if_neg (mt hzero.mpr h₁), if_neg h₂, if_neg h₃, if_pos h₄]

theorem consumed_of_ok {t₁ t₀ p₁ p₀ l₁ l₀ unit : UInt8} {header : Header}
    (h : Header.of? (Word.join t₁ t₀) (Word.join p₁ p₀) (Word.join l₁ l₀) unit = .ok header) :
    (State.body header).Valid ∧
      (State.body header).consumed = [t₁, t₀, p₁, p₀, l₁, l₀, unit] := by
  have hmax : maxLengthField = 254 := rfl
  rw [Header.of?, hmax] at h
  split_ifs at h with h₁ h₂ h₃ h₄
  cases h
  have hprotocol : Word.join p₁ p₀ = 0 := Decidable.not_not.mp h₁
  refine ⟨⟨by dsimp only; omega, by dsimp only [Frame.maxPdu]; omega⟩, ?_⟩
  have hback : UInt16.ofNat ((Word.join l₁ l₀).toNat - 1 + 1) = Word.join l₁ l₀ := by
    rw [Nat.sub_add_cancel (by omega), UInt16.ofNat_toNat]
  have hp : [p₁, p₀] = [0, 0] := by
    rw [← Word.big_join, hprotocol]
    rfl
  obtain ⟨rfl, hp₀⟩ := List.cons.inj hp
  obtain ⟨rfl, -⟩ := List.cons.inj hp₀
  simp only [State.consumed, hback, Word.big_join, List.cons_append, List.nil_append]

theorem readHeader_eq {b : ReadBuffer} {t₁ t₀ p₁ p₀ l₁ l₀ unit : UInt8} {rest : Bytes}
    (h : b.contents = t₁ :: t₀ :: p₁ :: p₀ :: l₁ :: l₀ :: unit :: rest) :
    ∃ after, readHeader b = ((Header.of? (Word.join t₁ t₀) (Word.join p₁ p₀) (Word.join l₁ l₀)
        unit).mapError .badFrame, after) ∧
      after.contents = rest ∧ after.capacity = b.capacity := by
  obtain ⟨b₁, h₁, hc₁, hcap₁⟩ := b.readBig_eq_ok h
  obtain ⟨b₂, h₂, hc₂, hcap₂⟩ := b₁.readBig_eq_ok hc₁
  obtain ⟨b₃, h₃, hc₃, hcap₃⟩ := b₂.readBig_eq_ok hc₂
  obtain ⟨b₄, h₄, hc₄, hcap₄⟩ := b₃.readByte_eq_ok hc₃
  refine ⟨b₄, ?_, hc₄, hcap₄.trans (hcap₃.trans (hcap₂.trans hcap₁))⟩
  simp only [readHeader, h₁, h₂, h₃, h₄]

theorem first?_of_short {stream : Bytes} (h : stream.length < headerLength) :
    first? stream = none := by
  unfold first?
  split
  · next t₁ t₀ p₁ p₀ l₁ l₀ unit rest =>
    simp only [List.length_cons, headerLength] at h
    omega
  · rfl

theorem parses_start (b : ReadBuffer) :
    Parses (pending .start b) b.capacity (parse .start b) := by
  have hpending : pending .start b = b.contents := rfl
  rw [parse]
  split
  · next hshort =>
    rw [← ReadBuffer.length_contents] at hshort
    exact .waits trivial rfl (first?_of_short hshort) rfl
  · next hlong =>
    rw [← ReadBuffer.length_contents] at hlong
    rw [hpending]
    match hc : b.contents with
    | t₁ :: t₀ :: p₁ :: p₀ :: l₁ :: l₀ :: unit :: rest =>
      obtain ⟨after, hread, hafter, hcap⟩ := readHeader_eq hc
      rw [hread]
      cases hof : Header.of? (Word.join t₁ t₀) (Word.join p₁ p₀) (Word.join l₁ l₀) unit with
      | error fault =>
        refine .fault ?_ hcap
        rw [hafter]
        exact first?_of_error hof rest
      | ok header =>
        obtain ⟨hvalid, hconsumed⟩ := consumed_of_ok hof
        have hbody := parses_body header after hvalid
        rw [hcap, pending, hconsumed, hafter] at hbody
        exact hbody
    | [] | [_] | [_, _] | [_, _, _] | [_, _, _, _] | [_, _, _, _, _] | [_, _, _, _, _, _] =>
      simp [hc, headerLength] at hlong

/-- Parsing is decoding, as far as the bytes that wait allow it. -/
theorem parses {state : State} (h : state.Valid) (b : ReadBuffer) :
    Parses (pending state b) b.capacity (parse state b) := by
  cases state with
  | start => exact parses_start b
  | body header => exact parses_body header b h

end Mbap

end ModbusSlave
