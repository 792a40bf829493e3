import Mathlib.Data.List.Forall2
import ModbusSlave.Proofs.Stream.MbapDecoding
import ModbusSlave.Proofs.Stream.Reading

/-!
# Reading a network stream in pieces

Asking a reader for frame after frame is decoding the stream at once, however the stream is cut and
whatever fails in between. The bytes that a reader has taken in and not used, followed by the bytes
that its script still holds, are always the rest of the stream.
-/
namespace ModbusSlave.Mbap

/-- A reader between two calls, with `waiting` taken in and not used. -/
def Awaits (r : Reader) (waiting : Bytes) : Prop :=
  ∃ state : State, r.parser = .mbap state ∧ state.Valid ∧ pending state r.buffer = waiting ∧
    r.buffer.capacity = maxFrame

theorem awaits_ofParser : Awaits (.ofParser (.mbap .start)) [] := by
  refine ⟨.start, rfl, trivial, ?_, ?_⟩
  · rw [pending, State.consumed, List.nil_append, Reader.ofParser, ReadBuffer.contents_ofCapacity]
  · rw [Reader.ofParser, ReadBuffer.capacity_ofCapacity, Parser.maxFrame]

theorem Awaits.attempts {r : Reader} {waiting : Bytes} (h : Awaits r waiting)
    (level : FrameLevel) : Attempts first? Awaits waiting (r.parser.parse r.buffer level) := by
  obtain ⟨state, hparser, hvalid, rfl, hcapacity⟩ := h
  have hparses := parses hvalid r.buffer
  rw [hcapacity] at hparses
  rw [hparser]
  dsimp only [Parser.parse]
  generalize parse state r.buffer = parsed at hparses
  cases hparses with
  | frame first fits => exact .frame rfl ⟨.start, rfl, trivial, rfl, fits⟩ first
  | fault first fits => exact .fault rfl ⟨.start, rfl, trivial, rfl, fits⟩ first
  | waits valid same first fits => exact .waits rfl ⟨_, rfl, valid, same, fits⟩ first

theorem Awaits.room_pos {r : Reader} {waiting : Bytes} (h : Awaits r waiting)
    (hnone : first? waiting = none) : 0 < r.room := by
  obtain ⟨state, -, -, rfl, hcapacity⟩ := h
  apply r.buffer.room_prepare_pos
  have hlength := length_of_first?_none hnone
  rw [pending, List.length_append] at hlength
  omega

theorem Awaits.receive {r : Reader} {waiting : Bytes} (h : Awaits r waiting)
    (level : PhysicalLevel) {x : UInt8} {bytes : Bytes} (hfits : bytes.length < r.room) :
    (r.receive level (.ok (x :: bytes))).outcome = .ok (bytes.length + 1) ∧
      Awaits (r.receive level (.ok (x :: bytes))).reader (waiting ++ x :: bytes) := by
  obtain ⟨state, hparser, hvalid, rfl, hcapacity⟩ := h
  refine ⟨rfl, state, hparser, hvalid, ?_, (r.capacity_receive level x bytes).trans hcapacity⟩
  rw [pending, Reader.contents_receive level hfits, pending, List.append_assoc]

theorem Awaits.prepare {r : Reader} {waiting : Bytes} (h : Awaits r waiting) :
    Awaits ⟨r.parser, r.buffer.prepare⟩ waiting := by
  obtain ⟨state, hparser, hvalid, rfl, hcapacity⟩ := h
  refine ⟨state, hparser, hvalid, ?_, ?_⟩
  · rw [pending, ReadBuffer.contents_prepare, pending]
  · rw [ReadBuffer.capacity_prepare, hcapacity]

def decoding : Decoding where
  first? := first?
  length_lt h :=
    Nat.lt_of_lt_of_le (Nat.lt_add_of_pos_right (Nat.succ_pos 6)) (length_of_first? h)
  append := first?_append

theorem tracks : decoding.Tracks (fun _ => False) Awaits where
  attempts h level := .inr (h.attempts level)
  room_pos h first := .inr (h.room_pos first)
  receive h level _ _ fits := (h.receive level fits).2
  prepare h := h.prepare
  silent h := h.elim
  foreign_append h _ := h

theorem decode_eq (stream : Bytes) : decode stream = (decoding.split stream).1 := by
  induction hn : stream.length using Nat.strongRecOn generalizing stream with
  | ind n ih =>
    cases hfirst : first? stream with
    | none => rw [decode_of_none hfirst, Decoding.split_of_none (d := decoding) hfirst]
    | some found =>
      obtain ⟨result, rest⟩ := found
      have hless := length_of_first? hfirst
      rw [decode_of_some hfirst, Decoding.split_of_some (d := decoding) hfirst,
        ih rest.length (by omega) rest rfl]

def reported (stream : Bytes) : List (Except RequestFault Frame) :=
  (decode stream).map (·.mapError .badFrame)

theorem reported_eq (stream : Bytes) : reported stream = decoding.reported stream := by
  rw [reported, decode_eq, Decoding.reported]

/-- Each entry of a transcript is the next result, until the limit is reached or the stream ends. -/
theorem results_transcript {r : Reader} {waiting : Bytes} (h : Awaits r waiting) (limit : Nat)
    (level : DecodeLevel) (script : Script) :
    results (r.transcript limit level .resume script) <+: reported (waiting ++ script.content) ∧
      (script.length + (waiting ++ script.content).length < limit →
        results (r.transcript limit level .resume script) =
          reported (waiting ++ script.content)) := by
  obtain ⟨hagree, hall⟩ := tracks.transcript h limit level script
  rw [← reported_eq] at hagree hall
  have hheard := hagree.resolve_right And.left
  exact ⟨hheard, fun hlimit => hheard.eq_of_length_le (hall hlimit).length_le⟩

/-- The results of a stream are consecutive pieces of it, and what is left behind the last one is no
result. -/
theorem pieces_decode (stream : Bytes) :
    ∃ (pieces : List Bytes) (tail : Bytes), stream = pieces.flatten ++ tail ∧
      List.Forall₂ (fun piece result => first? piece = some (result, [])) pieces (decode stream) ∧
      first? tail = none := by
  induction hn : stream.length using Nat.strongRecOn generalizing stream with
  | ind n ih =>
    cases hfirst : first? stream with
    | none =>
      rw [decode_of_none hfirst]
      exact ⟨[], stream, rfl, .nil, hfirst⟩
    | some found =>
      obtain ⟨result, rest⟩ := found
      have hless := length_of_first? hfirst
      obtain ⟨piece, rfl, -, hpiece⟩ := first?_eq_some hfirst
      obtain ⟨pieces, tail, hrest, hall, htail⟩ := ih rest.length (by omega) rest rfl
      rw [decode_of_some hfirst]
      refine ⟨piece :: pieces, tail, ?_, .cons ?_ hall, htail⟩
      · rw [List.flatten_cons, List.append_assoc, ← hrest]
      · have halone := hpiece []
        rwa [List.append_nil] at halone

/-- Reading does not depend on how the stream is cut and on what fails in between: the results of
any number of calls are the first results of the stream, enough calls give all of them, and the
pieces of the stream that they are read from leave nothing out. -/
theorem transcript_eq_decode (level : DecodeLevel) (script : Script) :
    (∀ limit, results ((Reader.ofParser (.mbap .start)).transcript limit level .resume script) <+:
      reported script.content) ∧
    (∀ more, results ((Reader.ofParser (.mbap .start)).transcript
      (script.length + script.content.length + 1 + more) level .resume script) =
        reported script.content) ∧
    ∃ (pieces : List Bytes) (tail : Bytes), script.content = pieces.flatten ++ tail ∧
      List.Forall₂ (fun piece result => first? piece = some (result, [])) pieces
        (decode script.content) ∧
      first? tail = none := by
  refine ⟨fun limit => ?_, fun more => ?_, pieces_decode script.content⟩
  · exact (results_transcript awaits_ofParser limit level script).1
  · refine (results_transcript awaits_ofParser _ level script).2 ?_
    rw [List.nil_append]
    omega

end ModbusSlave.Mbap
