import ModbusSlave.Proofs.Stream.Reading
import ModbusSlave.Proofs.Stream.RtuDecoding

/-!
# Reading a serial line in pieces

Asking a reader for frame after frame is decoding the line at once, however the bytes are cut into
reads and whatever fails in between, up to the first frame that is no standard request. How far such
a frame goes depends on what has arrived, so that nothing is said of it and of the bytes behind it.
-/
namespace ModbusSlave.Rtu

open Mbap (results)

/-- A reader between two calls, with `waiting` taken in and not used. -/
def Awaits (r : Reader) (waiting : Bytes) : Prop :=
  ∃ state : State, r.parser = .rtu state ∧ state.Fits r.buffer.contents ∧
    pending state r.buffer = waiting ∧ r.buffer.capacity = maxFrame

theorem awaits_ofParser : Awaits (.ofParser (.rtu .start)) [] := by
  refine ⟨.start, rfl, .start, ?_, ?_⟩
  · rw [pending, State.consumed, List.nil_append, Reader.ofParser, ReadBuffer.contents_ofCapacity]
  · rw [Reader.ofParser, ReadBuffer.capacity_ofCapacity, Parser.maxFrame]

theorem Awaits.attempts {r : Reader} {waiting : Bytes} (h : Awaits r waiting)
    (hknown : ¬ Foreign waiting) (level : FrameLevel) :
    Attempts first? Awaits waiting (r.parser.parse r.buffer level) := by
  obtain ⟨state, hparser, hfits, rfl, hcapacity⟩ := h
  have hparses := parses hfits hknown
  rw [hcapacity] at hparses
  rw [hparser]
  dsimp only [Parser.parse]
  generalize parse state r.buffer = parsed at hparses
  obtain ⟨outcome, after, b, unit?⟩ := parsed
  dsimp only at hparses
  cases hparses with
  | @result result b first keeps =>
    have hstart : Awaits ⟨.rtu .start, b⟩ b.contents := ⟨.start, rfl, .start, rfl, keeps⟩
    cases result with
    | ok frame => exact .frame rfl hstart first
    | error fault => exact .fault rfl hstart first
  | waits fits same first keeps => exact .waits rfl ⟨_, rfl, fits, same, keeps⟩ first

theorem Awaits.room_pos {r : Reader} {waiting : Bytes} (h : Awaits r waiting)
    (hnone : first? waiting = none) (hknown : ¬ Foreign waiting) : 0 < r.room := by
  obtain ⟨state, -, -, rfl, hcapacity⟩ := h
  apply r.buffer.room_prepare_pos
  have hlength := length_of_first?_none hnone hknown
  rw [pending, List.length_append] at hlength
  omega

theorem Awaits.receive {r : Reader} {waiting : Bytes} (h : Awaits r waiting)
    (level : PhysicalLevel) (x : UInt8) {bytes : Bytes} (hroom : bytes.length < r.room) :
    Awaits (r.receive level (.ok (x :: bytes))).reader (waiting ++ x :: bytes) := by
  obtain ⟨state, hparser, hfits, rfl, hcapacity⟩ := h
  have hcontents := Reader.contents_receive (x := x) level hroom
  refine ⟨state, hparser, ?_, ?_, (r.capacity_receive level x bytes).trans hcapacity⟩
  · rw [hcontents]
    exact hfits.append (x :: bytes)
  · rw [pending, hcontents, pending, List.append_assoc]

theorem Awaits.prepare {r : Reader} {waiting : Bytes} (h : Awaits r waiting) :
    Awaits ⟨r.parser, r.buffer.prepare⟩ waiting := by
  obtain ⟨state, hparser, hfits, rfl, hcapacity⟩ := h
  refine ⟨state, hparser, ?_, ?_, ?_⟩
  · rwa [ReadBuffer.contents_prepare]
  · rw [pending, ReadBuffer.contents_prepare, pending]
  · rw [ReadBuffer.capacity_prepare, hcapacity]

theorem Foreign.append {stream : Bytes} (h : Foreign stream) (more : Bytes) :
    Foreign (stream ++ more) := by
  match stream with
  | [] | [_] => exact h.elim
  | _ :: _ :: _ => exact h

def decoding : Decoding where
  first? := first?
  length_lt := length_of_first?
  append := first?_append

theorem tracks : decoding.Tracks Foreign Awaits where
  attempts {_ waiting} h level := by
    by_cases hknown : Foreign waiting
    · exact .inl hknown
    · exact .inr (h.attempts hknown level)
  room_pos {_ waiting} h first := by
    by_cases hknown : Foreign waiting
    · exact .inl hknown
    · exact .inr (h.room_pos first hknown)
  receive h level x _ fits := h.receive level x fits
  prepare h := h.prepare
  silent h := first?_of_foreign h
  foreign_append h more := h.append more

/-- Reading does not depend on how the line is cut and on what fails in between. The results of any
number of calls are the first results of the line, until these end before a frame of another kind;
enough calls give all of them, and nothing more unless such a frame follows. -/
theorem transcript_eq_split (level : DecodeLevel) (script : Script) :
    let line := script.content
    let reported := decoding.reported line
    let rest := (decoding.split line).2
    let heard limit :=
      results ((Reader.ofParser (.rtu .start)).transcript limit level .resume script)
    (∀ limit, heard limit <+: reported ∨ (Foreign rest ∧ reported <+: heard limit)) ∧
    ∀ more,
      let all := heard (script.length + line.length + 1 + more)
      all = reported ∨ (Foreign rest ∧ reported <+: all) := by
  intro line reported rest heard
  have htranscript := fun limit => tracks.transcript awaits_ofParser limit level script
  simp only [List.nil_append] at htranscript
  refine ⟨fun limit => (htranscript limit).1, fun more => ?_⟩
  obtain ⟨hagree, hall⟩ := htranscript (script.length + line.length + 1 + more)
  have hmore : script.length + line.length < script.length + line.length + 1 + more := by omega
  have hreported := hall hmore
  rcases hagree with hheard | hforeign
  · exact .inl (hheard.eq_of_length_le hreported.length_le)
  · exact .inr hforeign

end ModbusSlave.Rtu
