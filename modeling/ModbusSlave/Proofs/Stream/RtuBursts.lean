import Mathlib.Data.List.Basic
import ModbusSlave.Proofs.Stream.RtuFrames
import ModbusSlave.Proofs.Wire.Checksum

/-!
# Bursts on a serial line

A burst that leaves the length of a frame alone, and with it the bytes that tell this length, never
goes unnoticed: what comes is as long as a frame, and the word at its end is not the checksum of the
bytes before it. It does not matter whether the burst hits the data, the checksum or both.
-/
namespace ModbusSlave.Rtu

/-- Bytes that are as many as those of a frame are a frame with some word in the place of its
checksum. -/
theorem exists_sealed {received : Bytes} {n : Nat} (h : received.length = n + 4) :
    ∃ frame w, received = sealed frame w ∧ frame.framing = .rtu ∧ frame.data.length = n := by
  match received with
  | [] | [_] => simp at h
  | unit :: function :: rest =>
    have hrest : rest.length = n + 2 := by simpa using h
    have hend : (rest.drop n).length = 2 := by simp [hrest]
    obtain ⟨low, high, hword⟩ := List.length_eq_two.mp hend
    refine ⟨⟨.rtu, ⟨unit⟩, function, rest.take n⟩, Word.join high low, ?_, rfl, ?_⟩
    · rw [sealed, Word.little, Word.low_join, Word.high_join, ← hword, List.take_append_drop]
    · simp [hrest]

theorem Shaped.congr {frame other : Frame} (h : Shaped frame) (framing : other.framing = .rtu)
    (function : other.function = frame.function)
    (length : other.data.length = frame.data.length)
    (count : frame.function ∈ countedCodes → other.data[4]? = frame.data[4]?) : Shaped other := by
  cases h with
  | standard own =>
    apply Shaped.standard
    cases own with
    | fixed _ code size => exact .fixed framing (function ▸ code) (length.trans size)
    | counted _ code found size short =>
      exact .counted framing (function ▸ code) ((count code).trans found) (length.trans size)
        (length.trans_le short)
  | custom own =>
    apply Shaped.custom
    exact ⟨framing, function ▸ own.not_fixed, function ▸ own.not_counted,
      length.trans_le own.short⟩

theorem Shaped.length_of_counted {frame : Frame} (h : Shaped frame)
    (code : frame.function ∈ countedCodes) : 5 ≤ frame.data.length := by
  cases h with
  | standard own =>
    cases own with
    | fixed _ fixed => exact absurd fixed (not_fixed_of_counted code)
    | counted _ _ _ length => omega
  | custom other => exact absurd code other.not_counted

/-- The byte of a frame at the place of its count. -/
theorem sealed_count {frame : Frame} (h : 5 ≤ frame.data.length) (received : UInt16) :
    (sealed frame received)[6]? = frame.data[4]? := by
  rw [sealed, List.getElem?_cons_succ, List.getElem?_cons_succ, List.getElem?_append_left h]

theorem Idle.reset {r : Reader} (h : Idle r) : Idle r.reset where
  parser := by rw [Reader.reset, h.parser, Parser.reset]
  contents := r.buffer.contents_clear
  capacity := h.capacity

theorem Idle.transcript_nil {r : Reader} (h : Idle r) (limit : Nat) (level : DecodeLevel)
    (recovery : Recovery) :
    ∀ entry ∈ r.transcript limit level recovery [], ∀ frame, entry.outcome ≠ .ok frame := by
  cases limit with
  | zero => simp [Reader.transcript]
  | succ limit =>
    have hnone : ∀ frame ∈ ([] : List Frame), Shaped frame := by simp
    have hwhole := h.transcript_whole hnone level recovery limit
    rw [List.length_nil, Nat.zero_add, Nat.add_comm, List.map_nil] at hwhole
    intro entry hentry frame hframe
    have hmem := List.mem_map_of_mem (f := (·.outcome)) hentry
    rw [hwhole, hframe] at hmem
    simp at hmem

/-- Bytes that end with a wrong checksum are never reported as a frame. -/
theorem Idle.transcript_sealed {r : Reader} (h : Idle r) {frame : Frame} (hframe : Shaped frame)
    {received : UInt16} (hne : received ≠ frame.checksum) (limit : Nat) (level : DecodeLevel)
    (recovery : Recovery) :
    ∀ entry ∈ r.transcript limit level recovery [.bytes (sealed frame received)],
      ∀ found, entry.outcome ≠ .ok found := by
  cases limit with
  | zero => simp [Reader.transcript]
  | succ limit =>
    obtain ⟨houtcome, hidle, hscript⟩ := h.nextFrame_sealed hframe received level []
    rw [judged_of_ne hne] at houtcome
    obtain ⟨later, htranscript, hlater⟩ := Reader.transcript_of_fault houtcome limit recovery
    rw [htranscript]
    intro entry hentry found
    rcases List.mem_cons.mp hentry with rfl | hentry
    · simp
    · cases hlater with
      | stops => cases hentry
      | resumes =>
        rw [hscript] at hentry
        exact hidle.transcript_nil limit level .resume entry hentry found
      | resets =>
        rw [hscript] at hentry
        exact hidle.reset.transcript_nil limit level .reset entry hentry found

/-- A frame that a burst has hit on the line is reported with the checksum it came with and the one
it should have, and never as a frame. -/
theorem nextFrame_of_burst (level : DecodeLevel) {frame : Frame} {received : Bytes}
    (shaped : Shaped frame) (burst : Burst frame.encode received)
    (function : received[1]? = frame.encode[1]?)
    (count : frame.function ∈ countedCodes → received[6]? = frame.encode[6]?) :
    let start := Reader.ofParser (.rtu .start)
    ∃ damaged carried, received = sealed damaged carried ∧ carried ≠ damaged.checksum ∧
      (∀ later,
        let next := start.nextFrame level (.bytes received :: later)
        next.outcome = .error (.badFrame (.checksumMismatch carried damaged.checksum)) ∧
          Idle next.reader ∧ next.script = later) ∧
      ∀ limit recovery, ∀ entry ∈ start.transcript limit level recovery [.bytes received],
        ∀ found, entry.outcome ≠ .ok found := by
  intro start
  have hlength : received.length = frame.data.length + 4 := by
    rw [burst.length, encode_eq shaped.framing, length_sealed]
  obtain ⟨damaged, carried, rfl, framing, length⟩ := exists_sealed hlength
  rw [encode_eq shaped.framing] at burst function count
  have hfunction : damaged.function = frame.function := by simpa [sealed] using function
  have hcount : frame.function ∈ countedCodes → damaged.data[4]? = frame.data[4]? := by
    intro hcode
    have hlong := shaped.length_of_counted hcode
    rw [← sealed_count hlong frame.checksum, ← count hcode, sealed_count (length ▸ hlong)]
  have hshaped := shaped.congr framing hfunction length hcount
  have hburst : Burst (frame.unit.value :: frame.pdu ++ Word.little frame.checksum)
      (damaged.unit.value :: damaged.pdu ++ Word.little carried) := burst
  have hne : carried ≠ damaged.checksum := hburst.checksum_ne
  refine ⟨damaged, carried, rfl, hne, ?_, ?_⟩
  · intro later
    have hnext := idle_ofParser.nextFrame_sealed hshaped carried level later
    rwa [judged_of_ne hne] at hnext
  · intro limit recovery
    exact idle_ofParser.transcript_sealed hshaped hne limit level recovery

/-- A request to write a register, hit from the middle of its value to the middle of the second byte
of its checksum. -/
theorem nextFrame_of_burst_across :
    let frame : Frame := ⟨.rtu, ⟨1⟩, 0x10, [0x00, 0x00, 0x00, 0x01, 0x02, 0xAB, 0xCD]⟩
    let received : Bytes := [0x01, 0x10, 0x00, 0x00, 0x00, 0x01, 0x02, 0xAB, 0x5D, 0x3C, 0xFD]
    let start := Reader.ofParser (.rtu .start)
    frame.encode = [0x01, 0x10, 0x00, 0x00, 0x00, 0x01, 0x02, 0xAB, 0xCD, 0x18, 0xF5] ∧
      Shaped frame ∧ Burst frame.encode received ∧ received[1]? = frame.encode[1]? ∧
      received[6]? = frame.encode[6]? ∧
      ∃ damaged carried, received = sealed damaged carried ∧
        (start.nextFrame .nothing [.bytes received]).outcome =
          .error (.badFrame (.checksumMismatch carried damaged.checksum)) := by
  intro frame received start
  have shaped : Shaped frame := .standard (.counted rfl (by decide) rfl rfl (by decide))
  have burst : Burst frame.encode received := by
    apply Burst.of_bits
    · decide +kernel
    · exact ⟨68, by decide +kernel⟩
    · show ∀ k < 8 * frame.encode.length, Bits.bit received k ≠ Bits.bit frame.encode k →
        68 ≤ k ∧ k < 68 + 16
      decide +kernel
  have function : received[1]? = frame.encode[1]? := by decide +kernel
  have count : received[6]? = frame.encode[6]? := by decide +kernel
  obtain ⟨damaged, carried, hsealed, -, hnext, -⟩ :=
    nextFrame_of_burst .nothing shaped burst function fun _ => count
  exact ⟨by decide +kernel, shaped, burst, function, count, damaged, carried, hsealed,
    (hnext []).1⟩

end ModbusSlave.Rtu
