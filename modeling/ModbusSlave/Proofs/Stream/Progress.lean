import Mathlib.Data.List.Chain
import ModbusSlave.Proofs.Stream.Handling
import ModbusSlave.Proofs.Stream.MbapFrames
import ModbusSlave.Proofs.Stream.RtuFrames

/-!
# Every result takes up bytes

What a reader has taken in and not used, followed by what its script still holds, is what is left of
the stream. Every frame and every rejected frame is charged to bytes at the front of it which are
gone afterwards, also where the parser has consumed some of them earlier. So the results come to an
end, whether the reader starts afresh behind a fault or goes on.
-/
namespace ModbusSlave

/-- The bytes of the stream that a reader has taken in and not used. -/
def Reader.held (r : Reader) : Bytes :=
  match r.parser with
  | .mbap state => Mbap.pending state r.buffer
  | .rtu state => Rtu.pending state r.buffer

/-- The bytes of the stream that are left for a reader. -/
def Reader.unused (r : Reader) (script : Script) : Bytes := r.held ++ script.content

/-- One search for a frame, with the bytes of the stream that were left before it and after it. -/
structure Reading where
  before : Bytes
  outcome : Except RequestFault Frame
  after : Bytes

def Reader.recover (r : Reader) (afresh : Bool) : Reader := if afresh then r.reset else r

/-- Readings one after the other, behind each of which the reader may start afresh. -/
def Reader.readings (r : Reader) (script : Script) : List (DecodeLevel × Bool) → List Reading
  | [] => []
  | (level, afresh) :: choices =>
    let next := r.nextFrame level script
    ⟨r.unused script, next.outcome, next.reader.unused next.script⟩ ::
      (next.reader.recover afresh).readings next.script choices

/-- The reading came to a frame or rejected one. -/
def Reading.isResult (reading : Reading) : Bool :=
  match reading.outcome with
  | .error (.io _) => false
  | _ => true

namespace Parser

/-- How many bytes a frame takes up at least. -/
def frameShare : Parser → Nat
  | mbap _ => 8
  | rtu _ => 4

/-- How many bytes a rejected frame takes up at least. -/
def faultShare : Parser → FrameFault → Nat
  | mbap _, _ => 7
  | rtu _, .checksumMismatch _ _ => 4
  | rtu _, _ => 1

theorem frameShare_pos (p : Parser) : 0 < p.frameShare := by
  cases p with
  | mbap => exact Nat.succ_pos 7
  | rtu => exact Nat.succ_pos 3

theorem faultShare_pos (p : Parser) (fault : FrameFault) : 0 < p.faultShare fault := by
  cases p with
  | mbap => exact Nat.succ_pos 6
  | rtu =>
    cases fault with
    | checksumMismatch => exact Nat.succ_pos 3
    | _ => exact Nat.succ_pos 0

end Parser

/-- What a reading takes up of the stream: its frame, all or a part of what it rejects, or
nothing. -/
inductive Spends (p : Parser) : Reading → Prop
  | frame {frame : Frame} {after : Bytes} (share : p.frameShare ≤ frame.encode.length) :
      Spends p ⟨frame.encode ++ after, .ok frame, after⟩
  | fault {own after : Bytes} {fault : FrameFault} (share : p.faultShare fault ≤ own.length) :
      Spends p ⟨own ++ after, .error (.badFrame fault), after⟩
  | io {kind : IoKind} {after : Bytes} : Spends p ⟨after, .error (.io kind), after⟩

theorem Spends.length_lt {p : Parser} {reading : Reading} (h : Spends p reading)
    (hresult : reading.isResult) : reading.after.length < reading.before.length := by
  cases h with
  | frame share =>
    have hpos := p.frameShare_pos
    dsimp only
    rw [List.length_append]
    omega
  | @fault _ _ fault share =>
    have hpos := p.faultShare_pos fault
    dsimp only
    rw [List.length_append]
    omega
  | io => cases hresult

theorem Spends.length_le {p : Parser} {reading : Reading} (h : Spends p reading) :
    reading.after.length ≤ reading.before.length := by
  cases h with
  | frame => exact List.length_append ▸ Nat.le_add_left _ _
  | fault => exact List.length_append ▸ Nat.le_add_left _ _
  | io => exact Nat.le_refl _

theorem Spends.io_or_result {p : Parser} {reading : Reading} (h : Spends p reading) :
    (∃ kind, reading.outcome = .error (.io kind)) ∨ reading.isResult := by
  cases h with
  | frame => exact .inr rfl
  | fault => exact .inr rfl
  | io => exact .inl ⟨_, rfl⟩

namespace Mbap

theorem Awaits.held {r : Reader} {waiting : Bytes} (h : Awaits r waiting) : r.held = waiting := by
  obtain ⟨state, hparser, -, rfl, -⟩ := h
  rw [Reader.held, hparser]

theorem spends {p : Parser} {r : Reader} {state : State} (h : r.Settled p p.maxFrame)
    (hparser : r.parser = .mbap state) (other : State) (level : DecodeLevel) (script : Script) :
    Spends (.mbap other) ⟨r.unused script, (r.nextFrame level script).outcome,
      (r.nextFrame level script).reader.unused (r.nextFrame level script).script⟩ := by
  have hvalid := h.valid
  have hmax := h.maxFrame_eq
  rw [hparser] at hvalid hmax
  have hawaits : Awaits r r.held := by
    refine ⟨state, hparser, hvalid, ?_, h.keeps.trans hmax.symm⟩
    rw [Reader.held, hparser]
  rw [Reader.unused, Reader.unused]
  cases tracks.nexts hawaits level script with
  | @result result left outcome awaits first =>
    rw [awaits.held, outcome]
    cases result with
    | ok frame =>
      obtain ⟨⟨⟨transaction, hframing⟩, -⟩, hstream⟩ := eq_encode_of_first? first
      rw [hstream]
      refine .frame ?_
      rw [Frame.length_encode, hframing]
      exact Nat.le_add_left 8 _
    | error fault =>
      obtain ⟨header, hlength, hstream⟩ := header_of_first? first
      rw [hstream]
      exact .fault (Nat.le_of_eq hlength.symm)
  | io outcome awaits same =>
    rw [awaits.held, outcome, same]
    exact .io
  | foreign hforeign => exact hforeign.elim

end Mbap

namespace Rtu

theorem Holds.held {r : Reader} {waiting : Bytes} (h : Holds r waiting) : r.held = waiting := by
  obtain ⟨state, hparser, rfl⟩ := h
  rw [Reader.held, hparser]

theorem Consumes.spends {stream left : Bytes} {outcome : Except RequestFault Frame}
    (h : Consumes stream outcome left) (state : State) :
    Spends (.rtu state) ⟨stream, outcome, left⟩ := by
  cases h with
  | frame framing =>
    refine .frame ?_
    rw [Frame.length_encode, framing]
    exact Nat.le_add_left 4 _
  | @long unit count _ => exact @Spends.fault _ [unit] left _ (Nat.le_refl 1)
  | @mismatch frame received _ =>
    rw [List.cons_append, ← List.append_assoc, ← List.cons_append]
    refine .fault ?_
    simp only [Frame.pdu, Word.little, List.length_append, List.length_cons, List.length_nil]
    exact Nat.le_add_left 4 _
  | io => exact .io

theorem spends {r : Reader} {state : State} (hparser : r.parser = .rtu state) (other : State)
    (level : DecodeLevel) (script : Script) :
    Spends (.rtu other) ⟨r.unused script, (r.nextFrame level script).outcome,
      (r.nextFrame level script).reader.unused (r.nextFrame level script).script⟩ := by
  have hholds : Holds r r.held := by
    refine ⟨state, hparser, ?_⟩
    rw [Reader.held, hparser]
  obtain ⟨left, hleft, hconsumes⟩ := hholds.nextFrame level script
  rw [Reader.unused, Reader.unused, hleft.held]
  exact hconsumes.spends other

end Rtu

theorem Reader.held_reset (r : Reader) : r.reset.held = [] := by
  cases hparser : r.parser with
  | mbap state =>
    rw [Reader.held, Reader.reset, hparser]
    exact r.buffer.contents_clear
  | rtu state =>
    rw [Reader.held, Reader.reset, hparser]
    exact r.buffer.contents_clear

theorem Reader.held_ofParser (p : Parser) : (Reader.ofParser p.reset).held = [] := by
  cases p with
  | mbap state => exact Mbap.awaits_ofParser.held
  | rtu state => exact Rtu.holds_ofParser.held

theorem Reader.unused_recover (r : Reader) (afresh : Bool) (script : Script) :
    (r.recover afresh).unused script <:+ r.unused script := by
  cases afresh with
  | false => exact List.suffix_rfl
  | true =>
    rw [Reader.unused, Reader.recover, if_pos rfl, Reader.held_reset]
    exact List.suffix_append r.held script.content

namespace Reader.Settled

variable {p : Parser} {r : Reader}

theorem reset {capacity : Nat} (h : r.Settled p capacity) : r.reset.Settled p capacity :=
  ⟨r.parser.reset_reset.trans h.framing, r.parser.valid_reset, h.keeps⟩

theorem recover {capacity : Nat} (h : r.Settled p capacity) (afresh : Bool) :
    (r.recover afresh).Settled p capacity := by
  cases afresh with
  | false => exact h
  | true => exact h.reset

theorem nextFrame {capacity : Nat} (h : r.Settled p capacity) (level : DecodeLevel)
    (script : Script) : (r.nextFrame level script).reader.Settled p capacity :=
  h.finds (r.finds level script)

/-- Every reading is charged to the front of what is left of the stream. -/
theorem spends (h : r.Settled p p.maxFrame) (level : DecodeLevel) (script : Script) :
    Spends p ⟨r.unused script, (r.nextFrame level script).outcome,
      (r.nextFrame level script).reader.unused (r.nextFrame level script).script⟩ := by
  have hframing := h.framing
  cases hparser : r.parser with
  | mbap state =>
    rw [hparser] at hframing
    cases p with
    | mbap other => exact Mbap.spends h hparser other level script
    | rtu => cases hframing
  | rtu state =>
    rw [hparser] at hframing
    cases p with
    | mbap => cases hframing
    | rtu other => exact Rtu.spends hparser other level script

theorem shorter (h : r.Settled p p.maxFrame) (level : DecodeLevel) (script : Script)
    {kind : IoKind} (hio : (r.nextFrame level script).outcome = .error (.io kind)) :
    (r.nextFrame level script).script = [] ∨
      (r.nextFrame level script).script.length < script.length := by
  obtain ⟨left, hleaves, hbreaks⟩ := h.breaks (hio ▸ r.finds level script)
  have hlength := hleaves.length_le
  exact hbreaks.shorter.imp_right fun hless => Nat.lt_of_lt_of_le hless hlength

end Reader.Settled

/-- A reader without a byte that its parser could use. -/
def Reader.Dry (r : Reader) : Prop := r.parser.Lacks r.buffer.contents

theorem Reader.dry_reset (r : Reader) : r.reset.Dry := by
  rw [Dry, reset, ReadBuffer.contents_clear]
  cases r.parser with
  | mbap => exact .header (Nat.succ_pos 6)
  | rtu => exact .code (Nat.succ_pos 1)

theorem Reader.Dry.recover {r : Reader} (h : r.Dry) (afresh : Bool) : (r.recover afresh).Dry := by
  cases afresh with
  | false => exact h
  | true => exact r.dry_reset

theorem Reader.Dry.nextFrame {r : Reader} (h : r.Dry) (level : DecodeLevel) :
    (r.nextFrame level []).outcome = .error (.io .unexpectedEof) ∧
      (r.nextFrame level []).reader.Dry ∧ (r.nextFrame level []).script = [] := by
  obtain ⟨houtcome, hparser, hbuffer⟩ := h.parse level.frame
  rw [nextFrame_eq]
  dsimp only
  rw [houtcome, hparser, hbuffer]
  refine ⟨rfl, ?_, rfl⟩
  have hcontents := h
  rw [Dry, ← ReadBuffer.contents_prepare] at hcontents
  exact hcontents

namespace Reader.Settled

theorem dry {p : Parser} {capacity : Nat} {level : DecodeLevel} {r after : Reader}
    {script left : Script} {kind : IoKind} (h : r.Settled p capacity)
    (hfinds : Reader.Finds level r script (.error (.io kind)) after left) : after.Dry := by
  generalize houtcome : (Except.error (.io kind) : Except RequestFault Frame) = outcome at hfinds
  induction hfinds with
  | frame => cases houtcome
  | fault outcome =>
    have hproper := (h.judged level.frame).proper
    cases houtcome
    rw [outcome] at hproper
    cases hproper
  | failure waits =>
    rw [Reader.Dry, ReadBuffer.contents_prepare]
    exact Parser.lacks_parse waits
  | nothing waits =>
    rw [Reader.Dry, ReadBuffer.contents_prepare]
    exact Parser.lacks_parse waits
  | more waits read later ih => exact ih ((h.judged level.frame).settled.receive _ _) houtcome

end Reader.Settled

theorem Reader.Dry.readings {r : Reader} (h : r.Dry) (choices : List (DecodeLevel × Bool)) :
    ∀ reading ∈ r.readings [] choices, ∃ kind, reading.outcome = .error (.io kind) := by
  induction choices generalizing r with
  | nil => exact fun reading hreading => absurd hreading List.not_mem_nil
  | cons choice choices ih =>
    obtain ⟨level, afresh⟩ := choice
    obtain ⟨houtcome, hdry, hscript⟩ := h.nextFrame level
    intro reading hreading
    rw [Reader.readings, hscript] at hreading
    rcases List.mem_cons.mp hreading with rfl | hlater
    · exact ⟨_, houtcome⟩
    · exact ih (hdry.recover afresh) reading hlater

section Readings

variable {p : Parser} {r : Reader}

theorem spends_readings (h : r.Settled p p.maxFrame) (script : Script)
    (choices : List (DecodeLevel × Bool)) :
    ∀ reading ∈ r.readings script choices, Spends p reading := by
  induction choices generalizing r script with
  | nil => exact fun reading hreading => absurd hreading List.not_mem_nil
  | cons choice choices ih =>
    obtain ⟨level, afresh⟩ := choice
    intro reading hreading
    rcases List.mem_cons.mp hreading with rfl | hlater
    · exact h.spends level script
    · exact ih ((h.nextFrame level script).recover afresh) _ reading hlater

theorem before_head_readings (r : Reader) (script : Script) (choices : List (DecodeLevel × Bool)) :
    ∀ reading ∈ (r.readings script choices).head?, reading.before = r.unused script := by
  cases choices with
  | nil => exact fun reading hreading => by cases hreading
  | cons choice choices =>
    obtain ⟨level, afresh⟩ := choice
    intro reading hreading
    cases hreading
    rfl

/-- A reading goes on behind what the reading before it took up. -/
theorem isChain_readings (r : Reader) (script : Script) (choices : List (DecodeLevel × Bool)) :
    (r.readings script choices).IsChain fun earlier later => later.before <:+ earlier.after := by
  induction choices generalizing r script with
  | nil => exact .nil
  | cons choice choices ih =>
    obtain ⟨level, afresh⟩ := choice
    refine List.isChain_cons.mpr ⟨fun reading hreading => ?_, ih _ _⟩
    rw [before_head_readings _ _ _ reading hreading]
    exact Reader.unused_recover _ afresh _

theorem length_results_readings (h : r.Settled p p.maxFrame) (script : Script)
    (choices : List (DecodeLevel × Bool)) :
    ((r.readings script choices).filter Reading.isResult).length ≤ (r.unused script).length := by
  induction choices generalizing r script with
  | nil => exact Nat.zero_le _
  | cons choice choices ih =>
    obtain ⟨level, afresh⟩ := choice
    have hspends := h.spends level script
    have hlater := ih ((h.nextFrame level script).recover afresh)
      (r.nextFrame level script).script
    have hsuffix := (Reader.unused_recover (r.nextFrame level script).reader afresh
      (r.nextFrame level script).script).length_le
    rw [Reader.readings, List.filter_cons]
    split
    · next hresult =>
      have hless := hspends.length_lt hresult
      dsimp only at hless
      rw [List.length_cons]
      omega
    · have hle := hspends.length_le
      dsimp only at hle
      omega

/-- So many readings after which no result can be left. -/
def Reader.measure (r : Reader) (script : Script) : Nat :=
  script.length + (r.unused script).length

/-- A result lowers the measure, and so does an error of the stream while its script has not
ended. -/
theorem measure_lt (h : r.Settled p p.maxFrame) (level : DecodeLevel) (afresh : Bool)
    (script : Script) :
    ((∃ kind, (r.nextFrame level script).outcome = .error (.io kind)) ∧
        (r.nextFrame level script).script = []) ∨
      ((r.nextFrame level script).reader.recover afresh).measure
        (r.nextFrame level script).script < r.measure script := by
  have hspends := h.spends level script
  have hlength := (r.finds level script).length_le
  have hsuffix := (Reader.unused_recover (r.nextFrame level script).reader afresh
    (r.nextFrame level script).script).length_le
  have hle := hspends.length_le
  dsimp only at hle
  rw [Reader.measure, Reader.measure]
  rcases hspends.io_or_result with ⟨kind, hio⟩ | hresult
  · rcases h.shorter level script hio with hended | hshorter
    · exact .inl ⟨⟨kind, hio⟩, hended⟩
    · right
      omega
  · have hless := hspends.length_lt hresult
    dsimp only at hless
    right
    omega

theorem io_of_drop_readings (h : r.Settled p p.maxFrame) (script : Script)
    (choices : List (DecodeLevel × Bool)) {n : Nat} (hn : r.measure script ≤ n) :
    ∀ reading ∈ (r.readings script choices).drop n,
      ∃ kind, reading.outcome = .error (.io kind) := by
  induction choices generalizing r script n with
  | nil =>
    intro reading hreading
    rw [Reader.readings, List.drop_nil] at hreading
    exact absurd hreading List.not_mem_nil
  | cons choice choices ih =>
    obtain ⟨level, afresh⟩ := choice
    intro reading hreading
    rcases measure_lt h level afresh script with ⟨⟨kind, hio⟩, hended⟩ | hless
    · have hdry := h.dry (hio ▸ r.finds level script)
      have hreading := List.mem_of_mem_drop hreading
      rw [Reader.readings, hended] at hreading
      rcases List.mem_cons.mp hreading with rfl | hlater
      · exact ⟨kind, hio⟩
      · exact (hdry.recover afresh).readings choices reading hlater
    · obtain ⟨n, rfl⟩ := Nat.exists_eq_succ_of_ne_zero (Nat.ne_of_gt (Nat.lt_of_lt_of_le
        (Nat.zero_lt_of_lt hless) hn))
      rw [Reader.readings, List.drop_succ_cons] at hreading
      exact ih ((h.nextFrame level script).recover afresh) _ (by omega) reading hreading

end Readings

/-- For a new reader of either framing, any script, any number of readings and any choice behind
each of them whether to start afresh: every frame and every rejected frame takes up bytes at the
front of what is left of the stream, every reading goes on in what the one before it has left, there
are no more results than bytes, and after as many readings as there are bytes and pieces only errors
of the stream remain. Every reading ends: it parses at most once more than there are bytes to come,
and no parsing calls itself more than three calls deep. -/
theorem readings_progress (p : Parser) (script : Script) (choices : List (DecodeLevel × Bool)) :
    let readings := (Reader.ofParser p.reset).readings script choices
    (∀ reading ∈ readings, Spends p reading) ∧
    (∀ reading ∈ readings.head?, reading.before = script.content) ∧
    readings.IsChain (fun earlier later => later.before <:+ earlier.after) ∧
    (readings.filter Reading.isResult).length ≤ script.content.length ∧
    (∀ reading ∈ readings.drop (script.length + script.content.length),
      ∃ kind, reading.outcome = .error (.io kind)) ∧
    (∀ (r : Reader) (level : DecodeLevel) (later : Script),
      let next := r.nextFrame level later
      r.loose.nextFrame? (later.content.length + 1) later =
        some (next.outcome, next.reader.loose, next.script)) ∧
    (∀ state b, (calls? Mbap.turn? 3 state (ReadBuffer.loose b)).isSome) ∧
    (∀ state b, (calls? Rtu.turn? 3 state (ReadBuffer.loose b)).isSome) := by
  intro readings
  have hsettled : (Reader.ofParser p.reset).Settled p p.maxFrame := by
    have hnew := settled_ofCapacity p p.maxFrame
    rwa [← p.maxFrame_reset] at hnew ⊢
  have hunused : (Reader.ofParser p.reset).unused script = script.content := by
    rw [Reader.unused, Reader.held_ofParser, List.nil_append]
  have hmeasure : (Reader.ofParser p.reset).measure script =
      script.length + script.content.length := by
    rw [Reader.measure, hunused]
  refine ⟨spends_readings hsettled script choices, ?_, isChain_readings _ script choices, ?_, ?_,
    ?_, ?_, ?_⟩
  · intro reading hreading
    rw [before_head_readings _ script choices reading hreading, hunused]
  · rw [← hunused]
    exact length_results_readings hsettled script choices
  · exact io_of_drop_readings hsettled script choices (Nat.le_of_eq hmeasure)
  · exact fun r level later => r.nextFrame?_loose level later (Nat.lt_succ_self _)
  · intro state b
    rw [Mbap.calls?_loose state b 1]
    rfl
  · intro state b
    rw [Rtu.calls?_loose state b 0]
    rfl

end ModbusSlave
