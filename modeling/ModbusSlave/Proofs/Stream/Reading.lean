import Mathlib.Tactic.SplitIfs
import ModbusSlave.Proofs.Stream.Buffer
import ModbusSlave.Stream.Transcript

/-!
# Reading against a decoding

A decoding tells of a stream as a whole what its first result is, and so what all of them are. A
reader that takes the same decisions on the bytes that wait comes to these results, wherever the
reads of a script cut the stream and whatever fails in between. Where the decoding has nothing to
say of a stream, however long it gets, the reader may do as it likes.
-/
namespace ModbusSlave

/-- What a stream begins with and the bytes behind it. A result takes up some bytes and stays what
it is when more come in. -/
structure Decoding where
  first? : Bytes → Option (Except FrameFault Frame × Bytes)
  length_lt {stream rest : Bytes} {result : Except FrameFault Frame} :
    first? stream = some (result, rest) → rest.length < stream.length
  append {stream rest : Bytes} {result : Except FrameFault Frame} :
    first? stream = some (result, rest) →
      ∀ more, first? (stream ++ more) = some (result, rest ++ more)

namespace Decoding

/-- All the results of a stream, and the bytes behind the last of them. -/
def split (d : Decoding) (stream : Bytes) : List (Except FrameFault Frame) × Bytes :=
  match h : d.first? stream with
  | none => ([], stream)
  | some (result, rest) =>
    have := d.length_lt h
    (result :: (d.split rest).1, (d.split rest).2)
termination_by stream.length

variable {d : Decoding} {stream rest : Bytes} {result : Except FrameFault Frame}

theorem split_of_none (h : d.first? stream = none) : d.split stream = ([], stream) := by
  rw [split]
  split
  · rfl
  · next hsome => simp [h] at hsome

theorem split_of_some (h : d.first? stream = some (result, rest)) :
    d.split stream = (result :: (d.split rest).1, (d.split rest).2) := by
  rw [split]
  split
  · next hnone => simp [h] at hnone
  · next hsome =>
    rw [h] at hsome
    cases hsome
    rfl

end Decoding

/-- Every read of the script brings bytes until it has ended. -/
def Script.Solid (script : Script) : Prop :=
  ∀ chunk ∈ script, ∃ x bytes, chunk = .bytes (x :: bytes)

theorem Script.Solid.eq_nil {script : Script} (h : script.Solid) (hcontent : script.content = []) :
    script = [] := by
  cases script with
  | nil => rfl
  | cons chunk rest =>
    obtain ⟨x, bytes, rfl⟩ := h chunk List.mem_cons_self
    cases hcontent

theorem Script.content_of_failure {room : Nat} {script rest : Script} {kind : IoKind}
    (h : script.read room = (.error kind, rest)) : rest.content = script.content := by
  match script with
  | [] => cases h
  | .failure _ :: _ =>
    cases h
    rfl
  | .bytes _ :: _ =>
    rw [read] at h
    split_ifs at h <;> cases h

theorem Script.length_of_read {room : Nat} {script rest : Script} {bytes : Bytes}
    (h : script.read room = (.ok bytes, rest)) : bytes.length ≤ room := by
  match script with
  | [] =>
    cases h
    exact Nat.zero_le room
  | .failure _ :: _ => cases h
  | .bytes content :: _ =>
    rw [read] at h
    split_ifs at h with hfits
    · cases h
      exact hfits
    · cases h
      exact List.length_take_le room content

/-- What one read of a script with room for it may give: an error takes something off the script,
bytes come off its front. -/
inductive Script.Reads (room : Nat) (script : Script) : Except IoKind Bytes × Script → Prop
  | failure {kind : IoKind} {rest : Script} (content : rest.content = script.content)
      (shorter : rest.length < script.length) (broken : ¬ script.Solid) :
      Reads room script (.error kind, rest)
  | nothing {rest : Script} (content : rest.content = script.content)
      (shorter : rest = [] ∨ rest.length < script.length) (ended : script.Solid → rest = []) :
      Reads room script (.ok [], rest)
  | bytes {x : UInt8} {bytes : Bytes} {rest : Script} (fits : bytes.length < room)
      (content : script.content = x :: bytes ++ rest.content)
      (length : rest.length ≤ script.length) (solid : script.Solid → rest.Solid) :
      Reads room script (.ok (x :: bytes), rest)

theorem Script.reads {room : Nat} (hroom : 0 < room) (script : Script) :
    script.Reads room (script.read room) := by
  match script with
  | [] => exact .nothing rfl (.inl rfl) fun _ => rfl
  | .failure kind :: rest =>
    refine .failure rfl (Nat.lt_succ_self _) ?_
    intro solid
    obtain ⟨x, bytes, h⟩ := solid _ List.mem_cons_self
    cases h
  | .bytes [] :: rest =>
    have hread : read room (.bytes [] :: rest) = (.ok [], rest) := by
      rw [read, List.length_nil, if_pos (Nat.zero_le room)]
    rw [hread]
    refine .nothing rfl (.inr (Nat.lt_succ_self _)) ?_
    intro solid
    obtain ⟨x, bytes, h⟩ := solid _ List.mem_cons_self
    cases h
  | .bytes (x :: bytes) :: rest =>
    by_cases hfits : (x :: bytes).length ≤ room
    · have hread : read room (.bytes (x :: bytes) :: rest) = (.ok (x :: bytes), rest) := by
        rw [read, if_pos hfits]
      rw [hread]
      refine .bytes hfits rfl (Nat.le_succ _) ?_
      intro solid chunk hchunk
      exact solid chunk (List.mem_cons_of_mem _ hchunk)
    · obtain ⟨n, rfl⟩ := Nat.exists_eq_succ_of_ne_zero (Nat.ne_of_gt hroom)
      have hread : read (n + 1) (.bytes (x :: bytes) :: rest) =
          (.ok (x :: bytes.take n), .bytes (bytes.drop n) :: rest) := by
        rw [read, if_neg hfits, List.take_succ_cons, List.drop_succ_cons]
      have hleft : bytes.drop n ≠ [] := by
        intro hnil
        rw [List.drop_eq_nil_iff] at hnil
        exact hfits (Nat.succ_le_succ hnil)
      rw [hread]
      refine .bytes ?_ (content_read hread) (Nat.le_refl _) ?_
      · rw [List.length_take]
        omega
      · intro solid chunk hchunk
        rcases List.mem_cons.mp hchunk with rfl | hrest
        · obtain ⟨y, more, hmore⟩ := List.exists_cons_of_ne_nil hleft
          exact ⟨y, more, by rw [hmore]⟩
        · exact solid chunk (List.mem_cons_of_mem _ hrest)

theorem Reader.nextFrame_eq (r : Reader) (level : DecodeLevel) (script : Script) :
    r.nextFrame level script =
      let parsed := r.parser.parse r.buffer level.frame
      let r : Reader := ⟨parsed.parser, parsed.buffer⟩
      match parsed.outcome with
      | .error fault => ⟨.error fault, r, script, parsed.events⟩
      | .ok (some frame) => ⟨.ok frame, r, script, parsed.events⟩
      | .ok none =>
        let got := script.read r.room
        let received := r.receive level.physical got.1
        match received.outcome with
        | .error kind =>
          ⟨.error (.io kind), received.reader, got.2, parsed.events ++ received.events⟩
        | .ok _ =>
          let next := received.reader.nextFrame level got.2
          { next with events := parsed.events ++ received.events ++ next.events } := by
  rw [nextFrame]
  dsimp only
  cases (r.parser.parse r.buffer level.frame).outcome with
  | error fault => rfl
  | ok answer =>
    cases answer with
    | some frame => rfl
    | none =>
      dsimp only
      split
      · next hreceived => simp only [hreceived]
      · next hreceived => simp only [hreceived]

theorem Reader.contents_receive {r : Reader} {x : UInt8} {bytes : Bytes} (level : PhysicalLevel)
    (fits : bytes.length < r.room) :
    (r.receive level (.ok (x :: bytes))).reader.buffer.contents =
      r.buffer.contents ++ x :: bytes := by
  have hall : (x :: bytes).take r.buffer.prepare.room = x :: bytes := List.take_of_length_le fits
  calc (r.buffer.prepare.fill (x :: bytes)).contents
    _ = r.buffer.contents ++ (x :: bytes).take r.buffer.prepare.room := by
      rw [ReadBuffer.contents_fill, ReadBuffer.contents_prepare]
    _ = r.buffer.contents ++ x :: bytes := by rw [hall]

theorem Reader.capacity_receive (r : Reader) (level : PhysicalLevel) (x : UInt8) (bytes : Bytes) :
    (r.receive level (.ok (x :: bytes))).reader.buffer.capacity = r.buffer.capacity :=
  (r.buffer.prepare.capacity_fill (x :: bytes)).trans r.buffer.capacity_prepare

theorem Reader.transcript_of_frame {r : Reader} {level : DecodeLevel} {script : Script}
    {frame : Frame} (h : (r.nextFrame level script).outcome = .ok frame) (limit : Nat)
    (recovery : Recovery) :
    r.transcript (limit + 1) level recovery script =
      ⟨.ok frame, (r.nextFrame level script).events⟩ ::
        (r.nextFrame level script).reader.transcript limit level recovery
          (r.nextFrame level script).script := by
  rw [transcript.eq_def]
  dsimp only
  rw [h]

/-- A transcript may go on behind a fault, where the reader is or with a reader that starts
afresh. -/
inductive Reader.GoesOn (limit : Nat) (level : DecodeLevel) (next : Next) :
    Recovery → List Entry → Prop
  | stops {recovery : Recovery} : GoesOn limit level next recovery []
  | resumes :
      GoesOn limit level next .resume (next.reader.transcript limit level .resume next.script)
  | resets :
      GoesOn limit level next .reset (next.reader.reset.transcript limit level .reset next.script)

theorem Reader.transcript_of_fault {r : Reader} {level : DecodeLevel} {script : Script}
    {fault : RequestFault} (h : (r.nextFrame level script).outcome = .error fault) (limit : Nat)
    (recovery : Recovery) :
    ∃ later, r.transcript (limit + 1) level recovery script =
        ⟨.error fault, (r.nextFrame level script).events⟩ :: later ∧
      GoesOn limit level (r.nextFrame level script) recovery later := by
  rw [transcript.eq_def]
  dsimp only
  rw [h]
  dsimp only
  split_ifs
  · exact ⟨[], rfl, .stops⟩
  · cases recovery with
    | stop => exact ⟨[], rfl, .stops⟩
    | reset => exact ⟨_, rfl, .resets⟩
    | resume => exact ⟨_, rfl, .resumes⟩

theorem Reader.transcript_of_end {r : Reader} {level : DecodeLevel} {script : Script}
    {kind : IoKind} (h : (r.nextFrame level script).outcome = .error (.io kind))
    (hend : (r.nextFrame level script).script = []) (limit : Nat) (recovery : Recovery) :
    r.transcript (limit + 1) level recovery script =
      [⟨.error (.io kind), (r.nextFrame level script).events⟩] := by
  rw [transcript.eq_def]
  dsimp only
  rw [h, hend]
  rfl

/-- What one attempt of a reader to parse may give. The relation `awaits` says which bytes a reader
has taken in that have not become a result. -/
inductive Attempts (first? : Bytes → Option (Except FrameFault Frame × Bytes))
    (awaits : Reader → Bytes → Prop) (waiting : Bytes) (parsed : Parsed) : Prop
  | frame {frame : Frame} {left : Bytes} (outcome : parsed.outcome = .ok (some frame))
      (awaits : awaits ⟨parsed.parser, parsed.buffer⟩ left)
      (first : first? waiting = some (.ok frame, left))
  | fault {fault : FrameFault} {left : Bytes}
      (outcome : parsed.outcome = .error (.badFrame fault))
      (awaits : awaits ⟨parsed.parser, parsed.buffer⟩ left)
      (first : first? waiting = some (.error fault, left))
  | waits (outcome : parsed.outcome = .ok none)
      (awaits : awaits ⟨parsed.parser, parsed.buffer⟩ waiting) (first : first? waiting = none)

namespace Decoding

/-- A reader that follows a decoding, except on streams that are `foreign` to it. -/
structure Tracks (d : Decoding) (foreign : Bytes → Prop) (awaits : Reader → Bytes → Prop) :
    Prop where
  attempts {r : Reader} {waiting : Bytes} (h : awaits r waiting) (level : FrameLevel) :
    foreign waiting ∨ Attempts d.first? awaits waiting (r.parser.parse r.buffer level)
  /-- A reader that needs more bytes has room for them. -/
  room_pos {r : Reader} {waiting : Bytes} (h : awaits r waiting) (first : d.first? waiting = none) :
    foreign waiting ∨ 0 < r.room
  /-- Bytes that arrive go behind the ones that wait. -/
  receive {r : Reader} {waiting : Bytes} (h : awaits r waiting) (level : PhysicalLevel) (x : UInt8)
    {bytes : Bytes} (fits : bytes.length < r.room) :
    awaits (r.receive level (.ok (x :: bytes))).reader (waiting ++ x :: bytes)
  /-- An error of the stream, and its end, leave everything that waits. -/
  prepare {r : Reader} {waiting : Bytes} (h : awaits r waiting) :
    awaits ⟨r.parser, r.buffer.prepare⟩ waiting
  silent {stream : Bytes} (h : foreign stream) : d.first? stream = none
  foreign_append {stream : Bytes} (h : foreign stream) (more : Bytes) : foreign (stream ++ more)

/-- What one call may give when `waiting` is followed by what a script delivers. -/
inductive Nexts (d : Decoding) (foreign : Bytes → Prop) (awaits : Reader → Bytes → Prop)
    (waiting : Bytes) (script : Script) (next : Next) : Prop
  | result {result : Except FrameFault Frame} {left : Bytes}
      (outcome : next.outcome = result.mapError .badFrame) (awaits : awaits next.reader left)
      (first : d.first? (waiting ++ script.content) = some (result, left ++ next.script.content))
      (length : next.script.length ≤ script.length) (solid : script.Solid → next.script.Solid)
  | io {kind : IoKind} {left : Bytes} (outcome : next.outcome = .error (.io kind))
      (awaits : awaits next.reader left)
      (same : left ++ next.script.content = waiting ++ script.content)
      (first : d.first? left = none)
      (shorter : next.script = [] ∨ next.script.length < script.length)
      (ended : script.Solid → kind = .unexpectedEof ∧ next.script = [])
  | foreign (foreign : foreign (waiting ++ script.content))

variable {d : Decoding} {foreign : Bytes → Prop} {awaits : Reader → Bytes → Prop} {r : Reader}
  {waiting : Bytes}

/-- One call goes on in the stream, wherever the reads of the script cut it. -/
theorem Tracks.nexts (h : d.Tracks foreign awaits) (hr : awaits r waiting) (level : DecodeLevel)
    (script : Script) : d.Nexts foreign awaits waiting script (r.nextFrame level script) := by
  -- Each further round takes bytes off the script.
  induction hn : script.content.length using Nat.strongRecOn
    generalizing r waiting script with
  | ind n ih =>
    rw [Reader.nextFrame_eq]
    rcases h.attempts hr level.frame with hforeign | hattempts
    · exact .foreign (h.foreign_append hforeign _)
    generalize r.parser.parse r.buffer level.frame = parsed at hattempts
    dsimp only
    cases hattempts with
    | frame outcome awaits first =>
      rw [outcome]
      exact .result rfl awaits (d.append first script.content) (Nat.le_refl _) id
    | fault outcome awaits first =>
      rw [outcome]
      exact .result rfl awaits (d.append first script.content) (Nat.le_refl _) id
    | waits outcome awaits first =>
      rw [outcome]
      dsimp only
      rcases h.room_pos awaits first with hforeign | hroom
      · exact .foreign (h.foreign_append hforeign _)
      have hreads := script.reads hroom
      generalize script.read (Reader.room ⟨parsed.parser, parsed.buffer⟩) = got at hreads
      cases hreads with
      | failure content shorter broken =>
        have hstream := congrArg (waiting ++ ·) content
        exact .io rfl (h.prepare awaits) hstream first (.inr shorter) fun solid =>
          absurd solid broken
      | nothing content shorter ended =>
        have hstream := congrArg (waiting ++ ·) content
        exact .io rfl (h.prepare awaits) hstream first shorter fun solid => ⟨rfl, ended solid⟩
      | @bytes x bytes rest fits content length solid =>
        have hless : rest.content.length < n := by
          rw [← hn, content, List.length_append, List.length_cons]
          omega
        have hstream : waiting ++ x :: bytes ++ rest.content = waiting ++ script.content := by
          rw [content, List.append_assoc]
        have hmore := ih _ hless (h.receive awaits level.physical x fits) rest rfl
        cases hmore with
        | result outcome awaits first shorter later =>
          rw [hstream] at first
          exact .result outcome awaits first (Nat.le_trans shorter length) (later ∘ solid)
        | io outcome awaits same first shorter ended =>
          rw [hstream] at same
          have hshorter := shorter.imp_right fun hless => Nat.lt_of_lt_of_le hless length
          exact .io outcome awaits same first hshorter (ended ∘ solid)
        | foreign hforeign =>
          rw [hstream] at hforeign
          exact .foreign hforeign

end Decoding

namespace Mbap

/-- The frames and the rejected headers among the entries of a transcript; errors of the stream are
left out. -/
def results (entries : List Entry) : List (Except RequestFault Frame) :=
  (entries.map (·.outcome)).filter fun
    | .error (.io _) => false
    | _ => true

theorem results_of_result {r : Reader} {level : DecodeLevel} {script : Script}
    {result : Except FrameFault Frame}
    (h : (r.nextFrame level script).outcome = result.mapError .badFrame) (limit : Nat) :
    results (r.transcript (limit + 1) level .resume script) =
      result.mapError .badFrame :: results ((r.nextFrame level script).reader.transcript limit level
        .resume (r.nextFrame level script).script) := by
  cases result <;> rw [Reader.transcript, h] <;> rfl

theorem results_of_io {r : Reader} {level : DecodeLevel} {script : Script} {kind : IoKind}
    (h : (r.nextFrame level script).outcome = .error (.io kind)) (limit : Nat) :
    results (r.transcript (limit + 1) level .resume script) =
      if (r.nextFrame level script).script = [] then []
      else results ((r.nextFrame level script).reader.transcript limit level .resume
        (r.nextFrame level script).script) := by
  rw [Reader.transcript, h]
  by_cases hend : (r.nextFrame level script).script = []
  · simp [results, hend]
  · have hmore : (r.nextFrame level script).script.isEmpty = false := by
      rwa [List.isEmpty_eq_false_iff]
    simp [results, hend, hmore]

end Mbap

namespace Decoding

open Mbap (results results_of_result results_of_io)

variable {d : Decoding} {foreign : Bytes → Prop} {awaits : Reader → Bytes → Prop} {r : Reader}
  {waiting : Bytes}

def reported (d : Decoding) (stream : Bytes) : List (Except RequestFault Frame) :=
  (d.split stream).1.map (·.mapError .badFrame)

theorem reported_of_none {stream : Bytes} (h : d.first? stream = none) :
    d.reported stream = [] := by
  rw [reported, split_of_none h, List.map_nil]

theorem reported_of_some {stream rest : Bytes} {result : Except FrameFault Frame}
    (h : d.first? stream = some (result, rest)) :
    d.reported stream = result.mapError .badFrame :: d.reported rest := by
  rw [reported, split_of_some h, List.map_cons, reported]

/-- Each entry of a transcript is the next result of the stream. This goes on until the limit is
reached, the stream ends or what is left of it is foreign. -/
theorem Tracks.transcript (h : d.Tracks foreign awaits) (hr : awaits r waiting) (limit : Nat)
    (level : DecodeLevel) (script : Script) :
    let stream := waiting ++ script.content
    let heard := results (r.transcript limit level .resume script)
    (heard <+: d.reported stream ∨
      (foreign (d.split stream).2 ∧ d.reported stream <+: heard)) ∧
    (script.length + stream.length < limit → d.reported stream <+: heard) := by
  induction limit generalizing r waiting script with
  | zero => exact ⟨.inl List.nil_prefix, fun hlimit => absurd hlimit (Nat.not_lt_zero _)⟩
  | succ limit ih =>
    dsimp only
    cases h.nexts hr level script with
    | @result result left outcome awaits first length =>
      have hless := d.length_lt first
      obtain ⟨hagree, hall⟩ := ih awaits (r.nextFrame level script).script
      rw [results_of_result outcome, reported_of_some first, split_of_some first]
      constructor
      · rcases hagree with hheard | ⟨hforeign, hheard⟩
        · exact .inl (List.cons_prefix_cons.mpr ⟨rfl, hheard⟩)
        · exact .inr ⟨hforeign, List.cons_prefix_cons.mpr ⟨rfl, hheard⟩⟩
      · intro hlimit
        apply List.cons_prefix_cons.mpr
        exact ⟨rfl, hall (by omega)⟩
    | @io kind left outcome awaits same first shorter =>
      rw [results_of_io outcome, ← same]
      by_cases hend : (r.nextFrame level script).script = []
      · rw [if_pos hend, hend, Script.content, List.append_nil, reported_of_none first]
        exact ⟨.inl List.nil_prefix, fun _ => List.nil_prefix⟩
      · rw [if_neg hend]
        obtain ⟨hagree, hall⟩ := ih awaits (r.nextFrame level script).script
        have hless := shorter.resolve_left hend
        exact ⟨hagree, fun hlimit => hall (by omega)⟩
    | foreign hforeign =>
      have hnone := h.silent hforeign
      rw [reported_of_none hnone, split_of_none hnone]
      exact ⟨.inr ⟨hforeign, List.nil_prefix⟩, fun _ => List.nil_prefix⟩

theorem Tracks.outcomes (h : d.Tracks foreign awaits) (hr : awaits r waiting) {frames : List Frame}
    {script : Script} {rest : Bytes} (solid : script.Solid)
    (stream : d.split (waiting ++ script.content) = (frames.map .ok, rest))
    (known : ¬ foreign rest) (level : DecodeLevel) (recovery : Recovery) (more : Nat) :
    (r.transcript (frames.length + 1 + more) level recovery script).map (·.outcome) =
      frames.map .ok ++ [.error (.io .unexpectedEof)] := by
  induction frames generalizing r waiting script with
  | nil =>
    rw [show ([] : List Frame).length + 1 + more = more + 1 by simp [Nat.add_comm]]
    cases h.nexts hr level script with
    | result outcome awaits first =>
      rw [split_of_some first] at stream
      cases stream
    | io outcome awaits same first shorter ended =>
      obtain ⟨rfl, hend⟩ := ended solid
      rw [Reader.transcript_of_end outcome hend]
      rfl
    | foreign hforeign =>
      rw [split_of_none (h.silent hforeign)] at stream
      cases stream
      exact absurd hforeign known
  | cons frame frames ih =>
    rw [List.length_cons, show frames.length + 1 + 1 + more = frames.length + 1 + more + 1 by omega]
    cases h.nexts hr level script with
    | result outcome awaits first length later =>
      rw [split_of_some first] at stream
      obtain ⟨hresults, hrest⟩ := Prod.mk.inj stream
      obtain ⟨rfl, hframes⟩ := List.cons.inj hresults
      have hmore := ih awaits (later solid) (Prod.ext hframes hrest)
      rw [Reader.transcript_of_frame outcome, List.map_cons, List.map_cons, List.cons_append, hmore]
    | io outcome awaits same first shorter ended =>
      obtain ⟨-, hend⟩ := ended solid
      rw [← same, hend, Script.content, List.append_nil, split_of_none first] at stream
      cases stream
    | foreign hforeign =>
      rw [split_of_none (h.silent hforeign)] at stream
      cases stream

end Decoding

end ModbusSlave
