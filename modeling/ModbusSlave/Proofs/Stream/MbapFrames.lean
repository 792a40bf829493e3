import ModbusSlave.Proofs.Stream.MbapReading

/-!
# Network frames on the wire and back

What is written is read back, however the network cuts it, and what is read is what was written: a
frame that a reader returns encodes to the very bytes it was read from.
-/
namespace ModbusSlave.Mbap

theorem eq_encode_of_first? {stream rest : Bytes} {frame : Frame}
    (h : first? stream = some (.ok frame, rest)) : frame.Fits ∧ stream = frame.encode ++ rest := by
  unfold first? at h
  split at h
  · next t₁ t₀ p₁ p₀ l₁ l₀ unit behind =>
    dsimp only at h
    split_ifs at h with hprotocol hbig hzero hone
    · cases h
    · cases h
    · cases h
    · cases h
    · obtain ⟨⟨frame, behind⟩, hbody, hpair⟩ := Option.map_eq_some_iff.mp h
      cases hpair
      obtain ⟨function, data, rfl, hcount, rfl⟩ := body?_eq_some hbody
      have hlength : UInt16.ofNat (data.length + 2) = Word.join l₁ l₀ := by
        rw [hcount, Nat.sub_add_cancel (by omega), Word.join]
      have hnone : Word.join p₁ p₀ = 0 := by
        rw [Word.join, Decidable.not_not.mp hprotocol]
        rfl
      constructor
      · refine ⟨⟨_, rfl⟩, ?_⟩
        dsimp only [Frame.maxPdu]
        omega
      · rw [Frame.encode, Frame.lengthField, Frame.pdu]
        dsimp only
        rw [hlength, ← hnone, Word.big_join, Word.big_join, Word.big_join]
        rfl
  · cases h

theorem header_of_first? {stream rest : Bytes} {fault : FrameFault}
    (h : first? stream = some (.error fault, rest)) :
    ∃ header, header.length = headerLength ∧ stream = header ++ rest := by
  unfold first? at h
  split at h
  · next t₁ t₀ p₁ p₀ l₁ l₀ unit behind =>
    refine ⟨[t₁, t₀, p₁, p₀, l₁, l₀, unit], rfl, ?_⟩
    dsimp only at h
    split_ifs at h
    · cases h
      rfl
    · cases h
      rfl
    · cases h
      rfl
    · cases h
      rfl
    · obtain ⟨found, -, hpair⟩ := Option.map_eq_some_iff.mp h
      cases hpair
  · cases h

theorem split_encode {frames : List Frame} (h : ∀ frame ∈ frames, frame.Fits) :
    decoding.split (frames.flatMap Frame.encode) = (frames.map .ok, []) := by
  induction frames with
  | nil => exact Decoding.split_of_none (d := decoding) rfl
  | cons frame frames ih =>
    have hfirst := first?_encode (h frame List.mem_cons_self) (frames.flatMap Frame.encode)
    rw [List.flatMap_cons, Decoding.split_of_some (d := decoding) hfirst,
      ih fun f hf => h f (List.mem_cons_of_mem _ hf)]
    rfl

/-- The outcomes of a transcript account for a stream from its front: a frame for its encoding, a
rejected header for its seven bytes, an error of the stream for nothing. Bytes are lost only where a
reader starts afresh behind a fault. -/
inductive Accounts (recovery : Recovery) : Bytes → List (Except RequestFault Frame) → Prop
  | done {rest : Bytes} : Accounts recovery rest []
  | frame {frame : Frame} {rest : Bytes} {outcomes : List (Except RequestFault Frame)}
      (fits : frame.Fits) (later : Accounts recovery rest outcomes) :
      Accounts recovery (frame.encode ++ rest) (.ok frame :: outcomes)
  | fault {header lost rest : Bytes} {fault : FrameFault}
      {outcomes : List (Except RequestFault Frame)} (length : header.length = headerLength)
      (kept : recovery ≠ .reset → lost = []) (later : Accounts recovery rest outcomes) :
      Accounts recovery (header ++ (lost ++ rest)) (.error (.badFrame fault) :: outcomes)
  | io {kind : IoKind} {lost rest : Bytes} {outcomes : List (Except RequestFault Frame)}
      (kept : recovery ≠ .reset → lost = []) (later : Accounts recovery rest outcomes) :
      Accounts recovery (lost ++ rest) (.error (.io kind) :: outcomes)

theorem Awaits.reset {r : Reader} {waiting : Bytes} (h : Awaits r waiting) :
    Awaits r.reset [] := by
  obtain ⟨state, hparser, -, -, hcapacity⟩ := h
  refine ⟨.start, ?_, trivial, ?_, hcapacity⟩
  · rw [Reader.reset, hparser, Parser.reset]
  · rw [pending, State.consumed, List.nil_append]
    exact r.buffer.contents_clear

/-- What follows on a fault accounts for the stream behind it. -/
theorem accounts_of_goesOn {level : DecodeLevel} {limit : Nat} {next : Next} {left : Bytes}
    {recovery : Recovery} {later : List Entry} (h : Reader.GoesOn limit level next recovery later)
    (hleft : Awaits next.reader left)
    (hmore : ∀ {r : Reader} {waiting : Bytes}, Awaits r waiting →
      Accounts recovery (waiting ++ next.script.content)
        ((r.transcript limit level recovery next.script).map (·.outcome))) :
    ∃ lost rest, left ++ next.script.content = lost ++ rest ∧
      (recovery ≠ .reset → lost = []) ∧ Accounts recovery rest (later.map (·.outcome)) := by
  cases h with
  | stops => exact ⟨[], _, rfl, fun _ => rfl, .done⟩
  | resumes => exact ⟨[], _, rfl, fun _ => rfl, hmore hleft⟩
  | resets => exact ⟨left, _, rfl, fun hreset => absurd rfl hreset, hmore hleft.reset⟩

theorem accounts_transcript {r : Reader} {waiting : Bytes} (h : Awaits r waiting)
    (level : DecodeLevel) (recovery : Recovery) (limit : Nat) (script : Script) :
    Accounts recovery (waiting ++ script.content)
      ((r.transcript limit level recovery script).map (·.outcome)) := by
  induction limit generalizing r waiting script with
  | zero => exact .done
  | succ limit ih =>
    cases tracks.nexts h level script with
    | @result result left outcome awaits first =>
      cases result with
      | ok frame =>
        obtain ⟨hfits, hstream⟩ := eq_encode_of_first? first
        rw [hstream, Reader.transcript_of_frame outcome, List.map_cons]
        exact .frame hfits (ih awaits _)
      | error fault =>
        obtain ⟨header, hlength, hstream⟩ := header_of_first? first
        obtain ⟨later, htranscript, hlater⟩ := Reader.transcript_of_fault outcome limit recovery
        obtain ⟨lost, rest, hrest, hkept, hmore⟩ :=
          accounts_of_goesOn hlater awaits fun hr => ih hr _
        rw [hstream, hrest, htranscript, List.map_cons]
        exact .fault hlength hkept hmore
    | @io kind left outcome awaits same =>
      obtain ⟨later, htranscript, hlater⟩ := Reader.transcript_of_fault outcome limit recovery
      obtain ⟨lost, rest, hrest, hkept, hmore⟩ :=
        accounts_of_goesOn hlater awaits fun hr => ih hr _
      rw [← same, hrest, htranscript, List.map_cons]
      exact .io hkept hmore
    | foreign hforeign => exact hforeign.elim

/-- Writing and reading are inverse. Frames that fit the format are read back as they are, however
their encodings are cut into reads, and then the stream ends; and what is read of any stream
accounts for it, each frame for its own encoding. -/
theorem transcript_encode (level : DecodeLevel) (recovery : Recovery) :
    (∀ (frames : List Frame) (script : Script) (more : Nat),
      (∀ frame ∈ frames, frame.Fits) → script.Solid →
      script.content = frames.flatMap Frame.encode →
      ((Reader.ofParser (.mbap .start)).transcript (frames.length + 1 + more) level recovery
          script).map (·.outcome) =
        frames.map .ok ++ [.error (.io .unexpectedEof)]) ∧
    ∀ (script : Script) (limit : Nat),
      Accounts recovery script.content
        (((Reader.ofParser (.mbap .start)).transcript limit level recovery script).map
          (·.outcome)) := by
  constructor
  · intro frames script more hfits hsolid hcontent
    have hsplit := split_encode hfits
    rw [← hcontent] at hsplit
    exact tracks.outcomes awaits_ofParser hsolid hsplit not_false level recovery more
  · intro script limit
    exact accounts_transcript awaits_ofParser level recovery limit script

/-- Two frames, the cuts inside the first header and inside the second. -/
theorem transcript_encode_cut :
    let frames : List Frame :=
      [⟨.mbap 1, ⟨1⟩, 0x03, [0x00, 0x00, 0x00, 0x02]⟩, ⟨.mbap 2, ⟨7⟩, 0x41, []⟩]
    let script : Script :=
      [.bytes [0x00, 0x01, 0x00],
        .bytes [0x00, 0x00, 0x06, 0x01, 0x03, 0x00, 0x00, 0x00, 0x02, 0x00, 0x02, 0x00, 0x00, 0x00],
        .bytes [0x02, 0x07, 0x41]]
    (∀ frame ∈ frames, frame.Fits) ∧ script.Solid ∧
      script.content = frames.flatMap Frame.encode ∧
      ((Reader.ofParser (.mbap .start)).transcript 3 .nothing .resume script).map (·.outcome) =
        frames.map .ok ++ [.error (.io .unexpectedEof)] := by
  intro frames script
  have hfits : ∀ frame ∈ frames, frame.Fits := by
    intro frame hframe
    simp only [frames, List.mem_cons, List.not_mem_nil, or_false] at hframe
    rcases hframe with rfl | rfl
    · exact ⟨⟨_, rfl⟩, by decide⟩
    · exact ⟨⟨_, rfl⟩, by decide⟩
  have hsolid : script.Solid := by
    intro chunk hchunk
    simp only [script, List.mem_cons, List.not_mem_nil, or_false] at hchunk
    rcases hchunk with rfl | rfl | rfl
    · exact ⟨_, _, rfl⟩
    · exact ⟨_, _, rfl⟩
    · exact ⟨_, _, rfl⟩
  have hcontent : script.content = frames.flatMap Frame.encode := by decide
  exact ⟨hfits, hsolid, hcontent,
    (transcript_encode .nothing .resume).1 frames script 0 hfits hsolid hcontent⟩

end ModbusSlave.Mbap
