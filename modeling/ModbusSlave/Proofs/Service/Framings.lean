import ModbusSlave.Proofs.Service.RegisterFile
import ModbusSlave.Proofs.Station.Response
import ModbusSlave.Proofs.Stream.MbapFrames
import ModbusSlave.Proofs.Stream.RtuFrames

/-!
# One service behind two framings

A handler that looks at the unit, the function code and the data of a request cannot tell a network
from a serial line, and neither can those who send the requests, but for the bytes around what they
sent: the same requests leave the same service behind and have the same answers in both framings.
-/
namespace ModbusSlave

namespace Frame

/-- The same unit, function code and data in another framing. -/
def reframe (framing : Framing) (f : Frame) : Frame := { f with framing }

theorem answer_reframe (framing : Framing) (f : Frame) (r : Except ExceptionCode Bytes) :
    (f.reframe framing).answer r = (f.answer r).reframe framing := by
  cases r <;> rfl

/-- What both framings have in common. -/
def body (f : Frame) : Bytes := f.unit.value :: f.pdu

theorem encode_of_mbap {f : Frame} {transaction : UInt16} (h : f.framing = .mbap transaction) :
    f.encode =
      Word.big transaction ++ [0, 0] ++ Word.big (UInt16.ofNat f.body.length) ++ f.body := by
  rw [encode, h]
  rfl

theorem encode_of_rtu {f : Frame} (h : f.framing = .rtu) :
    f.encode = f.body ++ Word.little (Checksum.ofBytes f.body) := by
  rw [encode, h]
  rfl

end Frame

variable {σ : Type}

/-- A handler that does not look at the framing of a request. -/
inductive Handler.Blind : Handler σ → Prop
  | standard (function : StandardFunction) : Blind (.standard function)
  | custom {state : σ} {step : σ → Memory → Frame → Reply σ}
      (same : ∀ state m request framing,
        step state m (request.reframe framing) = step state m request) :
      Blind (.custom state step)

namespace Handler.Blind

variable {handler : Handler σ}

theorem call_reframe (h : handler.Blind) (m : Memory) (request : Frame) (framing : Framing) :
    handler.call m (request.reframe framing) = handler.call m request := by
  cases h with
  | standard function => rfl
  | custom same => simp only [Handler.call, same]

theorem call (h : handler.Blind) (m : Memory) (request : Frame) :
    (handler.call m request).state.Blind := by
  cases h with
  | standard function => exact .standard function
  | custom same => exact .custom same

end Handler.Blind

namespace DispatchTable

/-- No handler of the table looks at the framing. -/
def Blind (t : DispatchTable σ) : Prop :=
  ∀ code handler, t.get? code = some handler → handler.Blind

variable {t : DispatchTable σ}

theorem Blind.register (h : t.Blind) (code : UInt8) {handler : Handler σ}
    (hhandler : handler.Blind) : (t.register code handler).Blind := by
  intro other found hfound
  rw [get?_register, Function.update_apply] at hfound
  split_ifs at hfound with hcode
  · cases hfound
    exact hhandler
  · exact h other found hfound

theorem blind_standard : (standard : DispatchTable σ).Blind := by
  intro code handler hhandler
  rw [get?_standard] at hhandler
  obtain ⟨function, -, rfl⟩ := Option.map_eq_some_iff.mp hhandler
  exact .standard function

theorem Blind.call?_reframe (h : t.Blind) (m : Memory) (request : Frame) (framing : Framing) :
    t.call? m (request.reframe framing) = t.call? m request := by
  cases hslot : t.get? request.function with
  | none => simp only [call?, Frame.reframe, hslot, Option.map_none]
  | some handler =>
    have hcall := (h _ _ hslot).call_reframe m request framing
    rw [Frame.reframe] at hcall
    simp only [call?, Frame.reframe, hslot, Option.map_some, hcall]

theorem Blind.serve_reframe (h : t.Blind) (m : Memory) (request : Frame) (framing : Framing) :
    t.serve m (request.reframe framing) = t.serve m request := by
  rw [serve, serve, h.call?_reframe]
  rfl

theorem Blind.serve (h : t.Blind) (m : Memory) (request : Frame) :
    (t.serve m request).1.state.Blind := by
  cases hslot : t.get? request.function with
  | none =>
    rw [DispatchTable.serve, call?, hslot]
    exact h
  | some handler =>
    have hnext := h.register request.function ((h _ _ hslot).call m request)
    rw [DispatchTable.serve, call?, hslot]
    dsimp only [Option.map_some]
    split
    · exact hnext
    · split_ifs
      · exact hnext
      · exact hnext

end DispatchTable

namespace Transaction

def reframe (framing : Framing) (t : Transaction) : Transaction :=
  ⟨t.link, t.request.reframe framing, t.response.reframe framing⟩

/-- The response comes as its request did, and fits into a frame. -/
structure Sound (t : Transaction) : Prop where
  framing : t.response.framing = t.request.framing
  unit : t.response.unit = t.request.unit
  short : t.response.pdu.length ≤ 253

end Transaction

namespace Service

variable {s : Service σ} (level : DecodeLevel)

theorem response_respond (s : Service σ) (request : Frame) :
    (s.respond request).2.1 = request.answer (s.image.reply request).2 := by
  rw [respond, ← s.serve_eq request]

theorem sound_respond (s : Service σ) (link : Nat) (request : Frame) :
    Transaction.Sound ⟨link, request, (s.respond request).2.1⟩ := by
  refine ⟨?_, ?_, ?_⟩
  · rw [response_respond, Frame.framing_answer]
  · rw [response_respond, Frame.unit_answer]
  · dsimp only
    rw [response_respond, Image.pdu_answer]
    exact length_answerPdu _ _

theorem respond_reframe (h : s.table.Blind) (request : Frame) (framing : Framing) :
    s.respond (request.reframe framing) =
      ((s.respond request).1, (s.respond request).2.1.reframe framing,
        (s.respond request).2.2) := by
  rw [respond, respond, h.serve_reframe]
  dsimp only
  rw [Frame.answer_reframe]

theorem blind_respond (h : s.table.Blind) (request : Frame) :
    (s.respond request).1.table.Blind := h.serve s.memory request

theorem exchanges_cons {request : Frame} (link : Nat) (rest : List (Nat × Frame))
    (own : request.unit = s.unit) :
    s.exchanges level ((link, request) :: rest) =
      (((s.respond request).1.exchanges level rest).1,
        ⟨link, request, (s.respond request).2.1⟩ ::
          ((s.respond request).1.exchanges level rest).2) :=
  exchanges_own level link rest own rfl

/-- Exchanges answer the requests for the unit and no others, in their order. -/
theorem requests_exchanges (s : Service σ) (requests : List (Nat × Frame)) :
    (s.exchanges level requests).2.map (·.request) =
      (requests.map (·.2)).filter (·.unit = s.unit) := by
  induction requests generalizing s with
  | nil => rfl
  | cons asked rest ih =>
    obtain ⟨link, request⟩ := asked
    by_cases hunit : request.unit = s.unit
    · rw [exchanges_cons level link rest hunit, List.map_cons, ih, List.map_cons,
        List.filter_cons_of_pos (by simpa using hunit)]
      rfl
    · rw [exchanges_foreign level link rest hunit, ih, List.map_cons,
        List.filter_cons_of_neg (by simpa using hunit)]

theorem sound_exchanges (s : Service σ) (requests : List (Nat × Frame)) :
    ∀ t ∈ (s.exchanges level requests).2, t.Sound := by
  induction requests generalizing s with
  | nil =>
    intro t ht
    cases ht
  | cons asked rest ih =>
    obtain ⟨link, request⟩ := asked
    by_cases hunit : request.unit = s.unit
    · rw [exchanges_cons level link rest hunit]
      intro t ht
      rcases List.mem_cons.mp ht with rfl | hlater
      · exact s.sound_respond link request
      · exact ih _ t hlater
    · rw [exchanges_foreign level link rest hunit]
      exact ih s

/-- In another framing, the same requests leave the same service behind and have the same
answers. -/
theorem exchanges_reframe (h : s.table.Blind) (framing : Framing) (requests : List (Nat × Frame)) :
    s.exchanges level (requests.map fun asked => (asked.1, asked.2.reframe framing)) =
      ((s.exchanges level requests).1,
        (s.exchanges level requests).2.map (·.reframe framing)) := by
  induction requests generalizing s with
  | nil => rfl
  | cons asked rest ih =>
    obtain ⟨link, request⟩ := asked
    rw [List.map_cons]
    by_cases hunit : request.unit = s.unit
    · have hown : (request.reframe framing).unit = s.unit := hunit
      rw [exchanges_cons level link _ hunit, exchanges_cons level link _ hown, respond_reframe h,
        ih (blind_respond h request)]
      rfl
    · have hforeign : (request.reframe framing).unit ≠ s.unit := hunit
      rw [exchanges_foreign level link _ hunit, exchanges_foreign level link _ hforeign, ih h]

/-- Serve what is heard on a stream, one request after the other. -/
def converse (s : Service σ) (level : DecodeLevel) (parser : Parser) (recovery : Recovery)
    (script : Script) : Service σ × List Transaction :=
  let limit := script.length + script.content.length + 1
  let heard := ((Reader.ofParser parser).transcript limit level recovery script).map (·.outcome)
  s.exchanges level ((heard.filterMap (·.toOption)).map fun frame => (0, frame))

theorem converse_eq {parser : Parser} {recovery : Recovery} {script : Script} {frames : List Frame}
    {fault : RequestFault}
    (h : ((Reader.ofParser parser).transcript (script.length + script.content.length + 1) level
      recovery script).map (·.outcome) = frames.map .ok ++ [.error fault]) :
    s.converse level parser recovery script =
      s.exchanges level (frames.map fun frame => (0, frame)) := by
  have hheard :
      (frames.map Except.ok ++ [Except.error fault]).filterMap Except.toOption = frames := by
    rw [List.filterMap_append, List.filterMap_map]
    simp [Function.comp_def, Except.toOption]
  rw [converse, h, hheard]

theorem length_le_flatMap_encode (frames : List Frame) :
    frames.length ≤ (frames.flatMap Frame.encode).length := by
  induction frames with
  | nil => exact Nat.le_refl 0
  | cons frame frames ih =>
    have hlength : 1 ≤ frame.encode.length := by
      rw [Frame.length_encode]
      cases frame.framing <;> exact Nat.succ_pos _
    rw [List.flatMap_cons, List.length_append, List.length_cons]
    omega

theorem converse_mbap {frames : List Frame} (hfits : ∀ frame ∈ frames, frame.Fits)
    {script : Script} (hsolid : script.Solid)
    (hcontent : script.content = frames.flatMap Frame.encode) (recovery : Recovery) :
    s.converse level (.mbap .start) recovery script =
      s.exchanges level (frames.map fun frame => (0, frame)) := by
  apply converse_eq level
  have hsplit := Mbap.split_encode hfits
  rw [← hcontent] at hsplit
  have hlength := length_le_flatMap_encode frames
  obtain ⟨more, hmore⟩ : ∃ more,
      script.length + script.content.length + 1 = frames.length + 1 + more := by
    refine ⟨script.length + (script.content.length - frames.length), ?_⟩
    rw [hcontent]
    omega
  rw [hmore]
  exact Mbap.tracks.outcomes Mbap.awaits_ofParser hsolid hsplit not_false level recovery more

theorem converse_rtu {frames : List Frame} (hframes : ∀ frame ∈ frames, Rtu.Shaped frame)
    (recovery : Recovery) :
    s.converse level (.rtu .start) recovery (frames.map fun frame => .bytes frame.encode) =
      s.exchanges level (frames.map fun frame => (0, frame)) := by
  apply converse_eq level
  rw [List.length_map, Nat.add_right_comm]
  exact Rtu.idle_ofParser.transcript_whole hframes level recovery _

/-- A service whose handlers do not look at the framing is the same on a network and on a serial
line. Requests that a serial line knows, sent over a network in any pieces and on a serial line one
with each read, leave the same memory and handlers behind. Those for its unit are answered in order,
and the responses have the same unit, function code and data: around these there is the header with
the transaction number of the request in one case and a checksum in the other. -/
theorem converse_reframe (blind : s.table.Blind) {requests : List Frame}
    (network : ∀ request ∈ requests, ∃ transaction, request.framing = .mbap transaction)
    (shaped : ∀ request ∈ requests, Rtu.Shaped (request.reframe .rtu)) {script : Script}
    (solid : script.Solid) (content : script.content = requests.flatMap Frame.encode)
    (recovery recovery' : Recovery) :
    let overNetwork := s.converse level (.mbap .start) recovery script
    let overLine := s.converse level (.rtu .start) recovery'
      (requests.map fun request => .bytes (request.reframe .rtu).encode)
    overLine.1 = overNetwork.1 ∧
    overNetwork.2.map (·.request) = requests.filter (·.unit = s.unit) ∧
    overLine.2 = overNetwork.2.map (·.reframe .rtu) ∧
    ∀ t ∈ overNetwork.2, ∃ transaction, t.request.framing = .mbap transaction ∧
      t.response.unit = t.request.unit ∧ t.response.pdu.length ≤ 253 ∧
      t.response.encode = Word.big transaction ++ [0, 0] ++
        Word.big (UInt16.ofNat t.response.body.length) ++ t.response.body ∧
      (t.reframe .rtu).response.encode =
        t.response.body ++ Word.little (Checksum.ofBytes t.response.body) := by
  intro overNetwork overLine
  have hfits : ∀ request ∈ requests, request.Fits := by
    intro request hrequest
    have hshort := (shaped request hrequest).short
    exact ⟨network request hrequest, Nat.lt_succ_of_le hshort⟩
  have hnetwork : overNetwork = s.exchanges level (requests.map fun request => (0, request)) :=
    converse_mbap level hfits solid content recovery
  have hline : overLine = (overNetwork.1, overNetwork.2.map (·.reframe .rtu)) := by
    have hshaped : ∀ frame ∈ requests.map (·.reframe .rtu), Rtu.Shaped frame := by
      intro frame hframe
      obtain ⟨request, hrequest, rfl⟩ := List.mem_map.mp hframe
      exact shaped request hrequest
    have hconverse := converse_rtu (s := s) level hshaped recovery'
    rw [List.map_map, List.map_map] at hconverse
    have hreframe := exchanges_reframe level blind .rtu
      (requests.map fun request => (0, request))
    rw [List.map_map] at hreframe
    rw [hnetwork]
    exact hconverse.trans hreframe
  have hrequests : overNetwork.2.map (·.request) = requests.filter (·.unit = s.unit) := by
    have hown := s.requests_exchanges level (requests.map fun request => (0, request))
    rw [hnetwork, hown, List.map_map]
    exact congrArg _ (List.map_id requests)
  have hsame : overLine.1 = overNetwork.1 := by rw [hline]
  have hanswers : overLine.2 = overNetwork.2.map (·.reframe .rtu) := by rw [hline]
  refine ⟨hsame, hrequests, hanswers, ?_⟩
  intro t ht
  have hrequest : t.request ∈ requests.filter (·.unit = s.unit) := by
    rw [← hrequests]
    exact List.mem_map_of_mem ht
  obtain ⟨transaction, hframing⟩ := network _ (List.mem_filter.mp hrequest).1
  rw [hnetwork] at ht
  have hsound := s.sound_exchanges level _ t ht
  refine ⟨transaction, hframing, hsound.unit, hsound.short, ?_, ?_⟩
  · exact Frame.encode_of_mbap (hsound.framing.trans hframing)
  · exact Frame.encode_of_rtu rfl

def counting : Service Nat :=
  let count : Handler Nat := .custom 0 fun calls m request =>
    ⟨calls + 1, m, .ok (UInt8.ofNat calls :: request.data)⟩
  ⟨⟨1⟩, .ofCapacity (.uniform 8), DispatchTable.standard.register 0x41 count⟩

theorem blind_counting : counting.table.Blind :=
  DispatchTable.blind_standard.register 0x41 (.custom fun _ _ _ _ => rfl)

/-- A register is written, calls are counted, another unit is asked, and coils are written. -/
def mixed : List Frame :=
  [⟨.mbap 7, ⟨1⟩, 0x06, [0x00, 0x01, 0xAB, 0xCD]⟩, ⟨.mbap 8, ⟨1⟩, 0x41, [0x2A]⟩,
    ⟨.mbap 9, ⟨2⟩, 0x41, []⟩, ⟨.mbap 10, ⟨1⟩, 0x0F, [0x00, 0x00, 0x00, 0x03, 0x01, 0x05]⟩]

/-- The network cuts the second header in two. -/
theorem converse_reframe_mixed :
    let script : Script :=
      [.bytes ((mixed.flatMap Frame.encode).take 15), .bytes ((mixed.flatMap Frame.encode).drop 15)]
    counting.table.Blind ∧
    (∀ request ∈ mixed, ∃ transaction, request.framing = .mbap transaction) ∧
    (∀ request ∈ mixed, Rtu.Shaped (request.reframe .rtu)) ∧ script.Solid ∧
    script.content = mixed.flatMap Frame.encode ∧
    let overNetwork := counting.converse .nothing (.mbap .start) .stop script
    let overLine := counting.converse .nothing (.rtu .start) .reset
      (mixed.map fun request => .bytes (request.reframe .rtu).encode)
    overLine.1 = overNetwork.1 ∧
      overNetwork.2.map (fun t => t.request.framing) = [.mbap 7, .mbap 8, .mbap 10] ∧
      overLine.2 = overNetwork.2.map (·.reframe .rtu) := by
  intro script
  have hnetwork : ∀ request ∈ mixed, ∃ transaction, request.framing = .mbap transaction := by
    intro request hrequest
    simp only [mixed, List.mem_cons, List.not_mem_nil, or_false] at hrequest
    rcases hrequest with rfl | rfl | rfl | rfl
    all_goals exact ⟨_, rfl⟩
  have hshaped : ∀ request ∈ mixed, Rtu.Shaped (request.reframe .rtu) := by
    intro request hrequest
    simp only [mixed, List.mem_cons, List.not_mem_nil, or_false] at hrequest
    rcases hrequest with rfl | rfl | rfl | rfl
    · exact .standard (.fixed rfl (by decide) rfl)
    · exact .custom ⟨rfl, by decide, by decide, by decide⟩
    · exact .custom ⟨rfl, by decide, by decide, by decide⟩
    · exact .standard (.counted rfl (by decide) rfl rfl (by decide))
  have hsolid : script.Solid := by
    intro chunk hchunk
    simp only [script, List.mem_cons, List.not_mem_nil, or_false] at hchunk
    rcases hchunk with rfl | rfl
    · exact ⟨_, _, rfl⟩
    · exact ⟨_, _, rfl⟩
  have hcontent : script.content = mixed.flatMap Frame.encode := by decide
  obtain ⟨hservice, hrequests, hanswers, -⟩ := converse_reframe .nothing blind_counting hnetwork
    hshaped hsolid hcontent .stop .reset
  refine ⟨blind_counting, hnetwork, hshaped, hsolid, hcontent, hservice, ?_, hanswers⟩
  have hframings := congrArg (List.map Frame.framing) hrequests
  rw [List.map_map] at hframings
  exact hframings

end Service

end ModbusSlave
