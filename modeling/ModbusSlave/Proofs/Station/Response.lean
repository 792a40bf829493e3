import ModbusSlave.Proofs.Service.Sequential
import ModbusSlave.Proofs.Station.Worker
import ModbusSlave.Proofs.Stream.MbapDecoding

/-!
# Legal responses

Whatever a handler returns, and if there is none, the worker writes a frame that the wire allows,
and the function code of that frame tells whether the request has succeeded.
-/
namespace ModbusSlave

/-- What the wire asks of a frame. On a network, the length field counts the bytes behind it, and a
parser that is given the frame alone returns it and leaves nothing; on a serial line the checksum
of all other bytes is at the end. -/
inductive Frame.Legal (f : Frame) : Prop
  | mbap {transaction length : UInt16} (framing : f.framing = .mbap transaction)
      (bytes : f.encode =
        Word.big transaction ++ [0, 0] ++ Word.big length ++ f.unit.value :: f.pdu)
      (counts : length.toNat = (f.unit.value :: f.pdu).length) (short : f.encode.length ≤ 260)
      (parses : ∀ b : ReadBuffer, b.contents = f.encode →
        ∃ after, Mbap.parse .start b = (.ok (some f), .start, after) ∧ after.contents = [])
  | rtu (framing : f.framing = .rtu)
      (bytes : f.encode = f.unit.value :: f.pdu ++
        Word.little (Checksum.ofBytes (f.unit.value :: f.pdu)))
      (short : f.encode.length ≤ 256)

theorem Mbap.parse_encode {f : Frame} (h : f.Fits) {b : ReadBuffer} (hb : b.contents = f.encode) :
    ∃ after, Mbap.parse .start b = (.ok (some f), .start, after) ∧ after.contents = [] := by
  have hfirst := Mbap.first?_encode h []
  rw [List.append_nil, ← hb] at hfirst
  have hparses := Mbap.parses_start b
  rw [Mbap.pending, Mbap.State.consumed, List.nil_append] at hparses
  generalize Mbap.parse .start b = parsed at hparses ⊢
  cases hparses with
  | @frame frame after first =>
    rw [hfirst] at first
    obtain ⟨hframe, hafter⟩ := Prod.mk.inj (Option.some.inj first)
    cases hframe
    exact ⟨after, rfl, hafter.symm⟩
  | fault first =>
    rw [hfirst] at first
    cases first
  | waits valid same first =>
    rw [hfirst] at first
    cases first

theorem Frame.legal_of_short {f : Frame} (h : f.pdu.length ≤ maxPdu) : f.Legal := by
  rw [length_pdu, maxPdu] at h
  have hlength := f.length_encode
  cases hframing : f.framing with
  | mbap transaction =>
    rw [hframing] at hlength
    dsimp only at hlength
    have hfits : f.Fits := ⟨⟨transaction, hframing⟩, h⟩
    have hbytes : f.encode = Word.big transaction ++ [0, 0] ++
        Word.big (UInt16.ofNat f.lengthField) ++ f.unit.value :: f.pdu := by
      rw [encode, hframing]
      rfl
    have hcounts :
        (UInt16.ofNat f.lengthField).toNat = (f.unit.value :: f.pdu).length := by
      rw [UInt16.toNat_ofNat', lengthField, List.length_cons, length_pdu]
      omega
    exact .mbap hframing hbytes hcounts (by omega) fun b => Mbap.parse_encode hfits
  | rtu =>
    rw [hframing] at hlength
    dsimp only at hlength
    have hbytes : f.encode = f.unit.value :: f.pdu ++
        Word.little (Checksum.ofBytes (f.unit.value :: f.pdu)) := by
      rw [encode, hframing]
      rfl
    exact .rtu hframing hbytes (by omega)

/-- The pdu that answers a function code, by what its handler returns, if there is one. -/
def answerPdu (code : UInt8) : Option (Except ExceptionCode Bytes) → Bytes
  | some (.ok data) => if data.length ≤ 252 then code :: data else [code ||| 0x80, 0x04]
  | some (.error e) => [code ||| 0x80, e.code]
  | none => [code ||| 0x80, 0x01]

section Answer

variable (code : UInt8) (returned : Option (Except ExceptionCode Bytes))

/-- Without data that fits, the answer is an exception. -/
theorem answerPdu_cases :
    (∃ data, returned = some (.ok data) ∧ data.length ≤ 252 ∧
      answerPdu code returned = code :: data) ∨
    ((¬ ∃ data, returned = some (.ok data) ∧ data.length ≤ 252) ∧
      ∃ e, answerPdu code returned = [code ||| 0x80, e]) := by
  match returned with
  | some (.ok data) =>
    rw [answerPdu]
    split
    · next hfits => exact .inl ⟨data, rfl, hfits, rfl⟩
    · next hlong =>
      refine .inr ⟨?_, 0x04, rfl⟩
      rintro ⟨_, hdata, hfits⟩
      cases hdata
      exact hlong hfits
  | some (.error e) =>
    refine .inr ⟨?_, e.code, rfl⟩
    rintro ⟨_, hdata, -⟩
    cases hdata
  | none =>
    refine .inr ⟨?_, 0x01, rfl⟩
    rintro ⟨_, hdata, -⟩
    cases hdata

theorem length_answerPdu : (answerPdu code returned).length ≤ 253 := by
  rcases answerPdu_cases code returned with ⟨data, -, hfits, hpdu⟩ | ⟨-, e, hpdu⟩
  · rw [hpdu, List.length_cons]
    omega
  · rw [hpdu]
    exact Nat.le_add_left 2 251

theorem testBit_answerPdu {function : UInt8} {data : Bytes} (hcode : code < 0x80)
    (h : function :: data = answerPdu code returned) :
    function.toNat.testBit 7 = true ↔
      ¬ ∃ data, returned = some (.ok data) ∧ data.length ≤ 252 := by
  rcases answerPdu_cases code returned with ⟨payload, hdata, hfits, hpdu⟩ | ⟨hnone, e, hpdu⟩
  · rw [hpdu] at h
    obtain ⟨rfl, -⟩ := List.cons.inj h
    have hclear : function.toNat.testBit 7 = false :=
      Nat.testBit_lt_two_pow (UInt8.lt_iff_toNat_lt.mp hcode)
    constructor
    · intro hset
      rw [hclear] at hset
      cases hset
    · exact fun hnone => absurd ⟨payload, hdata, hfits⟩ hnone
  · rw [hpdu] at h
    obtain ⟨rfl, -⟩ := List.cons.inj h
    have hset : (code ||| 0x80).toNat.testBit 7 = true := by
      rw [UInt8.toNat_or, Nat.testBit_or]
      exact Bool.or_eq_true_iff.mpr (.inr rfl)
    exact ⟨fun _ => hnone, fun _ => hset⟩

end Answer

namespace Image

variable {σ : Type} (i : Image σ) (request : Frame)

/-- What the handler of a request returns, if there is one. -/
def returned? : Option (Except ExceptionCode Bytes) :=
  (i.handlers request.function).map fun handler => (handler.call i.memory request).result

theorem pdu_answer : (request.answer (i.reply request).2).pdu =
    answerPdu request.function (i.returned? request) := by
  simp only [reply, returned?]
  cases i.handlers request.function with
  | none => rfl
  | some handler =>
    dsimp only [Option.map_some]
    cases (handler.call i.memory request).result with
    | error e => rfl
    | ok data =>
      by_cases hfits : data.length ≤ 252
      · simp only [fitted, answerPdu, if_pos hfits]
        rfl
      · simp only [fitted, answerPdu, if_neg hfits]
        rfl

end Image

theorem Service.effect_request {σ ρ : Type} (s : Service σ) (level : DecodeLevel) (link : Nat)
    {request : Frame} (own : request.unit = s.unit) :
    (s.handle level (.request link request : Message σ ρ)).2.1 =
      .respond link (request.answer (s.image.reply request).2) := by
  have hreply := congrArg Prod.snd (s.serve_eq request)
  dsimp only at hreply
  rw [handle, if_pos own, respond, ← hreply]

namespace Station

variable {σ ρ : Type}

/-- The worker answers a request for its unit by a legal frame of the same unit and framing. Data
that fits follows on the function code as it is; in every other case the pdu is the marked code and
an exception. -/
theorem writes_legal (s : Station σ ρ) {link : Nat} {request : Frame} {queue : List (Message σ ρ)}
    (idle : s.worker.job = .idle) (waiting : s.worker.queue = .request link request :: queue)
    (own : request.unit = s.worker.service.unit) :
    let returned := s.worker.service.image.returned? request
    ∃ response : Frame,
      (s.act (.step .worker)).worker.job =
        .writing ⟨link, response.encode, s.level.physical, .entering⟩ s.deadline ∧
      response.framing = request.framing ∧ response.unit = request.unit ∧
      response.pdu = answerPdu request.function returned ∧
      response.pdu.length ≤ 253 ∧ response.Legal ∧
      (request.function < 0x80 → (response.function.toNat.testBit 7 = true ↔
        ¬ ∃ data, returned = some (.ok data) ∧ data.length ≤ 252)) := by
  intro returned
  have hpdu := s.worker.service.image.pdu_answer request
  have hlength : (request.answer (s.worker.service.image.reply request).2).pdu.length ≤ 253 := by
    rw [hpdu]
    exact length_answerPdu _ _
  refine ⟨request.answer (s.worker.service.image.reply request).2, ?_, request.framing_answer _,
    request.unit_answer _, hpdu, hlength, Frame.legal_of_short hlength, ?_⟩
  · obtain ⟨hnone, -⟩ | hmove := s.act_worker
    · rw [queue_eq_nil_of_workerStep? hnone idle] at waiting
      cases waiting
    · obtain ⟨message, rest, hqueue, htaken⟩ := take_of_move hmove idle
      rw [waiting] at hqueue
      cases hqueue
      rw [worker_of_takeMessage? idle waiting htaken,
        s.worker.service.effect_request s.level link own]
      rfl
  · exact fun hcode => testBit_answerPdu _ _ hcode hpdu

def overlong : Station Unit Unit :=
  let s : Station Unit Unit := .ofSettings ⟨⟨1⟩, .uniform 2, .ofSeconds 1, none, .nothing⟩
  let long : Handler Unit := .custom () fun _ m _ => ⟨(), m, .ok (List.replicate 253 0x00)⟩
  let service := { s.worker.service with table := DispatchTable.empty.register 0x41 long }
  { s with worker := { s.worker with
      service, queue := [.request 0 ⟨.mbap 7, ⟨1⟩, 0x41, [0x2A]⟩] } }

/-- The answer is the exception for a failure of the device. -/
theorem writes_legal_overlong :
    overlong.worker.job = .idle ∧
      overlong.worker.queue = [.request 0 ⟨.mbap 7, ⟨1⟩, 0x41, [0x2A]⟩] ∧
      ∃ response : Frame,
        (overlong.act (.step .worker)).worker.job =
          .writing ⟨0, response.encode, .nothing, .entering⟩ 1000 ∧
        response.framing = .mbap 7 ∧ response.pdu = [0xC1, 0x04] ∧ response.Legal := by
  refine ⟨rfl, rfl, ?_⟩
  obtain ⟨response, hjob, hframing, -, hpdu, -, hlegal, -⟩ := writes_legal overlong rfl rfl rfl
  have hreturned : overlong.worker.service.image.returned? ⟨.mbap 7, ⟨1⟩, 0x41, [0x2A]⟩ =
      some (.ok (List.replicate 253 0x00)) := rfl
  rw [hreturned, answerPdu, if_neg (by rw [List.length_replicate]; decide)] at hpdu
  exact ⟨response, hjob, hframing, hpdu, hlegal⟩

end Station

end ModbusSlave
