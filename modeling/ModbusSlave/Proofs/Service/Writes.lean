import ModbusSlave.Proofs.Service.RegisterFile
import ModbusSlave.Proofs.Service.Verdicts

/-!
# Writes

Which requests the write functions accept, and what a request leaves behind: the cells that it
covers with the values that it carries, every other cell as it was, and all of them if the request
fails. A value is told by its position in the data, so that the bits behind the last coil have none
to do with the cells.
-/
namespace ModbusSlave

/-- The coil value for the cell `k` places behind the first. -/
def coilIn (f : StandardFunction) (data : Bytes) (k : Nat) : Bool :=
  match f with
  | .writeSingleCoil => secondWord data == 0xFF00
  | _ => Bits.bit (data.drop 5) k

def registerIn (f : StandardFunction) (data : Bytes) (k : Nat) : UInt16 :=
  match f with
  | .writeSingleRegister => secondWord data
  | _ => Word.word (data.drop 5) k

namespace StandardFunction

def writers : List StandardFunction :=
  [writeSingleCoil, writeSingleRegister, writeMultipleCoils, writeMultipleRegisters]

/-- A cell that a request covers. -/
def Covers (f : StandardFunction) (data : Bytes) (bank : BankName) (cell : Nat) : Prop :=
  f.bank = bank ∧ addressIn data ≤ cell ∧ cell < addressIn data + f.span data

instance (f : StandardFunction) (data : Bytes) (bank : BankName) (cell : Nat) :
    Decidable (f.Covers data bank cell) :=
  inferInstanceAs (Decidable (_ ∧ _))

end StandardFunction

/-- The memory that a write leaves behind. -/
structure Writes (f : StandardFunction) (data : Bytes) (m after : Memory) : Prop where
  capacity : after.capacity = m.capacity
  discreteInputs : after.discreteInputs = m.discreteInputs
  inputRegisters : after.inputRegisters = m.inputRegisters
  coils : ∀ cell, after.coils[cell]? =
    if f.Covers data .coils cell then some (coilIn f data (cell - addressIn data))
    else m.coils[cell]?
  holdingRegisters : ∀ cell, after.holdingRegisters[cell]? =
    if f.Covers data .holdingRegisters cell then some (registerIn f data (cell - addressIn data))
    else m.holdingRegisters[cell]?

theorem Patch.at?_map_range {α : Type} (start count : Nat) (value : Nat → α) (cell : Nat) :
    Patch.at? ⟨start, (List.range count).map value⟩ cell =
      if start ≤ cell ∧ cell < start + count then some (value (cell - start)) else none := by
  rw [Patch.at?]
  dsimp only
  by_cases hbefore : cell < start
  · rw [if_pos hbefore, if_neg (by omega)]
  · rw [if_neg hbefore, List.getElem?_map]
    by_cases hinside : cell - start < count
    · rw [List.getElem?_range hinside, if_pos (by omega), Option.map_some]
    · rw [List.getElem?_eq_none (by rw [List.length_range]; omega), if_neg (by omega),
        Option.map_none]

section

variable {data : Bytes}

theorem coilPatch?_single (h : StandardFunction.writeSingleCoil.WellFormed data) :
    coilPatch? .writeSingleCoil data =
      some ⟨addressIn data, (List.range 1).map (coilIn .writeSingleCoil data)⟩ := by
  match data with
  | [] | [_] | [_, _] | [_, _, _] | _ :: _ :: _ :: _ :: _ :: _ => cases h.1
  | [a, b, c, d] =>
    have hword : secondWord [a, b, c, d] = Word.join c d := rfl
    have hhigh : c = Word.high (secondWord [a, b, c, d]) := (Word.high_join c d).symm
    have hvalue : decide (c = 0xFF) = (secondWord [a, b, c, d] == 0xFF00) := by
      rcases h.2 with hon | hoff
      · rw [hon] at hhigh ⊢
        rw [hhigh]
        rfl
      · rw [hoff] at hhigh ⊢
        rw [hhigh]
        rfl
    simp only [coilPatch?, hvalue, List.range_one, List.map_cons, List.map_nil, coilIn]
    rfl

theorem coilPatch?_multiple (h : StandardFunction.writeMultipleCoils.WellFormed data) :
    coilPatch? .writeMultipleCoils data =
      some ⟨addressIn data, (List.range (countIn data)).map (coilIn .writeMultipleCoils data)⟩ := by
  obtain ⟨-, -, hlength⟩ := h
  match data, hlength with
  | a :: b :: c :: d :: e :: rest, _ => rfl

theorem registerPatch?_single (h : StandardFunction.writeSingleRegister.WellFormed data) :
    registerPatch? .writeSingleRegister data =
      some ⟨addressIn data, (List.range 1).map (registerIn .writeSingleRegister data)⟩ := by
  match data, h with
  | [_, _, _, _], _ => rfl

theorem registerPatch?_multiple (h : StandardFunction.writeMultipleRegisters.WellFormed data) :
    registerPatch? .writeMultipleRegisters data = some ⟨addressIn data,
      (List.range (countIn data)).map (registerIn .writeMultipleRegisters data)⟩ := by
  obtain ⟨-, -, hlength⟩ := h
  match data, hlength with
  | _ :: _ :: _ :: _ :: _ :: _, _ => rfl

theorem answer_of_singleWrite {request : Indexed UInt16} (h : singleWrite data = .ok request) :
    echo request.index request.value = data.take 4 := by
  rw [singleWrite_eq_ok h]
  rfl

end

namespace AddressRange

/-- The first address is compared with the last one that the count leaves room for, in words of
sixteen bits, where neither subtraction wraps around. -/
theorem of?_eq_words (start count : UInt16) :
    of? start count =
        (if count = 0 then .error .illegalDataValue
        else if 0xFFFF - (count - 1) < start then .error .illegalDataAddress
        else .ok ⟨start, count⟩) ∧
      (count ≠ 0 → (0xFFFF - (count - 1)).toNat + count.toNat = 65536) := by
  have hstart := start.toNat_lt
  have hcount := count.toNat_lt
  by_cases hzero : count = 0
  · subst hzero
    exact ⟨rfl, fun h => absurd rfl h⟩
  · have hpos : count.toNat ≠ 0 := fun h => hzero (UInt16.toNat_inj.mp h)
    have hone : (1 : UInt16) ≤ count := by
      rw [UInt16.le_iff_toNat_le]
      exact Nat.pos_of_ne_zero hpos
    have hlast : (count - 1).toNat = count.toNat - 1 := UInt16.toNat_sub_of_le _ _ hone
    have hroom : (0xFFFF - (count - 1) : UInt16).toNat = 65535 - (count.toNat - 1) := by
      rw [UInt16.toNat_sub_of_le, hlast]
      · rfl
      · rw [UInt16.le_iff_toNat_le, hlast]
        exact Nat.le_trans (Nat.sub_le _ 1) (Nat.le_of_lt_succ hcount)
    refine ⟨?_, fun _ => by omega⟩
    rw [of?, if_neg hpos, if_neg hzero]
    refine if_congr ?_ rfl rfl
    rw [UInt16.lt_iff_toNat_lt, hroom]
    omega

end AddressRange

section

variable {f : StandardFunction} {m after : Memory} {data answer : Bytes}

namespace StandardFunction

theorem answer_of_run (hwriter : f ∈ writers) (h : f.run data m = (.ok answer, after)) :
    answer = data.take 4 := by
  cases f with
  | readCoils | readDiscreteInputs | readHoldingRegisters | readInputRegisters =>
    simp [writers] at hwriter
  | writeSingleCoil =>
    obtain ⟨_, hwrite, -⟩ := onCoils_eq_ok h
    obtain ⟨request, hrequest, hrest⟩ := check_eq_ok hwrite
    obtain ⟨value, -, hreplace⟩ := check_eq_ok hrest
    obtain ⟨bank, -, hdone⟩ := check_eq_ok (get_eq_ok hreplace)
    cases hdone
    exact answer_of_singleWrite hrequest
  | writeSingleRegister =>
    obtain ⟨_, hwrite, -⟩ := onHoldingRegisters_eq_ok h
    obtain ⟨request, hrequest, hreplace⟩ := check_eq_ok hwrite
    obtain ⟨bank, -, hdone⟩ := check_eq_ok (get_eq_ok hreplace)
    cases hdone
    exact answer_of_singleWrite hrequest
  | writeMultipleCoils =>
    obtain ⟨_, hwrite, -⟩ := onCoils_eq_ok h
    obtain ⟨range, count, bytes, rfl, -, -, rfl⟩ := writeRange_eq_ok hwrite
    rfl
  | writeMultipleRegisters =>
    obtain ⟨_, hwrite, -⟩ := onHoldingRegisters_eq_ok (x := writeRegisters data) h
    obtain ⟨range, count, bytes, rfl, -, -, rfl⟩ := writeRange_eq_ok hwrite
    rfl

theorem wellFormed_of_run (h : f.run data m = (.ok answer, after)) :
    f.WellFormed data ∧ addressIn data + f.span data ≤ min (m.size f.bank) 65536 := by
  have hverdict : f.verdict? m data = none := by
    rw [← refusal?_run, h]
    rfl
  exact (verdict?_eq_none m).mp hverdict

end StandardFunction

theorem coilPatch?_at? (hwriter : f ∈ StandardFunction.writers) (h : f.WellFormed data)
    (cell : Nat) :
    (coilPatch? f data).bind (·.at? cell) =
      if f.Covers data .coils cell then some (coilIn f data (cell - addressIn data)) else none := by
  cases f with
  | readCoils | readDiscreteInputs | readHoldingRegisters | readInputRegisters =>
    simp [StandardFunction.writers] at hwriter
  | writeSingleCoil =>
    rw [coilPatch?_single h, Option.bind_some, Patch.at?_map_range]
    exact if_congr (and_iff_right rfl).symm rfl rfl
  | writeMultipleCoils =>
    rw [coilPatch?_multiple h, Option.bind_some, Patch.at?_map_range]
    exact if_congr (and_iff_right rfl).symm rfl rfl
  | writeSingleRegister | writeMultipleRegisters => rfl

theorem registerPatch?_at? (hwriter : f ∈ StandardFunction.writers) (h : f.WellFormed data)
    (cell : Nat) :
    (registerPatch? f data).bind (·.at? cell) =
      if f.Covers data .holdingRegisters cell then
        some (registerIn f data (cell - addressIn data))
      else none := by
  cases f with
  | readCoils | readDiscreteInputs | readHoldingRegisters | readInputRegisters =>
    simp [StandardFunction.writers] at hwriter
  | writeSingleRegister =>
    rw [registerPatch?_single h, Option.bind_some, Patch.at?_map_range]
    exact if_congr (and_iff_right rfl).symm rfl rfl
  | writeMultipleRegisters =>
    rw [registerPatch?_multiple h, Option.bind_some, Patch.at?_map_range]
    exact if_congr (and_iff_right rfl).symm rfl rfl
  | writeSingleCoil | writeMultipleCoils => rfl

theorem writes_of_run (hwriter : f ∈ StandardFunction.writers)
    (h : f.run data m = (.ok answer, after)) : Writes f data m after := by
  obtain ⟨hcells, hcapacity, -, -⟩ := accepts_of_run h
  have hformed := (StandardFunction.wellFormed_of_run h).1
  refine ⟨hcapacity, ?_, ?_, ?_, ?_⟩
  · exact Array.ext_getElem? fun cell => congrFun (congrArg Cells.discreteInput? hcells) cell
  · exact Array.ext_getElem? fun cell => congrFun (congrArg Cells.inputRegister? hcells) cell
  · intro cell
    apply (congrFun (congrArg Cells.coil? hcells) cell).trans
    simp only [Cells.write]
    rw [coilPatch?_at? hwriter hformed]
    split_ifs <;> rfl
  · intro cell
    apply (congrFun (congrArg Cells.holdingRegister? hcells) cell).trans
    simp only [Cells.write]
    rw [registerPatch?_at? hwriter hformed]
    split_ifs <;> rfl

end

namespace Handler

variable {σ : Type}

theorem run_of_ok {f : StandardFunction} {m : Memory} {request : Frame} {answer : Bytes}
    (h : ((standard f : Handler σ).call m request).result = .ok answer) :
    f.run request.data m = (.ok answer, ((standard f : Handler σ).call m request).memory) :=
  Prod.ext h rfl

theorem memory_of_error {f : StandardFunction} {m : Memory} {request : Frame} {e : ExceptionCode}
    (h : ((standard f : Handler σ).call m request).result = .error e) :
    ((standard f : Handler σ).call m request).memory = m :=
  f.atomic_run request.data m e h

/-- Each of the write functions accepts exactly what it should, answers with the first two words,
changes the cells that its request covers and no others, and changes nothing if it fails. -/
theorem call_writers (m : Memory) (request : Frame) :
    let data := request.data
    let reply (f : StandardFunction) := (standard f : Handler σ).call m request
    let accepted (f : StandardFunction) := ∃ answer, (reply f).result = .ok answer
    (accepted .writeSingleCoil ↔
        data.length = 4 ∧ (secondWord data = 0xFF00 ∨ secondWord data = 0x0000) ∧
          addressIn data < m.coils.size) ∧
      (accepted .writeSingleRegister ↔
        data.length = 4 ∧ addressIn data < m.holdingRegisters.size) ∧
      (accepted .writeMultipleCoils ↔
        1 ≤ countIn data ∧ countIn data ≤ 1968 ∧ byteCountIn data = (countIn data + 7) / 8 ∧
          data.length = 5 + byteCountIn data ∧
          addressIn data + countIn data ≤ min m.coils.size 65536) ∧
      (accepted .writeMultipleRegisters ↔
        1 ≤ countIn data ∧ countIn data ≤ 123 ∧ byteCountIn data = 2 * countIn data ∧
          data.length = 5 + byteCountIn data ∧
          addressIn data + countIn data ≤ min m.holdingRegisters.size 65536) ∧
      (∀ f ∈ StandardFunction.writers, ∀ answer, (reply f).result = .ok answer →
        answer = data.take 4 ∧ Writes f data m (reply f).memory ∧
          ∀ cell, f.Covers data f.bank cell → cell < m.size f.bank ∧ cell < 65536) ∧
      (∀ f ∈ StandardFunction.writers, ∀ e, (reply f).result = .error e → (reply f).memory = m) ∧
      ∀ start count : UInt16, AddressRange.of? start count =
          (if count = 0 then .error .illegalDataValue
          else if 0xFFFF - (count - 1) < start then .error .illegalDataAddress
          else .ok ⟨start, count⟩) ∧
        (count ≠ 0 → (0xFFFF - (count - 1)).toNat + count.toNat = 65536) := by
  intro data reply accepted
  have hsmall : addressIn data < 65536 := (Word.word data 0).toNat_lt
  refine ⟨?_, ?_, ?_, ?_, ?_, ?_, AddressRange.of?_eq_words⟩
  · refine (ok_iff .writeSingleCoil m request).trans ?_
    change (data.length = 4 ∧ (secondWord data = 0xFF00 ∨ secondWord data = 0x0000)) ∧
      addressIn data + 1 ≤ min m.coils.size 65536 ↔ _
    rw [and_assoc]
    exact and_congr_right fun _ => and_congr_right fun _ => by omega
  · refine (ok_iff .writeSingleRegister m request).trans ?_
    change data.length = 4 ∧ addressIn data + 1 ≤ min m.holdingRegisters.size 65536 ↔ _
    omega
  · refine (ok_iff .writeMultipleCoils m request).trans ?_
    change (Ranged data 1968 ∧ Counted data ((countIn data + 7) / 8)) ∧
      addressIn data + countIn data ≤ min m.coils.size 65536 ↔ _
    rw [Ranged, Counted]
    omega
  · refine (ok_iff .writeMultipleRegisters m request).trans ?_
    change (Ranged data 123 ∧ Counted data (2 * countIn data)) ∧
      addressIn data + countIn data ≤ min m.holdingRegisters.size 65536 ↔ _
    rw [Ranged, Counted]
    omega
  · intro f hwriter answer hok
    have hrun : f.run data m = (.ok answer, (reply f).memory) := run_of_ok hok
    obtain ⟨-, hinside⟩ := StandardFunction.wellFormed_of_run hrun
    refine ⟨StandardFunction.answer_of_run hwriter hrun, writes_of_run hwriter hrun, ?_⟩
    rintro cell ⟨-, -, hcell⟩
    omega
  · exact fun f _ e herror => memory_of_error herror

/-- Two coils from the second on; the six bits behind them change nothing. -/
example :
    let request : Frame := ⟨.mbap 0, ⟨1⟩, 0x0F, [0, 1, 0, 2, 1, 0xFE]⟩
    let reply := (standard .writeMultipleCoils : Handler Unit).call
      (.ofCapacity (.uniform 4)) request
    reply.memory.coils = #[false, false, true, false] ∧ reply.result = .ok [0, 1, 0, 2] := by
  intro request reply
  exact ⟨by decide +kernel, by rfl⟩

end Handler

end ModbusSlave
