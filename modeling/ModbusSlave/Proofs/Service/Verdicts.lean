import Mathlib.Logic.Basic
import Mathlib.Tactic.SplitIfs
import ModbusSlave.Proofs.Wire.Positions
import ModbusSlave.Dispatch

/-!
# Verdicts on standard requests

What the data of a request has to look like for each standard function, said of its bytes as they
stand, and which of two exceptions answers a request that is refused. The functions look at the
data from the front and at the bank last. So malformed data is an illegal value, and well-formed
data that leaves the bank an illegal address; but a range that leaves the addresses of sixteen bits
is found before what follows it is looked at, and is an illegal address even if the data is too
long, too short, or carries a wrong byte count.
-/
namespace ModbusSlave

section

variable (data : Bytes)

/-- The address that the data of a request begins with. -/
def addressIn : Nat := (Word.word data 0).toNat

/-- The word behind the address: a count of cells, or a value. -/
def secondWord : UInt16 := Word.word data 1

def countIn : Nat := (secondWord data).toNat

def byteCountIn : Nat := (data.getD 4 0).toNat

/-- The data begins with an address and a count between one and `limit`. -/
def Ranged (limit : Nat) : Prop := 4 ≤ data.length ∧ 1 ≤ countIn data ∧ countIn data ≤ limit

/-- The byte behind the two words counts the bytes behind it, and says that there are `expected`. -/
def Counted (expected : Nat) : Prop :=
  byteCountIn data = expected ∧ data.length = 5 + byteCountIn data

instance (limit : Nat) : Decidable (Ranged data limit) := inferInstanceAs (Decidable (_ ∧ _))

instance (expected : Nat) : Decidable (Counted data expected) :=
  inferInstanceAs (Decidable (_ ∧ _))

end

@[simp] theorem addressIn_big (v w : UInt16) :
    addressIn (Word.big v ++ Word.big w) = v.toNat := by
  simp [addressIn, Word.word, Word.big]

@[simp] theorem secondWord_big (v w : UInt16) : secondWord (Word.big v ++ Word.big w) = w := by
  simp [secondWord, Word.word, Word.big]

namespace StandardFunction

def bank : StandardFunction → BankName
  | readCoils | writeSingleCoil | writeMultipleCoils => .coils
  | readDiscreteInputs => .discreteInputs
  | readHoldingRegisters | writeSingleRegister | writeMultipleRegisters => .holdingRegisters
  | readInputRegisters => .inputRegisters

/-- The most cells that one request may cover. -/
def mostCells : StandardFunction → Nat
  | readCoils | readDiscreteInputs => 2000
  | readHoldingRegisters | readInputRegisters => 125
  | writeSingleCoil | writeSingleRegister => 1
  | writeMultipleCoils => 1968
  | writeMultipleRegisters => 123

/-- The cells that a request covers, from its address on. -/
def span (f : StandardFunction) (data : Bytes) : Nat :=
  match f with
  | writeSingleCoil | writeSingleRegister => 1
  | _ => countIn data

/-- The data is what the function requires: neither too short nor too long, with a count within the
limit, a byte count that fits the count and the bytes behind it, and a value that a coil can
take. -/
def WellFormed (f : StandardFunction) (data : Bytes) : Prop :=
  match f with
  | readCoils | readDiscreteInputs | readHoldingRegisters | readInputRegisters =>
    Ranged data f.mostCells ∧ data.length = 4
  | writeSingleCoil => data.length = 4 ∧ (secondWord data = 0xFF00 ∨ secondWord data = 0x0000)
  | writeSingleRegister => data.length = 4
  | writeMultipleCoils => Ranged data f.mostCells ∧ Counted data ((countIn data + 7) / 8)
  | writeMultipleRegisters => Ranged data f.mostCells ∧ Counted data (2 * countIn data)

/-- The data begins with a range that is not too long but leaves the addresses of sixteen bits. -/
def Overruns (f : StandardFunction) (data : Bytes) : Prop :=
  match f with
  | writeSingleCoil | writeSingleRegister => False
  | _ => Ranged data f.mostCells ∧ 65536 < addressIn data + countIn data

instance (f : StandardFunction) (data : Bytes) : Decidable (f.WellFormed data) :=
  match f with
  | readCoils | readDiscreteInputs | readHoldingRegisters | readInputRegisters
  | writeSingleCoil | writeMultipleCoils | writeMultipleRegisters =>
    inferInstanceAs (Decidable (_ ∧ _))
  | writeSingleRegister => inferInstanceAs (Decidable (_ = _))

instance (f : StandardFunction) (data : Bytes) : Decidable (f.Overruns data) :=
  match f with
  | writeSingleCoil | writeSingleRegister => inferInstanceAs (Decidable False)
  | readCoils | readDiscreteInputs | readHoldingRegisters | readInputRegisters
  | writeMultipleCoils | writeMultipleRegisters => inferInstanceAs (Decidable (_ ∧ _))

/-- The exception that answers a request, if it is refused. -/
def verdict? (f : StandardFunction) (m : Memory) (data : Bytes) : Option ExceptionCode :=
  if f.Overruns data then some .illegalDataAddress
  else if f.WellFormed data then
    if addressIn data + f.span data ≤ m.size f.bank then none else some .illegalDataAddress
  else some .illegalDataValue

end StandardFunction

/-- Why a computation has no result. -/
def refusal? {α : Type} : Except ExceptionCode α → Option ExceptionCode
  | .ok _ => none
  | .error e => some e

theorem refusal?_eq_some {α : Type} {x : Except ExceptionCode α} {e : ExceptionCode} :
    refusal? x = some e ↔ x = .error e := by
  cases x <;> simp [refusal?]

theorem refusal?_eq_none {α : Type} {x : Except ExceptionCode α} :
    refusal? x = none ↔ ∃ a, x = .ok a := by
  cases x <;> simp [refusal?]

section

variable {α β : Type} (data : Bytes)

theorem Refusable.fst_check_bind {γ : Type} (x : Except ExceptionCode γ) (f : γ → Refusable α β)
    (store : α) : ((liftM x >>= f : Refusable α β) store).1 = x >>= fun c => (f c store).1 := by
  cases x <;> rfl

theorem refusal?_check {p : Prop} [Decidable p] {a : α} {e : ExceptionCode} :
    refusal? (if p then .ok a else .error e) = if p then none else some e := by
  split_ifs <;> rfl

theorem refusal?_change {check : α → Except ExceptionCode α} {store : α} {b : β} :
    refusal? ((do set (← check (← get)); return b : Refusable α β) store).1 =
      refusal? (check store) := by
  refine (congrArg refusal? (Refusable.fst_check_bind (check store) _ store)).trans ?_
  cases check store <;> rfl

theorem refusal?_check_bind {p : Prop} [Decidable p] {a : α} {e : ExceptionCode}
    {f : α → Except ExceptionCode β} (hf : ∀ a, refusal? (f a) = none) :
    refusal? ((if p then .ok a else .error e) >>= f) = if p then none else some e := by
  split_ifs
  · exact hf a
  · rfl

theorem AddressRange.take_eq (limit : Nat) :
    take limit data =
      if Ranged data limit then
        if 65536 < addressIn data + countIn data then .error .illegalDataAddress
        else .ok (⟨Word.word data 0, secondWord data⟩, data.drop 4)
      else .error .illegalDataValue := by
  match data with
  | [] | [_] | [_, _] | [_, _, _] => rfl
  | a :: b :: c :: d :: rest =>
    have hstart : Word.word (a :: b :: c :: d :: rest) 0 = Word.join a b := rfl
    have hcount : secondWord (a :: b :: c :: d :: rest) = Word.join c d := rfl
    simp only [take, takeWord, bind, Except.bind, of?, Ranged, addressIn, countIn, hstart, hcount,
      List.length_cons, List.drop_succ_cons, List.drop_zero]
    split_ifs <;> first | rfl | omega

theorem refusal?_take_bind (limit : Nat) (f : AddressRange × Bytes → Except ExceptionCode β) :
    refusal? (AddressRange.take limit data >>= f) =
      if Ranged data limit then
        if 65536 < addressIn data + countIn data then some .illegalDataAddress
        else refusal? (f (⟨Word.word data 0, secondWord data⟩, data.drop 4))
      else some .illegalDataValue := by
  rw [AddressRange.take_eq]
  split_ifs <;> rfl

theorem finished_drop (n : Nat) :
    finished (data.drop n) =
      if data.length ≤ n then .ok () else .error .illegalDataValue := by
  cases hrest : data.drop n with
  | nil =>
    rw [if_pos (List.drop_eq_nil_iff.mp hrest)]
    rfl
  | cons x rest =>
    have hlong : ¬ data.length ≤ n := by
      intro h
      rw [List.drop_eq_nil_of_le h] at hrest
      cases hrest
    rw [if_neg hlong]
    rfl

theorem refusal?_finished_bind (n : Nat) (f : Unit → Except ExceptionCode β) :
    refusal? (finished (data.drop n) >>= f) =
      if data.length ≤ n then refusal? (f ()) else some .illegalDataValue := by
  rw [finished_drop]
  split_ifs <;> rfl

theorem countedBytes_drop {data : Bytes} (h : 4 ≤ data.length) (expected : Nat) :
    countedBytes expected (data.drop 4) =
      if Counted data expected then .ok (data.drop 5) else .error .illegalDataValue := by
  match data with
  | [] | [_] | [_, _] | [_, _, _] => simp at h
  | [_, _, _, _] =>
    rw [if_neg]
    · rfl
    · simp only [Counted, List.length_cons, List.length_nil]
      omega
  | _ :: _ :: _ :: _ :: count :: values =>
    simp only [countedBytes, takeByte, takeBytes, bind, Except.bind, byteCountIn, Counted,
      List.length_cons, List.drop_succ_cons, List.drop_zero, List.getD_cons_succ,
      List.getD_cons_zero]
    by_cases hcount : count.toNat = expected
    · rw [if_neg (not_not.mpr hcount)]
      by_cases hshort : values.length < count.toNat
      · rw [if_pos hshort, if_neg (by omega)]
      · rw [if_neg hshort]
        dsimp only
        rw [finished_drop]
        by_cases hlong : values.length ≤ count.toNat
        · rw [if_pos hlong, if_pos (by omega), List.take_of_length_le hlong]
          rfl
        · rw [if_neg hlong, if_neg (by omega)]
    · rw [if_pos hcount, if_neg (fun h => hcount h.1)]

theorem refusal?_countedBytes_bind {data : Bytes} (h : 4 ≤ data.length) (expected : Nat)
    (f : Bytes → Except ExceptionCode β) :
    refusal? (countedBytes expected (data.drop 4) >>= f) =
      if Counted data expected then refusal? (f (data.drop 5)) else some .illegalDataValue := by
  rw [countedBytes_drop h expected]
  split_ifs <;> rfl

theorem refusal?_singleWrite_bind (f : Indexed UInt16 → Except ExceptionCode β) :
    refusal? (singleWrite data >>= f) =
      if data.length = 4 then refusal? (f ⟨Word.word data 0, secondWord data⟩)
      else some .illegalDataValue := by
  match data with
  | [] | [_] | [_, _] | [_, _, _] | [_, _, _, _] => rfl
  | _ :: _ :: _ :: _ :: _ :: rest =>
    have hlong : ¬ rest.length + 1 + 1 + 1 + 1 + 1 = 4 := by omega
    simp only [List.length_cons, if_neg hlong]
    rfl

theorem refusal?_ofWord_bind (w : UInt16) (f : Bool → Except ExceptionCode β) :
    refusal? (Coil.ofWord w >>= f) =
      if w = 0xFF00 then refusal? (f true)
      else if w = 0x0000 then refusal? (f false)
      else some .illegalDataValue := by
  rw [Coil.ofWord, Coil.on, Coil.off]
  split_ifs <;> rfl

/-- The verdict on a request with a range, whose data is `complete` behind it: the addresses are
judged before that, and the bank last. -/
def rangeVerdict? (limit size : Nat) (complete : Prop) [Decidable complete] :
    Option ExceptionCode :=
  if Ranged data limit ∧ 65536 < addressIn data + countIn data then some .illegalDataAddress
  else if Ranged data limit ∧ complete then
    if addressIn data + countIn data ≤ size then none else some .illegalDataAddress
  else some .illegalDataValue

theorem rangeVerdict?_eq (limit size : Nat) (complete : Prop) [Decidable complete] :
    rangeVerdict? data limit size complete =
      if Ranged data limit then
        if 65536 < addressIn data + countIn data then some .illegalDataAddress
        else if complete then
          if addressIn data + countIn data ≤ size then none else some .illegalDataAddress
        else some .illegalDataValue
      else some .illegalDataValue := by
  by_cases hranged : Ranged data limit <;> simp [rangeVerdict?, hranged]

theorem refusal?_readRange (limit : Nat) (bank : Bank α) (answer : List α → Bytes) :
    refusal? (do
      let range ← readRange limit data
      let values ← bank.cells range
      return answer values) = rangeVerdict? data limit bank.size (data.length = 4) := by
  rw [readRange, bind_assoc, refusal?_take_bind, rangeVerdict?_eq]
  refine if_ctx_congr Iff.rfl (fun hranged => if_congr Iff.rfl rfl ?_) (fun _ => rfl)
  have hlength : data.length ≤ 4 ↔ data.length = 4 :=
    ⟨fun h => Nat.le_antisymm h hranged.1, Nat.le_of_eq⟩
  rw [bind_assoc, refusal?_finished_bind]
  exact if_congr hlength (refusal?_check_bind fun _ => rfl) rfl

theorem refusal?_writeRange (limit : Nat) (width : Nat → Nat) (bank : Bank α)
    (values : Bytes → Nat → List α) :
    refusal? (writeRange limit width values data bank).1 =
      rangeVerdict? data limit bank.size (Counted data (width (countIn data))) := by
  rw [writeRange, Refusable.fst_check_bind, refusal?_take_bind, rangeVerdict?_eq]
  refine if_ctx_congr Iff.rfl (fun hranged => if_congr Iff.rfl rfl ?_) (fun _ => rfl)
  dsimp only
  rw [Refusable.fst_check_bind, refusal?_countedBytes_bind hranged.1]
  exact if_congr Iff.rfl (refusal?_change.trans refusal?_check) rfl

theorem refusal?_writeCoil (bank : Bank Bool) :
    refusal? (writeCoil data bank).1 =
      if data.length = 4 ∧ (secondWord data = 0xFF00 ∨ secondWord data = 0x0000) then
        if addressIn data + 1 ≤ bank.size then none else some .illegalDataAddress
      else some .illegalDataValue := by
  rw [writeCoil, Refusable.fst_check_bind, refusal?_singleWrite_bind, ite_and, ite_or]
  refine if_congr Iff.rfl ?_ rfl
  rw [Refusable.fst_check_bind, refusal?_ofWord_bind]
  exact if_congr Iff.rfl (refusal?_change.trans refusal?_check)
    (if_congr Iff.rfl (refusal?_change.trans refusal?_check) rfl)

theorem refusal?_writeRegister (bank : Bank UInt16) :
    refusal? (writeRegister data bank).1 =
      if data.length = 4 then
        if addressIn data + 1 ≤ bank.size then none else some .illegalDataAddress
      else some .illegalDataValue := by
  rw [writeRegister, Refusable.fst_check_bind, refusal?_singleWrite_bind]
  exact if_congr Iff.rfl (refusal?_change.trans refusal?_check) rfl

end

namespace StandardFunction

theorem refusal?_run (f : StandardFunction) (m : Memory) (data : Bytes) :
    refusal? (f.run data m).1 = f.verdict? m data := by
  cases f with
  | readCoils | readDiscreteInputs => exact refusal?_readRange data 2000 _ _
  | readHoldingRegisters | readInputRegisters => exact refusal?_readRange data 125 _ _
  | writeSingleCoil => exact refusal?_writeCoil data m.coils
  | writeSingleRegister => exact refusal?_writeRegister data m.holdingRegisters
  | writeMultipleCoils => exact refusal?_writeRange data 1968 Bits.byteCount _ Bits.unpack
  | writeMultipleRegisters =>
    exact refusal?_writeRange data 123 (2 * ·) _ fun bytes _ => Word.list bytes

/-- Well-formed data overruns the addresses exactly if its last cell has none. -/
theorem overruns_iff {f : StandardFunction} {data : Bytes} (h : f.WellFormed data) :
    f.Overruns data ↔ 65536 < addressIn data + f.span data := by
  have hsingle : ¬ 65536 < addressIn data + 1 := by
    have := (Word.word data 0).toNat_lt
    simp only [addressIn]
    omega
  cases f with
  | writeSingleCoil | writeSingleRegister => exact iff_of_false id hsingle
  | _ => exact and_iff_right h.1

section

variable {f : StandardFunction} (m : Memory) {data : Bytes}

/-- Well-formed data is judged by its cells alone: each of them has to be in the bank and to have an
address. -/
theorem verdict?_of_wellFormed (h : f.WellFormed data) :
    f.verdict? m data =
      if addressIn data + f.span data ≤ min (m.size f.bank) 65536 then none
      else some .illegalDataAddress := by
  have hoverruns := overruns_iff h
  rw [verdict?, if_pos h]
  by_cases hover : f.Overruns data
  · have hlast := hoverruns.mp hover
    rw [if_pos hover, if_neg (by omega)]
  · have hlast := mt hoverruns.mpr hover
    rw [if_neg hover]
    exact if_congr (by omega) rfl rfl

theorem verdict?_of_malformed (h : ¬ f.WellFormed data) :
    f.verdict? m data =
      if f.Overruns data then some .illegalDataAddress else some .illegalDataValue := by
  rw [verdict?, if_neg h]

theorem verdict?_eq_none :
    f.verdict? m data = none ↔
      f.WellFormed data ∧ addressIn data + f.span data ≤ min (m.size f.bank) 65536 := by
  by_cases hformed : f.WellFormed data
  · rw [verdict?_of_wellFormed m hformed]
    split_ifs with hinside <;> simp [hformed, hinside]
  · rw [verdict?_of_malformed m hformed]
    split_ifs <;> simp [hformed]

end

end StandardFunction

namespace Handler

variable {σ : Type}

theorem refusal?_call (f : StandardFunction) (m : Memory) (request : Frame) :
    refusal? ((standard f : Handler σ).call m request).result = f.verdict? m request.data := by
  rw [← f.refusal?_run]
  rfl

theorem ok_iff (f : StandardFunction) (m : Memory) (request : Frame) :
    (∃ answer, ((standard f : Handler σ).call m request).result = .ok answer) ↔
      f.WellFormed request.data ∧
        addressIn request.data + f.span request.data ≤ min (m.size f.bank) 65536 := by
  rw [← refusal?_eq_none, refusal?_call, StandardFunction.verdict?_eq_none]

/-- The result of a standard function for any memory and any data. Where a range does not overrun
the addresses, malformed data is an illegal value and nothing else is; a range that does, at the
front of malformed data, is an illegal address. Cells without an address count as outside the
bank. -/
theorem result_standard_iff (f : StandardFunction) (m : Memory) (request : Frame) :
    let data := request.data
    let result := ((standard f : Handler σ).call m request).result
    (result = .error .illegalDataValue ↔ ¬ f.WellFormed data ∧ ¬ f.Overruns data) ∧
      (result = .error .illegalDataAddress ↔
        (f.WellFormed data ∧ min (m.size f.bank) 65536 < addressIn data + f.span data) ∨
          (¬ f.WellFormed data ∧ f.Overruns data)) ∧
      ((∃ answer, result = .ok answer) ↔
        f.WellFormed data ∧ addressIn data + f.span data ≤ min (m.size f.bank) 65536) := by
  intro data result
  have hverdict : refusal? result = f.verdict? m data := refusal?_call f m request
  rw [← refusal?_eq_some, ← refusal?_eq_some, hverdict]
  refine and_assoc.mp ⟨?_, ok_iff f m request⟩
  by_cases hformed : f.WellFormed data
  · rw [StandardFunction.verdict?_of_wellFormed m hformed, ← Nat.not_le]
    split_ifs with hinside <;> simp [hformed, hinside]
  · rw [StandardFunction.verdict?_of_malformed m hformed]
    split_ifs with hover <;> simp [hformed, hover]

/-- A read with a byte too many is no illegal value if its range overruns the addresses. -/
theorem overlong_read_illegalAddress :
    let m : Memory := .ofCapacity .full
    let request : Frame := ⟨.mbap 0, ⟨1⟩, 0x03, [0xFF, 0xFF, 0x00, 0x02, 0x00]⟩
    ¬ StandardFunction.readHoldingRegisters.WellFormed request.data ∧
      ((standard .readHoldingRegisters : Handler Unit).call m request).result =
        .error .illegalDataAddress := by
  intro m request
  exact ⟨by decide, rfl⟩

end Handler

end ModbusSlave
