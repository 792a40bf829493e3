import ModbusSlave.Proofs.Service.Writes

/-!
# Writes of many cells and their parts

A request to write a range of cells does what requests for its single cells do, one for each, in
whatever order they come. Such a request is refused as a whole if one of its cells does not exist.
What is left of an unfinished series of parts is told by the parts that are done.
-/
namespace ModbusSlave

/-- The two kinds of cells that requests may write. -/
inductive Writable
  | coil
  | register
deriving DecidableEq, Repr

namespace Writable

def many : Writable → StandardFunction
  | coil => .writeMultipleCoils
  | register => .writeMultipleRegisters

def one : Writable → StandardFunction
  | coil => .writeSingleCoil
  | register => .writeSingleRegister

/-- The word by which a request for one cell asks for the value that `data` has `k` places behind
the first. -/
def wordAt (kind : Writable) (data : Bytes) (k : Nat) : UInt16 :=
  match kind with
  | coil => if Bits.bit (data.drop 5) k then 0xFF00 else 0x0000
  | register => Word.word (data.drop 5) k

/-- The data of the request for that cell alone. -/
def part (kind : Writable) (data : Bytes) (k : Nat) : Bytes :=
  Word.big (UInt16.ofNat (addressIn data + k)) ++ Word.big (kind.wordAt data k)

variable (kind : Writable)

theorem one_mem_writers : kind.one ∈ StandardFunction.writers := by
  cases kind <;> simp [one, StandardFunction.writers]

theorem many_mem_writers : kind.many ∈ StandardFunction.writers := by
  cases kind <;> simp [many, StandardFunction.writers]

@[simp] theorem bank_one : kind.one.bank = kind.many.bank := by
  cases kind <;> rfl

@[simp] theorem span_one (data : Bytes) : kind.one.span data = 1 := by
  cases kind <;> rfl

@[simp] theorem span_many (data : Bytes) : kind.many.span data = countIn data := by
  cases kind <;> rfl

theorem wellFormed_part (data : Bytes) (k : Nat) : kind.one.WellFormed (kind.part data k) := by
  cases kind with
  | coil =>
    refine ⟨rfl, ?_⟩
    rw [part, secondWord_big, wordAt]
    split <;> simp
  | register => rfl

theorem addressIn_part {data : Bytes} {k : Nat} (h : addressIn data + k < 65536) :
    addressIn (kind.part data k) = addressIn data + k := by
  rw [part, addressIn_big, UInt16.toNat_ofNat']
  omega

theorem coilIn_part {kind : Writable} (h : kind.many.bank = .coils) (data : Bytes) (j k : Nat) :
    coilIn kind.one (kind.part data k) j = coilIn kind.many data k := by
  cases kind with
  | coil =>
    simp only [coilIn, one, many, part, secondWord_big, wordAt]
    split <;> simp [*]
  | register => cases h

theorem registerIn_part {kind : Writable} (h : kind.many.bank = .holdingRegisters) (data : Bytes)
    (j k : Nat) : registerIn kind.one (kind.part data k) j = registerIn kind.many data k := by
  cases kind with
  | coil => cases h
  | register => simp only [registerIn, one, many, part, secondWord_big, wordAt]

/-- A cell that one of the parts at the places `done` covers. -/
def Done (data : Bytes) (done : List Nat) (bank : BankName) (cell : Nat) : Prop :=
  kind.many.bank = bank ∧ addressIn data ≤ cell ∧ cell - addressIn data ∈ done

instance (data : Bytes) (done : List Nat) (bank : BankName) (cell : Nat) :
    Decidable (kind.Done data done bank cell) :=
  inferInstanceAs (Decidable (_ ∧ _))

variable {kind} {data : Bytes} {done : List Nat} {bank : BankName} {cell : Nat}

theorem covers_many (h : ∀ k, k ∈ done ↔ k < countIn data) :
    kind.many.Covers data bank cell ↔ kind.Done data done bank cell := by
  refine and_congr_right fun _ => ?_
  rw [h, span_many]
  omega

theorem covers_part {k : Nat} (h : addressIn data + k < 65536) :
    kind.one.Covers (kind.part data k) bank cell ↔
      kind.many.bank = bank ∧ cell = addressIn data + k := by
  rw [StandardFunction.Covers, bank_one, span_one, kind.addressIn_part h]
  refine and_congr_right fun _ => ?_
  omega

theorem done_cons {k : Nat} :
    kind.Done data (k :: done) bank cell ↔
      (kind.many.bank = bank ∧ cell = addressIn data + k) ∨ kind.Done data done bank cell := by
  rw [Done, Done, ← and_or_left, List.mem_cons]
  refine and_congr_right fun _ => ?_
  by_cases hcell : cell - addressIn data ∈ done
  · simp only [hcell, or_true, and_true]
    omega
  · simp only [hcell, or_false, and_false]
    omega

end Writable

/-- The memory behind the parts of a request at the places `done`. -/
structure WritesParts (kind : Writable) (data : Bytes) (done : List Nat) (m after : Memory) :
    Prop where
  capacity : after.capacity = m.capacity
  discreteInputs : after.discreteInputs = m.discreteInputs
  inputRegisters : after.inputRegisters = m.inputRegisters
  coils : ∀ cell, after.coils[cell]? =
    if kind.Done data done .coils cell then
      some (coilIn kind.many data (cell - addressIn data))
    else m.coils[cell]?
  holdingRegisters : ∀ cell, after.holdingRegisters[cell]? =
    if kind.Done data done .holdingRegisters cell then
      some (registerIn kind.many data (cell - addressIn data))
    else m.holdingRegisters[cell]?

section

variable {kind : Writable} {data : Bytes} {done others : List Nat} {m mid after : Memory}

theorem writesParts_nil : WritesParts kind data [] m m := by
  constructor <;> simp [Writable.Done]

theorem writesParts_of_writes (h : Writes kind.many data m after)
    (hdone : ∀ k, k ∈ done ↔ k < countIn data) : WritesParts kind data done m after where
  capacity := h.capacity
  discreteInputs := h.discreteInputs
  inputRegisters := h.inputRegisters
  coils cell := (h.coils cell).trans (if_congr (Writable.covers_many hdone) rfl rfl)
  holdingRegisters cell :=
    (h.holdingRegisters cell).trans (if_congr (Writable.covers_many hdone) rfl rfl)

theorem WritesParts.write (h : WritesParts kind data done m mid) {k : Nat}
    (hk : addressIn data + k < 65536) (hwrites : Writes kind.one (kind.part data k) mid after) :
    WritesParts kind data (k :: done) m after := by
  refine ⟨hwrites.capacity.trans h.capacity, hwrites.discreteInputs.trans h.discreteInputs,
    hwrites.inputRegisters.trans h.inputRegisters, ?_, ?_⟩
  · intro cell
    rw [hwrites.coils, h.coils]
    simp only [Writable.covers_part hk, Writable.done_cons]
    by_cases hcell : kind.many.bank = .coils ∧ cell = addressIn data + k
    · obtain ⟨hbank, rfl⟩ := hcell
      simp [hbank, Writable.coilIn_part hbank]
    · simp [hcell]
  · intro cell
    rw [hwrites.holdingRegisters, h.holdingRegisters]
    simp only [Writable.covers_part hk, Writable.done_cons]
    by_cases hcell : kind.many.bank = .holdingRegisters ∧ cell = addressIn data + k
    · obtain ⟨hbank, rfl⟩ := hcell
      simp [hbank, Writable.registerIn_part hbank]
    · simp [hcell]

/-- Which parts are done tells the memory; their order and their number do not matter. -/
theorem WritesParts.unique {a b : Memory} (ha : WritesParts kind data done m a)
    (hb : WritesParts kind data others m b) (h : ∀ k, k ∈ done ↔ k ∈ others) : a = b := by
  have hsame : ∀ bank cell, kind.Done data done bank cell ↔ kind.Done data others bank cell := by
    intro bank cell
    simp only [Writable.Done, h]
  have hcoils : a.coils = b.coils := by
    apply Array.ext_getElem?
    intro cell
    rw [ha.coils, hb.coils]
    exact if_congr (hsame _ cell) rfl rfl
  have hregisters : a.holdingRegisters = b.holdingRegisters := by
    apply Array.ext_getElem?
    intro cell
    rw [ha.holdingRegisters, hb.holdingRegisters]
    exact if_congr (hsame _ cell) rfl rfl
  have hinputs := ha.discreteInputs.trans hb.discreteInputs.symm
  have hwords := ha.inputRegisters.trans hb.inputRegisters.symm
  cases a
  cases b
  simp_all

end

theorem Memory.size_eq_of_capacity {m after : Memory} (h : after.capacity = m.capacity)
    (bank : BankName) : after.size bank = m.size bank := by
  simp only [capacity, BankCapacity.mk.injEq] at h
  obtain ⟨hinputs, hcoils, hregisters, hwords⟩ := h
  cases bank <;> assumption

namespace Service

variable {σ : Type}

section

variable (unit : UnitId) {m : Memory} (request : Frame) {f : StandardFunction}

theorem respond_of_verdict_none (hf : request.function = f.code)
    (h : f.verdict? m request.data = none) (link : Nat) :
    ∃ after answer, f.run request.data m = (.ok answer, after) ∧
      (standard unit m : Service σ).respond request =
        (standard unit after, request.withData answer, []) ∧
      Transaction.accepted ⟨link, request, request.withData answer⟩ = true := by
  rw [← f.refusal?_run] at h
  obtain ⟨answer, hanswer⟩ := refusal?_eq_none.mp h
  have hrun : f.run request.data m = (.ok answer, (f.run request.data m).2) :=
    Prod.ext hanswer rfl
  have hcode : StandardFunction.ofCode? request.function = some f := by
    rw [hf, StandardFunction.ofCode?_code]
  refine ⟨_, answer, hrun, respond_of_ok unit hcode hrun, ?_⟩
  rw [Transaction.accepted, beq_iff_eq, Frame.withData, hf]
  exact code_and_mark f

theorem respond_of_verdict_some (hf : request.function = f.code) {e : ExceptionCode}
    (h : f.verdict? m request.data = some e) (link : Nat) :
    (standard unit m : Service σ).respond request =
        (standard unit m, request.withException e, []) ∧
      Transaction.accepted ⟨link, request, request.withException e⟩ = false := by
  rw [← f.refusal?_run, refusal?_eq_some] at h
  have hcode : StandardFunction.ofCode? request.function = some f := by
    rw [hf, StandardFunction.ofCode?_code]
  refine ⟨respond_of_error unit hcode h, ?_⟩
  rw [Transaction.accepted, beq_eq_false_iff_ne, Frame.withException, hf]
  exact code_or_mark f

end

variable (level : DecodeLevel) (link : Nat) (framing : Framing) (unit : UnitId)

/-- Parts whose cells exist are accepted one after the other, and each is done behind itself. -/
theorem exchanges_parts {kind : Writable} {data : Bytes} {m mid : Memory} {order done : List Nat}
    (h : WritesParts kind data done m mid)
    (hinside : ∀ k ∈ order, addressIn data + k < min (m.size kind.many.bank) 65536) :
    ∃ after transactions, (standard unit mid : Service σ).exchanges level
        (order.map fun k => (link, ⟨framing, unit, kind.one.code, kind.part data k⟩)) =
        (standard unit after, transactions) ∧
      WritesParts kind data (order.reverse ++ done) m after ∧
      transactions.all (·.accepted) = true ∧
      transactions.map (·.request.data) = order.map (kind.part data) := by
  induction order generalizing mid done with
  | nil => exact ⟨mid, [], rfl, h, rfl, rfl⟩
  | cons k order ih =>
    have hk := hinside k List.mem_cons_self
    have haddress : addressIn data + k < 65536 := by omega
    let request : Frame := ⟨framing, unit, kind.one.code, kind.part data k⟩
    have hverdict : kind.one.verdict? mid request.data = none := by
      rw [StandardFunction.verdict?_eq_none]
      refine ⟨kind.wellFormed_part data k, ?_⟩
      rw [kind.addressIn_part haddress, Memory.size_eq_of_capacity h.capacity]
      simp only [Writable.span_one, Writable.bank_one]
      omega
    obtain ⟨after, answer, hrun, hrespond, haccepted⟩ :=
      respond_of_verdict_none (σ := σ) unit request rfl hverdict link
    have hwrites := h.write haddress (writes_of_run kind.one_mem_writers hrun)
    obtain ⟨final, transactions, hexchanges, hfinal, hall, hdatas⟩ :=
      ih hwrites fun j hj => hinside j (List.mem_cons_of_mem k hj)
    refine ⟨final, ⟨link, request, request.withData answer⟩ :: transactions, ?_, ?_, ?_, ?_⟩
    · rw [List.map_cons, exchanges_own level link _ rfl hrespond, hexchanges]
    · simpa using hfinal
    · simp [haccepted, hall]
    · simp [hdatas, request]

theorem exchanges_parts_of_run {kind : Writable} {data answer : Bytes} {m after : Memory}
    (hverdict : kind.many.verdict? m data = none)
    (hrun : kind.many.run data m = (.ok answer, after)) {order : List Nat}
    (horder : ∀ k, k ∈ order ↔ k < countIn data) :
    ∃ transactions, (standard unit m : Service σ).exchanges level
        (order.map fun k => (link, ⟨framing, unit, kind.one.code, kind.part data k⟩)) =
        (standard unit after, transactions) ∧
      transactions.all (·.accepted) = true ∧
      transactions.map (·.request.data) = order.map (kind.part data) := by
  obtain ⟨-, hinside⟩ := (StandardFunction.verdict?_eq_none m).mp hverdict
  simp only [Writable.span_many] at hinside
  have hcells : ∀ k ∈ order, addressIn data + k < min (m.size kind.many.bank) 65536 := by
    intro k hk
    have := (horder k).mp hk
    omega
  have hstart : WritesParts kind data [] m m := writesParts_nil
  obtain ⟨final, transactions, hexchanges, hfinal, hall, hdatas⟩ :=
    exchanges_parts (σ := σ) level link framing unit hstart hcells
  have hmany := writesParts_of_writes (writes_of_run kind.many_mem_writers hrun) horder
  obtain rfl : final = after := hfinal.unique hmany fun k => by simp
  exact ⟨transactions, hexchanges, hall, hdatas⟩

/-- A request to write a range does what requests for its cells do, however these are ordered and
however often each is made, and then each of them is accepted. One that is well formed is refused
exactly if one of its cells is outside the bank or has no address, and changes nothing then. -/
theorem range_write_eq_parts (m : Memory) (kind : Writable) (data : Bytes) :
    let s : Service σ := standard unit m
    let whole := s.exchanges level [(link, ⟨framing, unit, kind.many.code, data⟩)]
    let parts (order : List Nat) := s.exchanges level
      (order.map fun k => (link, ⟨framing, unit, kind.one.code, kind.part data k⟩))
    let accepted (transactions : List Transaction) : Bool := transactions.all (·.accepted)
    (accepted whole.2 = true → ∀ order : List Nat, (∀ k, k ∈ order ↔ k < countIn data) →
      (parts order).1 = whole.1 ∧ accepted (parts order).2 = true ∧
        (parts order).2.map (·.request.data) = order.map (kind.part data)) ∧
    (kind.many.WellFormed data → (accepted whole.2 = false ↔ ∃ k < countIn data,
      m.size kind.many.bank ≤ addressIn data + k ∨ 65536 ≤ addressIn data + k)) ∧
    (accepted whole.2 = false → whole.1 = s) := by
  intro s whole parts accepted
  let request : Frame := ⟨framing, unit, kind.many.code, data⟩
  cases hverdict : kind.many.verdict? m data with
  | none =>
    obtain ⟨after, answer, hrun, hrespond, haccepted⟩ :=
      respond_of_verdict_none (σ := σ) unit request rfl hverdict link
    have hwhole : whole = (standard unit after, [⟨link, request, request.withData answer⟩]) :=
      exchanges_own level link [] rfl hrespond
    have hyes : accepted whole.2 = true := by
      simp [accepted, hwhole, haccepted]
    obtain ⟨-, hinside⟩ := (StandardFunction.verdict?_eq_none m).mp hverdict
    simp only [Writable.span_many] at hinside
    refine ⟨?_, ?_, ?_⟩
    · intro _ order horder
      obtain ⟨transactions, hparts, hall, hdatas⟩ :=
        exchanges_parts_of_run (σ := σ) level link framing unit hverdict hrun horder
      have hparts : parts order = (standard unit after, transactions) := hparts
      rw [hparts, hwhole]
      exact ⟨rfl, hall, hdatas⟩
    · intro _
      simp only [hyes, Bool.true_eq_false, false_iff, not_exists, not_and]
      intro k hk
      omega
    · simp [hyes]
  | some e =>
    obtain ⟨hrespond, hrefused⟩ :=
      respond_of_verdict_some (σ := σ) unit request rfl hverdict link
    have hwhole : whole = (s, [⟨link, request, request.withException e⟩]) :=
      exchanges_own level link [] rfl hrespond
    have hno : accepted whole.2 = false := by
      simp [accepted, hwhole, hrefused]
    refine ⟨?_, ?_, ?_⟩
    · simp [hno]
    · intro hformed
      rw [StandardFunction.verdict?_of_wellFormed m hformed] at hverdict
      split_ifs at hverdict with hinside
      simp only [Writable.span_many] at hinside
      have hcount : 1 ≤ countIn data := by
        cases kind <;> exact hformed.1.2.1
      exact iff_of_true hno ⟨countIn data - 1, by omega, by omega⟩
    · intro _
      rw [hwhole]

/-- Three coils from the second on, as requests for each of them. -/
example :
    (List.range 3).map (Writable.coil.part [0, 1, 0, 3, 1, 0xFD]) =
      [[0, 1, 0xFF, 0], [0, 2, 0, 0], [0, 3, 0xFF, 0]] := by
  decide

end Service

end ModbusSlave
