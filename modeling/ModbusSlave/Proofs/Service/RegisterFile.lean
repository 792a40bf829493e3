import ModbusSlave.Proofs.Service.Cells
import ModbusSlave.Proofs.Service.Sequential

/-!
# The memory as a register file

A service with the standard functions, seen through its requests and responses alone: what a read
returns is what the latest accepted write has put there, and what was there before if no write has
come. The cells are told by position, so that overlapping ranges of any kind need no cases.
-/
namespace ModbusSlave

structure Cells where
  coil? : Nat → Option Bool
  discreteInput? : Nat → Option Bool
  holdingRegister? : Nat → Option UInt16
  inputRegister? : Nat → Option UInt16

def Memory.cells (m : Memory) : Cells where
  coil? := (m.coils[·]?)
  discreteInput? := (m.discreteInputs[·]?)
  holdingRegister? := (m.holdingRegisters[·]?)
  inputRegister? := (m.inputRegisters[·]?)

namespace Cells

/-- The data of a response carries the cells that the data of its request asks for. -/
def Carries (c : Cells) (f : StandardFunction) (asked answer : Bytes) : Prop :=
  match f with
  | .readCoils => CarriesBits c.coil? asked answer
  | .readDiscreteInputs => CarriesBits c.discreteInput? asked answer
  | .readHoldingRegisters => CarriesWords c.holdingRegister? asked answer
  | .readInputRegisters => CarriesWords c.inputRegister? asked answer
  | .writeSingleCoil | .writeSingleRegister | .writeMultipleCoils | .writeMultipleRegisters => True

def write (c : Cells) (f : StandardFunction) (data : Bytes) : Cells :=
  { c with
    coil? := fun cell => ((coilPatch? f data).bind (·.at? cell)).or (c.coil? cell)
    holdingRegister? := fun cell =>
      ((registerPatch? f data).bind (·.at? cell)).or (c.holdingRegister? cell) }

end Cells

/-- What an accepted request leaves behind. -/
structure Accepts (f : StandardFunction) (m after : Memory) (data answer : Bytes) : Prop where
  cells : after.cells = m.cells.write f data
  capacity : after.capacity = m.capacity
  carries : m.cells.Carries f data answer
  length : answer.length < Frame.maxPdu

theorem patched_none {α : Type} (bank : Bank α) : bank.Patched bank none :=
  ⟨rfl, fun _ => rfl⟩

theorem accepts_of_patched {f : StandardFunction} {m after : Memory} {data answer : Bytes}
    (hcoils : m.coils.Patched after.coils (coilPatch? f data))
    (hregisters : m.holdingRegisters.Patched after.holdingRegisters (registerPatch? f data))
    (hinputs : after.discreteInputs = m.discreteInputs)
    (hwords : after.inputRegisters = m.inputRegisters)
    (hcarries : m.cells.Carries f data answer) (hlength : answer.length < Frame.maxPdu) :
    Accepts f m after data answer := by
  refine ⟨?_, ?_, hcarries, hlength⟩
  · rw [Memory.cells, Memory.cells, Cells.write, hinputs, hwords, Cells.mk.injEq]
    exact ⟨funext hcoils.2, rfl, funext hregisters.2, rfl⟩
  · rw [Memory.capacity, Memory.capacity, hinputs, hwords, hcoils.1, hregisters.1]

theorem length_of_carriesBits {cell? : Nat → Option Bool} {asked answer : Bytes}
    (h : CarriesBits cell? asked answer) : answer.length < Frame.maxPdu := by
  obtain ⟨start, count, bytes, -, -, rfl, -, hbytes, -⟩ := h
  exact Nat.lt_of_le_of_lt (Nat.succ_le_succ hbytes) (by decide)

theorem length_of_carriesWords {cell? : Nat → Option UInt16} {asked answer : Bytes}
    (h : CarriesWords cell? asked answer) : answer.length < Frame.maxPdu := by
  obtain ⟨start, count, bytes, -, -, rfl, -, hbytes, -⟩ := h
  exact Nat.lt_of_le_of_lt (Nat.succ_le_succ hbytes) (by decide)

theorem length_of_echo {answer : Bytes} (h : answer.length = 4) : answer.length < Frame.maxPdu := by
  rw [h]
  decide

/-- A standard function that succeeds has done what its request asks for, and nothing else. -/
theorem accepts_of_run {f : StandardFunction} {m after : Memory} {data answer : Bytes}
    (h : f.run data m = (.ok answer, after)) : Accepts f m after data answer := by
  have hbits := fun bank : Bank Bool => patched_none bank
  have hwords := fun bank : Bank UInt16 => patched_none bank
  cases f with
  | readCoils | readDiscreteInputs =>
    obtain ⟨hread, rfl⟩ := Prod.mk.inj h
    have hcarries := readBits_eq_ok hread
    exact accepts_of_patched (hbits _) (hwords _) rfl rfl hcarries (length_of_carriesBits hcarries)
  | readHoldingRegisters | readInputRegisters =>
    obtain ⟨hread, rfl⟩ := Prod.mk.inj h
    have hcarries := readRegisters_eq_ok hread
    exact accepts_of_patched (hbits _) (hwords _) rfl rfl hcarries (length_of_carriesWords hcarries)
  | writeSingleCoil =>
    obtain ⟨_, hwrite, rfl⟩ := onCoils_eq_ok h
    obtain ⟨hpatched, hlength⟩ := writeCoil_eq_ok hwrite
    exact accepts_of_patched hpatched (hwords _) rfl rfl trivial (length_of_echo hlength)
  | writeMultipleCoils =>
    obtain ⟨_, hwrite, rfl⟩ := onCoils_eq_ok h
    obtain ⟨hpatched, hlength⟩ := writeCoils_eq_ok hwrite
    exact accepts_of_patched hpatched (hwords _) rfl rfl trivial (length_of_echo hlength)
  | writeSingleRegister =>
    obtain ⟨_, hwrite, rfl⟩ := onHoldingRegisters_eq_ok h
    obtain ⟨hpatched, hlength⟩ := writeRegister_eq_ok hwrite
    exact accepts_of_patched (hbits _) hpatched rfl rfl trivial (length_of_echo hlength)
  | writeMultipleRegisters =>
    obtain ⟨_, hwrite, rfl⟩ := onHoldingRegisters_eq_ok h
    obtain ⟨hpatched, hlength⟩ := writeRegisters_eq_ok hwrite
    exact accepts_of_patched (hbits _) hpatched rfl rfl trivial (length_of_echo hlength)

namespace DispatchTable

variable {σ : Type}

theorem get?_standard (code : UInt8) :
    (standard : DispatchTable σ).get? code =
      (StandardFunction.ofCode? code).map Handler.standard := by
  cases hf : StandardFunction.ofCode? code with
  | some f =>
    obtain rfl := StandardFunction.code_of_ofCode? hf
    cases f <;> simp [standard, StandardFunction.all, register, get?_set, StandardFunction.code]
  | none =>
    have hne : ∀ f : StandardFunction, f.code ≠ code := by
      intro f hcode
      rw [← hcode, StandardFunction.ofCode?_code] at hf
      cases hf
    have hempty : (empty : DispatchTable σ).get? code = none := by simp [empty, get?]
    simp [standard, StandardFunction.all, register, get?_set, hne, hempty]

theorem register_standard (f : StandardFunction) :
    (standard : DispatchTable σ).register f.code (.standard f) = standard := by
  apply ext_get?
  rw [get?_register, Function.update_eq_self_iff, get?_standard, StandardFunction.ofCode?_code,
    Option.map_some]

end DispatchTable

namespace Transaction

def accepted (t : Transaction) : Bool := t.response.function &&& exceptionMark == 0

/-- The value that a request has put into a cell: a rejected request is no write. -/
def wrote? {α : Type} (patch? : StandardFunction → Bytes → Option (Patch α)) (cell : Nat)
    (t : Transaction) : Option α :=
  if t.accepted then
    (StandardFunction.ofCode? t.request.function).bind fun f =>
      (patch? f t.request.data).bind (·.at? cell)
  else none

/-- The latest of the values that requests have put into a cell, the oldest request first. -/
def latest? {α : Type} (patch? : StandardFunction → Bytes → Option (Patch α))
    (ts : List Transaction) (cell : Nat) : Option α :=
  ts.reverse.findSome? (wrote? patch? cell)

theorem latest?_append {α : Type} (patch? : StandardFunction → Bytes → Option (Patch α))
    (ts us : List Transaction) (cell : Nat) :
    latest? patch? (ts ++ us) cell = (latest? patch? us cell).or (latest? patch? ts cell) := by
  rw [latest?, List.reverse_append, List.findSome?_append, latest?, latest?]

end Transaction

namespace Cells

/-- The cells behind some transactions: those that can be written hold the latest value. -/
def behind (c : Cells) (ts : List Transaction) : Cells :=
  { c with
    coil? := fun cell => (Transaction.latest? coilPatch? ts cell).or (c.coil? cell)
    holdingRegister? := fun cell =>
      (Transaction.latest? registerPatch? ts cell).or (c.holdingRegister? cell) }

theorem behind_append (c : Cells) (ts us : List Transaction) :
    c.behind (ts ++ us) = (c.behind ts).behind us := by
  simp only [behind, Transaction.latest?_append, Option.or_assoc]

theorem behind_accepted (c : Cells) {t : Transaction} {f : StandardFunction}
    (haccepted : t.accepted = true) (hf : StandardFunction.ofCode? t.request.function = some f) :
    c.behind [t] = c.write f t.request.data := by
  simp [behind, write, Transaction.latest?, Transaction.wrote?, haccepted, hf]

theorem behind_rejected (c : Cells) {t : Transaction} (h : t.accepted = false) :
    c.behind [t] = c := by
  simp [behind, Transaction.latest?, Transaction.wrote?, h, List.findSome?]

theorem behind_foreign (c : Cells) {t : Transaction}
    (h : StandardFunction.ofCode? t.request.function = none) : c.behind [t] = c := by
  simp [behind, Transaction.latest?, Transaction.wrote?, h, List.findSome?]

end Cells

namespace Service

variable {σ : Type}

/-- Requests handled one after the other, and the transactions they make. -/
def exchanges (s : Service σ) (level : DecodeLevel) :
    List (Nat × Frame) → Service σ × List Transaction
  | [] => (s, [])
  | (link, request) :: rest =>
    let (after, effect, _) := s.handle level (.request link request : Message σ Unit)
    let (final, transactions) := after.exchanges level rest
    (final, effect.responses.map (fun (link, response) => ⟨link, request, response⟩) ++
      transactions)

def standard (unit : UnitId) (m : Memory) : Service σ := ⟨unit, m, .standard⟩

section

variable (unit : UnitId) {m after : Memory} {request : Frame} {f : StandardFunction}

theorem respond_of_none (h : StandardFunction.ofCode? request.function = none) :
    (standard unit m : Service σ).respond request =
      (standard unit m, request.withException .illegalFunction, []) := by
  have hslot := DispatchTable.get?_standard (σ := σ) request.function
  rw [h, Option.map_none] at hslot
  simp only [respond, standard, DispatchTable.serve, DispatchTable.call?, hslot, Option.map_none,
    Frame.answer]

theorem respond_of_error {e : ExceptionCode}
    (hf : StandardFunction.ofCode? request.function = some f)
    (h : (f.run request.data m).1 = .error e) :
    (standard unit m : Service σ).respond request =
      (standard unit m, request.withException e, []) := by
  have hrun : f.run request.data m = (.error e, m) :=
    Prod.ext h (f.atomic_run request.data m e h)
  have hslot := DispatchTable.get?_standard (σ := σ) request.function
  rw [hf, Option.map_some] at hslot
  have hsame := DispatchTable.register_standard (σ := σ) f
  rw [StandardFunction.code_of_ofCode? hf] at hsame
  simp only [respond, standard, DispatchTable.serve, DispatchTable.call?, hslot, Option.map_some,
    Handler.call, hrun, hsame, Frame.answer]

theorem respond_of_ok {data : Bytes} (hf : StandardFunction.ofCode? request.function = some f)
    (h : f.run request.data m = (.ok data, after)) :
    (standard unit m : Service σ).respond request =
      (standard unit after, request.withData data, []) := by
  have hslot := DispatchTable.get?_standard (σ := σ) request.function
  rw [hf, Option.map_some] at hslot
  have hsame := DispatchTable.register_standard (σ := σ) f
  rw [StandardFunction.code_of_ofCode? hf] at hsame
  have hfits : ¬ Frame.maxPdu ≤ data.length := Nat.not_le.mpr (accepts_of_run h).length
  simp only [respond, standard, DispatchTable.serve, DispatchTable.call?, hslot, Option.map_some,
    Handler.call, h, hsame, if_neg hfits, Frame.answer]

end

theorem code_and_mark (f : StandardFunction) : f.code &&& exceptionMark = 0 := by
  cases f <;> decide

theorem code_or_mark (f : StandardFunction) :
    (f.code ||| exceptionMark) &&& exceptionMark ≠ 0 := by
  cases f <;> decide

/-- One request: the memory holds what the transaction says, and the response tells what the memory
has held before. -/
theorem respond_standard (unit : UnitId) (m : Memory) (link : Nat) (request : Frame) :
    ∃ after response, (standard unit m : Service σ).respond request =
        (standard unit after, response, []) ∧
      after.capacity = m.capacity ∧
      after.cells = m.cells.behind [⟨link, request, response⟩] ∧
      (Transaction.accepted ⟨link, request, response⟩ = true → ∀ f,
        StandardFunction.ofCode? request.function = some f →
          m.cells.Carries f request.data response.data) := by
  cases hf : StandardFunction.ofCode? request.function with
  | none =>
    refine ⟨m, _, respond_of_none unit hf, rfl, (m.cells.behind_foreign hf).symm, ?_⟩
    intro _ f hsome
    cases hsome
  | some f =>
    have hcode := StandardFunction.code_of_ofCode? hf
    cases hresult : (f.run request.data m).1 with
    | error e =>
      have hrejected : Transaction.accepted ⟨link, request, request.withException e⟩ = false := by
        apply beq_false_of_ne
        rw [Frame.withException, ← hcode]
        exact code_or_mark f
      refine ⟨m, _, respond_of_error unit hf hresult, rfl, (m.cells.behind_rejected hrejected).symm,
        ?_⟩
      intro haccepted
      rw [hrejected] at haccepted
      cases haccepted
    | ok data =>
      have hrun : f.run request.data m = (.ok data, (f.run request.data m).2) :=
        Prod.ext hresult rfl
      have haccepts := accepts_of_run hrun
      have haccepted : Transaction.accepted ⟨link, request, request.withData data⟩ = true := by
        apply beq_iff_eq.mpr
        rw [Frame.withData, ← hcode]
        exact code_and_mark f
      refine ⟨_, _, respond_of_ok unit hf hrun, haccepts.capacity, ?_, ?_⟩
      · rw [Cells.behind_accepted m.cells haccepted hf]
        exact haccepts.cells
      · intro _ g hg
        obtain rfl := Option.some.inj hg
        exact haccepts.carries

variable (level : DecodeLevel)

theorem exchanges_own {s after : Service σ} {request response : Frame} {events : List Event}
    (link : Nat) (rest : List (Nat × Frame)) (hunit : request.unit = s.unit)
    (h : s.respond request = (after, response, events)) :
    s.exchanges level ((link, request) :: rest) =
      ((after.exchanges level rest).1,
        ⟨link, request, response⟩ :: (after.exchanges level rest).2) := by
  simp only [exchanges, handle, if_pos hunit, h, Effect.responses]
  rfl

theorem exchanges_foreign {s : Service σ} {request : Frame} (link : Nat)
    (rest : List (Nat × Frame)) (hunit : request.unit ≠ s.unit) :
    s.exchanges level ((link, request) :: rest) = s.exchanges level rest := by
  simp only [exchanges, handle, if_neg hunit, Effect.responses]
  rfl

/-- Whatever the requests are, an accepted read returns for each of its cells the value of the
latest accepted write to it, or the initial value; the memory behind the requests is the same seen
at once, and has the same capacity. -/
theorem exchanges_registerFile (unit : UnitId) (m : Memory) (requests : List (Nat × Frame)) :
    let s : Service σ := standard unit m
    (s.exchanges level requests).1.memory.capacity = m.capacity ∧
      (s.exchanges level requests).1.memory.cells =
        m.cells.behind (s.exchanges level requests).2 ∧
      ∀ earlier t later, (s.exchanges level requests).2 = earlier ++ t :: later →
        t.accepted = true → ∀ f, StandardFunction.ofCode? t.request.function = some f →
          (m.cells.behind earlier).Carries f t.request.data t.response.data := by
  dsimp only
  induction requests generalizing m with
  | nil =>
    refine ⟨rfl, rfl, ?_⟩
    intro earlier t later hsplit
    cases earlier <;> cases hsplit
  | cons asked rest ih =>
    obtain ⟨link, request⟩ := asked
    by_cases hunit : request.unit = unit
    · obtain ⟨after, response, hrespond, hcapacity, hcells, hcarries⟩ :=
        respond_standard (σ := σ) unit m link request
      rw [exchanges_own level link rest hunit hrespond]
      obtain ⟨ihcapacity, ihcells, ihcarries⟩ := ih after
      refine ⟨ihcapacity.trans hcapacity, ?_, ?_⟩
      · rw [ihcells, hcells, ← Cells.behind_append]
        rfl
      · intro earlier t later hsplit haccepted f hf
        cases earlier with
        | nil =>
          obtain ⟨rfl, -⟩ := List.cons.inj hsplit
          exact hcarries haccepted f hf
        | cons t₀ earlier =>
          obtain ⟨rfl, hrest⟩ := List.cons.inj hsplit
          have hlater := ihcarries earlier t later hrest haccepted f hf
          rw [hcells, ← Cells.behind_append] at hlater
          exact hlater
    · rw [exchanges_foreign level link rest hunit]
      exact ih m

/-- Ten coils from the third on, one of them set again, a value that is none, and a read that
covers them all. -/
def overlapping : List (Nat × Frame) :=
  [(0, ⟨.mbap 1, ⟨1⟩, 0x0F, [0, 2, 0, 10, 2, 0xCD, 1]⟩), (1, ⟨.mbap 1, ⟨1⟩, 0x05, [0, 3, 0xFF, 0]⟩),
    (0, ⟨.mbap 2, ⟨1⟩, 0x05, [0, 4, 0, 1]⟩), (1, ⟨.mbap 2, ⟨1⟩, 0x01, [0, 0, 0, 13]⟩)]

/-- The coils that the read returns are those of the first two writes. -/
theorem exchanges_registerFile_overlapping :
    let m : Memory := .ofCapacity (.uniform 16)
    let done := ((standard ⟨1⟩ m : Service Unit).exchanges .nothing overlapping).2
    done.map (·.accepted) = [true, true, false, true] ∧
      (m.cells.behind (done.take 3)).Carries .readCoils [0, 0, 0, 13] [2, 0x3C, 0x07] := by
  intro m done
  have hsplit : done = done.take 3 ++ ⟨1, ⟨.mbap 2, ⟨1⟩, 0x01, [0, 0, 0, 13]⟩,
      ⟨.mbap 2, ⟨1⟩, 0x01, [2, 0x3C, 0x07]⟩⟩ :: [] := by
    decide +kernel
  obtain ⟨-, -, hreads⟩ :=
    exchanges_registerFile (σ := Unit) .nothing ⟨1⟩ m overlapping
  exact ⟨by decide +kernel, hreads _ _ _ hsplit (by decide) .readCoils rfl⟩

end Service

end ModbusSlave
