import ModbusSlave.Proofs.Service.Writes

/-!
# Reads

Which requests the read functions accept, what the bytes of an answer tell about the cells, and what
an answer depends on. All four functions are one kind of function over a bank; they differ in the
bank, in the number of cells they read at most, and in how a cell is told.
-/
namespace ModbusSlave

/-- Bytes that tell `count` bits, eight to a byte, the first of them in the least significant
place, with zeros behind the last one. -/
structure TellsBits (cell? : Nat → Option Bool) (count : Nat) (bytes : Bytes) : Prop where
  length : bytes.length = (count + 7) / 8
  cells : ∀ j k, k < 8 → 8 * j + k < count →
    cell? (8 * j + k) = some ((bytes.getD j 0).toNat.testBit k)
  clear : ∀ j k, k < 8 → count ≤ 8 * j + k → (bytes.getD j 0).toNat.testBit k = false

/-- Bytes that tell `count` words one after the other, the high byte of each first. -/
structure TellsWords (cell? : Nat → Option UInt16) (count : Nat) (bytes : Bytes) : Prop where
  length : bytes.length = 2 * count
  cells : ∀ k < count,
    cell? k = some (Word.join (bytes.getD (2 * k) 0) (bytes.getD (2 * k + 1) 0))

/-- The answer to a request for cells of a bank: a count of the bytes that follow, and bytes that
tell the cells. -/
def Told {α : Type} (Tells : (Nat → Option α) → Nat → Bytes → Prop) (bank : Bank α)
    (data answer : Bytes) : Prop :=
  answer.length ≤ 251 ∧ ∃ first bytes, answer = first :: bytes ∧ first.toNat = bytes.length ∧
    Tells (fun k => bank[addressIn data + k]?) (countIn data) bytes

/-- A function that reads at most `limit` cells of a bank, as it deals with one request. -/
structure Reads {α : Type} (σ : Type) (f : StandardFunction) (limit : Nat)
    (bank : Memory → Bank α) (Tells : (Nat → Option α) → Nat → Bytes → Prop) (m : Memory)
    (request : Frame) : Prop where
  accepts : (∃ answer, ((Handler.standard f : Handler σ).call m request).result = .ok answer) ↔
    request.data.length = 4 ∧ 1 ≤ countIn request.data ∧ countIn request.data ≤ limit ∧
      addressIn request.data + countIn request.data ≤ min (bank m).size 65536
  answers : ∀ answer, ((Handler.standard f : Handler σ).call m request).result = .ok answer →
    Told Tells (bank m) request.data answer
  memory : ((Handler.standard f : Handler σ).call m request).memory = m
  /-- No answer is too long for a response. -/
  fits : ∀ table : DispatchTable σ, table.get? request.function = some (.standard f) →
    (table.serve m request).1.result = ((Handler.standard f : Handler σ).call m request).result ∧
      (table.serve m request).1.result ≠ .error .serverDeviceFailure ∧
      (table.serve m request).1.memory = m
  /-- Other cells and other banks have no part in the result. -/
  depends : ∀ other : Memory, (∀ k < countIn request.data,
      (bank other)[addressIn request.data + k]? = (bank m)[addressIn request.data + k]?) →
    ((Handler.standard f : Handler σ).call other request).result =
      ((Handler.standard f : Handler σ).call m request).result

/-- The cells of a range come from nowhere else, and whether all of them exist shows in the last
one. -/
theorem Bank.cells_congr {α : Type} {bank other : Bank α} {range : AddressRange}
    (hpos : 0 < range.count.toNat) (h : ∀ k < range.count.toNat,
      other[range.start.toNat + k]? = bank[range.start.toNat + k]?) :
    other.cells range = bank.cells range := by
  have hlast := h (range.count.toNat - 1) (by omega)
  have hstop : range.stop ≤ other.size ↔ range.stop ≤ bank.size := by
    have hnone := congrArg (· = none) hlast
    simp only [Array.getElem?_eq_none_iff, eq_iff_iff] at hnone
    simp only [AddressRange.stop]
    omega
  refine if_ctx_congr hstop (fun hinside => ?_) (fun _ => rfl)
  have hother := hstop.mpr hinside
  congr 2
  apply Array.ext_getElem?
  intro k
  simp only [Array.getElem?_extract, AddressRange.stop] at *
  by_cases hk : k < range.count.toNat
  · rw [if_pos (by omega), if_pos (by omega), h k hk]
  · rw [if_neg (by omega), if_neg (by omega)]

theorem readRange_words {limit : Nat} {data : Bytes} {range : AddressRange}
    (h : readRange limit data = .ok range) :
    range.start.toNat = addressIn data ∧ range.count.toNat = countIn data := by
  rw [(readRange_eq_ok h).1]
  simp [countIn]

section

variable {α : Type} {read : Bank α → Bytes → Except ExceptionCode Bytes} {limit : Nat}
  {answer : List α → Bytes} {bank other : Bank α} {data : Bytes}

theorem read_congr (hread : ∀ bank data, read bank data = do
      let range ← readRange limit data
      let values ← bank.cells range
      return answer values)
    (h : ∀ k < countIn data, other[addressIn data + k]? = bank[addressIn data + k]?) :
    read other data = read bank data := by
  rw [hread, hread]
  cases hrange : readRange limit data with
  | error e => rfl
  | ok range =>
    obtain ⟨hstart, hcount⟩ := readRange_words hrange
    have hpos := (readRange_eq_ok hrange).2.1
    rw [← hstart, ← hcount] at h
    change other.cells range >>= _ = bank.cells range >>= _
    rw [Bank.cells_congr hpos h]

end

theorem Bits.bit_eq (bytes : Bytes) (j : Nat) {k : Nat} (h : k < 8) :
    bit bytes (8 * j + k) = (bytes.getD j 0).toNat.testBit k := by
  rw [bit, Nat.mul_add_div (by decide), Nat.mul_add_mod, Nat.div_eq_of_lt h, Nat.mod_eq_of_lt h,
    Nat.add_zero]

theorem told_of_carriesBits {bank : Bank Bool} {data answer : Bytes}
    (h : CarriesBits (bank[·]?) data answer) : Told TellsBits bank data answer := by
  obtain ⟨start, count, bytes, rfl, -, rfl, hlength, hshort, hcells, hclear⟩ := h
  have hcounted : (UInt8.ofNat bytes.length).toNat = bytes.length := by
    simp only [UInt8.toNat_ofNat']
    omega
  refine ⟨Nat.succ_le_succ hshort, _, bytes, rfl, hcounted, ?_, ?_, ?_⟩
  · simpa [countIn] using hlength
  · intro j k hk hinside
    simpa [Bits.bit_eq bytes j hk] using hcells (8 * j + k) (by simpa [countIn] using hinside)
  · intro j k hk hbehind
    simpa [Bits.bit_eq bytes j hk] using hclear (8 * j + k) (by simpa [countIn] using hbehind)

theorem told_of_carriesWords {bank : Bank UInt16} {data answer : Bytes}
    (h : CarriesWords (bank[·]?) data answer) : Told TellsWords bank data answer := by
  obtain ⟨start, count, bytes, rfl, -, rfl, hlength, hshort, hcells⟩ := h
  have hcounted : (UInt8.ofNat bytes.length).toNat = bytes.length := by
    simp only [UInt8.toNat_ofNat']
    omega
  refine ⟨Nat.succ_le_succ hshort, _, bytes, rfl, hcounted, ?_, ?_⟩
  · simpa [countIn] using hlength
  · intro k hk
    simpa [Word.word] using hcells k (by simpa [countIn] using hk)

theorem StandardFunction.verdict?_ne_serverDeviceFailure (f : StandardFunction) (m : Memory)
    (data : Bytes) : f.verdict? m data ≠ some .serverDeviceFailure := by
  unfold verdict?
  split_ifs <;> simp

namespace Handler

variable {σ : Type} {f : StandardFunction} {m : Memory} {request : Frame}

theorem serve_of_short {table : DispatchTable σ}
    (hslot : table.get? request.function = some (.standard f))
    (hshort : ∀ answer, ((standard f : Handler σ).call m request).result = .ok answer →
      answer.length ≤ 252) :
    (table.serve m request).1.result = ((standard f : Handler σ).call m request).result ∧
      (table.serve m request).1.memory = ((standard f : Handler σ).call m request).memory := by
  simp only [DispatchTable.serve, DispatchTable.call?, hslot, Option.map_some]
  cases hresult : ((standard f : Handler σ).call m request).result with
  | error e => exact ⟨rfl, rfl⟩
  | ok answer =>
    have hfits : ¬ Frame.maxPdu ≤ answer.length := by
      have := hshort answer hresult
      simp only [Frame.maxPdu]
      omega
    simp [if_neg hfits]

theorem reads_of_run {α : Type} {read : Bank α → Bytes → Except ExceptionCode Bytes} {limit : Nat}
    {shown : List α → Bytes} {bank : Memory → Bank α}
    {Tells : (Nat → Option α) → Nat → Bytes → Prop}
    (hrun : ∀ m data, f.run data m = (read (bank m) data, m))
    (hread : ∀ bank data, read bank data = do
      let range ← readRange limit data
      let values ← bank.cells range
      return shown values)
    (htold : ∀ answer, read (bank m) request.data = .ok answer →
      Told Tells (bank m) request.data answer)
    (hok : f.WellFormed request.data ∧
        addressIn request.data + f.span request.data ≤ min (m.size f.bank) 65536 ↔
      (Ranged request.data limit ∧ request.data.length = 4) ∧
        addressIn request.data + countIn request.data ≤ min (bank m).size 65536) :
    Reads σ f limit bank Tells m request := by
  have hmemory : ((standard f : Handler σ).call m request).memory = m := by
    rw [call, hrun]
  have hresult : ∀ m : Memory, ((standard f : Handler σ).call m request).result =
      read (bank m) request.data := by
    intro m
    rw [call, hrun]
  have hanswers : ∀ answer, ((standard f : Handler σ).call m request).result = .ok answer →
      Told Tells (bank m) request.data answer := by
    rwa [hresult]
  refine ⟨?_, hanswers, hmemory, ?_, ?_⟩
  · rw [ok_iff, hok, Ranged]
    omega
  · intro table hslot
    obtain ⟨hserve, hkept⟩ := serve_of_short hslot fun answer hanswer =>
      Nat.le_succ_of_le (hanswers answer hanswer).1
    refine ⟨hserve, ?_, hkept.trans hmemory⟩
    rw [hserve]
    intro hfailure
    apply f.verdict?_ne_serverDeviceFailure m request.data
    rw [← refusal?_call (σ := σ), hfailure]
    rfl
  · intro other hagree
    rw [hresult, hresult]
    exact read_congr hread hagree

/-- Each of the read functions accepts exactly what it should, tells the cells that are asked for,
and leaves the memory as it is; nothing else in the memory has a part in its answer, which always
fits into a response. -/
theorem call_readers (m : Memory) (request : Frame) :
    Reads σ .readCoils 2000 (·.coils) TellsBits m request ∧
      Reads σ .readDiscreteInputs 2000 (·.discreteInputs) TellsBits m request ∧
      Reads σ .readHoldingRegisters 125 (·.holdingRegisters) TellsWords m request ∧
      Reads σ .readInputRegisters 125 (·.inputRegisters) TellsWords m request := by
  have hbits : ∀ bank : Bank Bool, ∀ answer, readBits bank request.data = .ok answer →
      Told TellsBits bank request.data answer :=
    fun bank answer h => told_of_carriesBits (readBits_eq_ok h)
  have hwords : ∀ bank : Bank UInt16, ∀ answer, readRegisters bank request.data = .ok answer →
      Told TellsWords bank request.data answer :=
    fun bank answer h => told_of_carriesWords (readRegisters_eq_ok h)
  refine ⟨?_, ?_, ?_, ?_⟩
  · exact reads_of_run (fun _ _ => rfl) (fun _ _ => rfl) (hbits m.coils) Iff.rfl
  · exact reads_of_run (fun _ _ => rfl) (fun _ _ => rfl) (hbits m.discreteInputs) Iff.rfl
  · exact reads_of_run (fun _ _ => rfl) (fun _ _ => rfl) (hwords m.holdingRegisters) Iff.rfl
  · exact reads_of_run (fun _ _ => rfl) (fun _ _ => rfl) (hwords m.inputRegisters) Iff.rfl

/-- Ten coils from the third on, the last one in the second byte; a memory without the other banks
answers the same. -/
example :
    let m : Memory := ⟨#[], (Bits.unpack [0x34, 0xFF] 13).toArray, #[], #[]⟩
    ((standard .readCoils : Handler Unit).call m ⟨.rtu, ⟨1⟩, 0x01, [0, 2, 0, 10]⟩).result =
      .ok [2, 0xCD, 0x03] := by
  cbv

end Handler

end ModbusSlave
