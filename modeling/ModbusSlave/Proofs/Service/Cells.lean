import ModbusSlave.Functions
import ModbusSlave.Proofs.Wire.Positions

/-!
# What the standard functions do to cells

A request as its bytes tell it, and what a function that accepts it does: a write changes the cells
that it covers and no others, a read carries the cells that it asks for. A patch is a run of new
values for consecutive cells, so that one value and many are written alike.
-/
namespace ModbusSlave

/-- New values for the cells from `start` on. -/
structure Patch (α : Type) where
  start : Nat
  values : List α

/-- The new value of a cell, if it is covered. -/
def Patch.at? {α : Type} (p : Patch α) (cell : Nat) : Option α :=
  if cell < p.start then none else p.values[cell - p.start]?

namespace Bank

variable {α : Type}

theorem getElem?_overwrite (bank : Bank α) (p : Patch α)
    (h : p.start + p.values.length ≤ bank.size) (cell : Nat) :
    (overwrite bank p.start p.values)[cell]? = (p.at? cell).or bank[cell]? := by
  obtain ⟨start, values⟩ := p
  dsimp only at h ⊢
  induction values generalizing bank start with
  | nil => simp [overwrite, Patch.at?]
  | cons v values ih =>
    rw [List.length_cons] at h
    have hsize : start + 1 + values.length ≤ (bank.setIfInBounds start v).size := by
      rw [Array.size_setIfInBounds]
      omega
    rw [overwrite, ih _ _ hsize, Patch.at?, Patch.at?]
    dsimp only
    have hset : (bank.setIfInBounds start v)[cell]? =
        if start = cell then some v else bank[cell]? := by
      rw [Array.getElem?_setIfInBounds]
      by_cases hcell : start = cell
      · rw [if_pos hcell, if_pos hcell, if_pos (by omega)]
      · rw [if_neg hcell, if_neg hcell]
    rcases Nat.lt_trichotomy cell start with hlt | rfl | hgt
    · rw [if_pos (by omega), if_pos hlt, hset, if_neg (by omega)]
    · rw [if_pos (Nat.lt_succ_self cell), if_neg (Nat.lt_irrefl cell), hset, if_pos rfl,
        Nat.sub_self]
      rfl
    · obtain ⟨k, rfl⟩ := Nat.exists_eq_add_of_lt hgt
      have hold : start + k + 1 - start = k + 1 := by omega
      have hnew : start + k + 1 - (start + 1) = k := by omega
      rw [if_neg (by omega), if_neg (by omega), hset, if_neg (by omega), hold, hnew,
        List.getElem?_cons_succ]

theorem cells_eq_ok {bank : Bank α} {range : AddressRange} {values : List α}
    (h : bank.cells range = .ok values) :
    values.length = range.count.toNat ∧
      ∀ k < range.count.toNat, bank[range.start.toNat + k]? = values[k]? := by
  rw [cells] at h
  split at h
  · next hstop =>
    cases h
    rw [AddressRange.stop] at hstop ⊢
    constructor
    · rw [Array.length_toList, Array.size_extract]
      omega
    · intro k hk
      rw [Array.getElem?_toList, Array.getElem?_extract, if_pos (by omega)]
  · cases h

theorem replace_eq_ok {bank after : Bank α} {range : AddressRange} {values : List α}
    (h : bank.replace range values = .ok after) (hlength : values.length = range.count.toNat)
    (cell : Nat) :
    after.size = bank.size ∧
      after[cell]? = (Patch.at? ⟨range.start.toNat, values⟩ cell).or bank[cell]? := by
  rw [replace, List.take_of_length_le (Nat.le_of_eq hlength)] at h
  split at h
  · next hstop =>
    cases h
    refine ⟨size_overwrite _ _ _, ?_⟩
    apply getElem?_overwrite bank ⟨range.start.toNat, values⟩
    rw [hlength]
    exact hstop
  · cases h

theorem replaceCell_eq_ok {bank after : Bank α} {index : UInt16} {value : α}
    (h : bank.replaceCell index value = .ok after) (cell : Nat) :
    after.size = bank.size ∧
      after[cell]? = (Patch.at? ⟨index.toNat, [value]⟩ cell).or bank[cell]? := by
  rw [replaceCell] at h
  split at h
  · next hindex =>
    cases h
    exact ⟨Array.size_setIfInBounds, getElem?_overwrite bank ⟨index.toNat, [value]⟩ hindex cell⟩
  · cases h

end Bank

theorem bind_eq_ok {α β : Type} {x : Except ExceptionCode α} {f : α → Except ExceptionCode β}
    {b : β} (h : x >>= f = .ok b) : ∃ a, x = .ok a ∧ f a = .ok b := by
  cases x with
  | error e => cases h
  | ok a => exact ⟨a, rfl, h⟩

section

variable {α β γ : Type} {x : Except ExceptionCode γ} {f : γ → Refusable α β} {before after : α}

theorem check_eq_ok {b : β} (h : (liftM x >>= f : Refusable α β) before = (.ok b, after)) :
    ∃ c, x = .ok c ∧ f c before = (.ok b, after) := by
  cases x with
  | error e => cases h
  | ok c => exact ⟨c, rfl, h⟩

theorem get_eq_ok {f : α → Refusable α β} {b : β}
    (h : (get >>= f : Refusable α β) before = (.ok b, after)) :
    f before before = (.ok b, after) := h

end

theorem onCoils_eq_ok {x : Refusable (Bank Bool) Bytes} {m after : Memory} {answer : Bytes}
    (h : onCoils x m = (.ok answer, after)) :
    ∃ coils, x m.coils = (.ok answer, coils) ∧ { m with coils } = after := by
  obtain ⟨hresult, hafter⟩ := Prod.mk.inj h
  exact ⟨(x m.coils).2, Prod.ext hresult rfl, hafter⟩

theorem onHoldingRegisters_eq_ok {x : Refusable (Bank UInt16) Bytes} {m after : Memory}
    {answer : Bytes} (h : onHoldingRegisters x m = (.ok answer, after)) :
    ∃ holdingRegisters, x m.holdingRegisters = (.ok answer, holdingRegisters) ∧
      { m with holdingRegisters } = after := by
  obtain ⟨hresult, hafter⟩ := Prod.mk.inj h
  exact ⟨(x m.holdingRegisters).2, Prod.ext hresult rfl, hafter⟩

theorem finished_eq_ok {data : Bytes} (h : finished data = .ok ()) : data = [] := by
  cases data with
  | nil => rfl
  | cons x rest => cases h

theorem takeWord_eq_ok {data rest : Bytes} {word : UInt16} (h : takeWord data = .ok (word, rest)) :
    data = Word.big word ++ rest := by
  match data with
  | [] | [_] => cases h
  | x :: y :: data =>
    cases h
    simp [Word.big]

theorem AddressRange.take_eq_ok {limit : Nat} {data rest : Bytes} {range : AddressRange}
    (h : take limit data = .ok (range, rest)) :
    data = Word.big range.start ++ Word.big range.count ++ rest ∧ 0 < range.count.toNat ∧
      range.count.toNat ≤ limit := by
  obtain ⟨⟨start, data₁⟩, hstart, h⟩ := bind_eq_ok h
  obtain ⟨⟨count, data₂⟩, hcount, h⟩ := bind_eq_ok h
  dsimp only at hcount h
  split at h
  · cases h
  · next hlimit =>
    obtain ⟨r, hrange, h⟩ := bind_eq_ok h
    cases h
    rw [of?] at hrange
    split at hrange
    · cases hrange
    · next hzero =>
      split at hrange
      · cases hrange
      · cases hrange
        refine ⟨?_, Nat.pos_of_ne_zero hzero, Nat.not_lt.mp hlimit⟩
        rw [takeWord_eq_ok hstart, takeWord_eq_ok hcount, List.append_assoc]

theorem readRange_eq_ok {limit : Nat} {data : Bytes} {range : AddressRange}
    (h : readRange limit data = .ok range) :
    data = Word.big range.start ++ Word.big range.count ∧ 0 < range.count.toNat ∧
      range.count.toNat ≤ limit := by
  obtain ⟨⟨r, rest⟩, htake, h⟩ := bind_eq_ok h
  obtain ⟨_, hrest, h⟩ := bind_eq_ok h
  cases h
  obtain ⟨hdata, hpos, hlimit⟩ := AddressRange.take_eq_ok htake
  rw [finished_eq_ok hrest, List.append_nil] at hdata
  exact ⟨hdata, hpos, hlimit⟩

theorem singleWrite_eq_ok {data : Bytes} {request : Indexed UInt16}
    (h : singleWrite data = .ok request) :
    data = Word.big request.index ++ Word.big request.value := by
  obtain ⟨⟨index, data₁⟩, hindex, h⟩ := bind_eq_ok h
  obtain ⟨⟨value, data₂⟩, hvalue, h⟩ := bind_eq_ok h
  obtain ⟨_, hrest, h⟩ := bind_eq_ok h
  cases h
  rw [takeWord_eq_ok hindex, takeWord_eq_ok hvalue, finished_eq_ok hrest, List.append_nil]

theorem takeBytes_eq_ok {count : Nat} {data bytes rest : Bytes}
    (h : takeBytes count data = .ok (bytes, rest)) :
    data = bytes ++ rest ∧ bytes.length = count := by
  rw [takeBytes] at h
  split at h
  · cases h
  · next hlong =>
    cases h
    constructor
    · rw [List.take_append_drop]
    · rw [List.length_take]
      omega

theorem countedBytes_eq_ok {expected : Nat} {data values : Bytes}
    (h : countedBytes expected data = .ok values) :
    values.length = expected ∧ ∃ count, data = count :: values := by
  obtain ⟨⟨count, rest⟩, hcount, hbody⟩ := bind_eq_ok h
  cases data with
  | nil => cases hcount
  | cons x data =>
    cases hcount
    dsimp only at hbody
    split at hbody
    · cases hbody
    · next hexpected =>
      obtain ⟨⟨bytes, behind⟩, htake, hbytes⟩ := bind_eq_ok hbody
      obtain ⟨_, hrest, hvalues⟩ := bind_eq_ok hbytes
      cases hvalues
      dsimp only at hrest ⊢
      obtain ⟨hdata, hlength⟩ := takeBytes_eq_ok htake
      rw [finished_eq_ok hrest, List.append_nil] at hdata
      exact ⟨hlength.trans (Decidable.not_not.mp hexpected), count, by rw [hdata]⟩

/-- The data of a response with the bits that `cell?` tells, as many as `asked` asks for: a count of
bytes, the bits from the first byte on, and zeros behind the last bit. -/
def CarriesBits (cell? : Nat → Option Bool) (asked answer : Bytes) : Prop :=
  ∃ (start count : UInt16) (bytes : Bytes), asked = Word.big start ++ Word.big count ∧
    0 < count.toNat ∧ answer = UInt8.ofNat bytes.length :: bytes ∧
    bytes.length = (count.toNat + 7) / 8 ∧ bytes.length ≤ 250 ∧
    (∀ k < count.toNat, cell? (start.toNat + k) = some (Bits.bit bytes k)) ∧
    ∀ k, count.toNat ≤ k → Bits.bit bytes k = false

/-- The data of a response with the words that `cell?` tells, as many as `asked` asks for. -/
def CarriesWords (cell? : Nat → Option UInt16) (asked answer : Bytes) : Prop :=
  ∃ (start count : UInt16) (bytes : Bytes), asked = Word.big start ++ Word.big count ∧
    0 < count.toNat ∧ answer = UInt8.ofNat bytes.length :: bytes ∧
    bytes.length = 2 * count.toNat ∧ bytes.length ≤ 250 ∧
    ∀ k < count.toNat, cell? (start.toNat + k) = some (Word.word bytes k)

theorem readBits_eq_ok {bank : Bank Bool} {data answer : Bytes}
    (h : readBits bank data = .ok answer) : CarriesBits (bank[·]?) data answer := by
  obtain ⟨range, hrange, h⟩ := bind_eq_ok h
  obtain ⟨bits, hbits, h⟩ := bind_eq_ok h
  cases h
  obtain ⟨hdata, hpos, hlimit⟩ := readRange_eq_ok hrange
  obtain ⟨hlength, hcells⟩ := Bank.cells_eq_ok hbits
  have hbytes : (Bits.pack bits).length = (range.count.toNat + 7) / 8 := by
    rw [Bits.length_pack, hlength, Bits.byteCount]
  have hmax : limits.readBits = 2000 := rfl
  refine ⟨range.start, range.count, Bits.pack bits, hdata, hpos, rfl, hbytes, by omega, ?_, ?_⟩
  · intro k hk
    have hbit : k < bits.length := by rwa [hlength]
    apply (hcells k hk).trans
    rw [Bits.bit_pack, List.getD_eq_getElem?_getD, List.getElem?_eq_getElem hbit, Option.getD_some]
  · intro k hk
    rw [← hlength] at hk
    rw [Bits.bit_pack, List.getD_eq_getElem?_getD, List.getElem?_eq_none hk, Option.getD_none]

theorem readRegisters_eq_ok {bank : Bank UInt16} {data answer : Bytes}
    (h : readRegisters bank data = .ok answer) : CarriesWords (bank[·]?) data answer := by
  obtain ⟨range, hrange, h⟩ := bind_eq_ok h
  obtain ⟨words, hwords, h⟩ := bind_eq_ok h
  cases h
  obtain ⟨hdata, hpos, hlimit⟩ := readRange_eq_ok hrange
  obtain ⟨hlength, hcells⟩ := Bank.cells_eq_ok hwords
  have hbytes : (words.flatMap Word.big).length = 2 * range.count.toNat := by
    rw [Word.length_flatMap_big, hlength]
  have hmax : limits.readRegisters = 125 := rfl
  refine ⟨range.start, range.count, words.flatMap Word.big, hdata, hpos, rfl, hbytes, by omega, ?_⟩
  intro k hk
  have hword : k < words.length := by rwa [hlength]
  exact (hcells k hk).trans (Word.word_flatMap_big words hword).symm

/-- The coils that a request to write would change. -/
def coilPatch? : StandardFunction → Bytes → Option (Patch Bool)
  | .writeSingleCoil, a₁ :: a₀ :: v₁ :: _ => some ⟨(Word.join a₁ a₀).toNat, [v₁ = 0xFF]⟩
  | .writeMultipleCoils, a₁ :: a₀ :: c₁ :: c₀ :: _ :: bytes =>
    some ⟨(Word.join a₁ a₀).toNat, (List.range (Word.join c₁ c₀).toNat).map (Bits.bit bytes)⟩
  | _, _ => none

/-- The holding registers that a request to write would change. -/
def registerPatch? : StandardFunction → Bytes → Option (Patch UInt16)
  | .writeSingleRegister, a₁ :: a₀ :: v₁ :: v₀ :: _ =>
    some ⟨(Word.join a₁ a₀).toNat, [Word.join v₁ v₀]⟩
  | .writeMultipleRegisters, a₁ :: a₀ :: c₁ :: c₀ :: _ :: bytes =>
    some ⟨(Word.join a₁ a₀).toNat, (List.range (Word.join c₁ c₀).toNat).map (Word.word bytes)⟩
  | _, _ => none

/-- A bank after a write that has been accepted. -/
def Bank.Patched {α : Type} (before after : Bank α) (patch? : Option (Patch α)) : Prop :=
  after.size = before.size ∧
    ∀ cell : Nat, after[cell]? = (patch?.bind (·.at? cell)).or before[cell]?

theorem writeCoil_eq_ok {bank after : Bank Bool} {data answer : Bytes}
    (h : writeCoil data bank = (.ok answer, after)) :
    bank.Patched after (coilPatch? .writeSingleCoil data) ∧ answer.length = 4 := by
  obtain ⟨request, hrequest, h⟩ := check_eq_ok h
  obtain ⟨value, hvalue, h⟩ := check_eq_ok h
  obtain ⟨bank', hbank, h⟩ := check_eq_ok (get_eq_ok h)
  cases h
  have hpatch : coilPatch? .writeSingleCoil data = some ⟨request.index.toNat, [value]⟩ := by
    rw [singleWrite_eq_ok hrequest]
    simp only [Word.big, List.cons_append, List.nil_append, coilPatch?, Word.join_high_low]
    rw [Coil.ofWord] at hvalue
    split at hvalue
    · next hon =>
      cases hvalue
      rw [hon]
      rfl
    · split at hvalue
      · next hoff =>
        cases hvalue
        rw [hoff]
        rfl
      · cases hvalue
  rw [hpatch]
  have hreplace := Bank.replaceCell_eq_ok hbank
  exact ⟨⟨(hreplace 0).1, fun cell => (hreplace cell).2⟩, rfl⟩

theorem writeRegister_eq_ok {bank after : Bank UInt16} {data answer : Bytes}
    (h : writeRegister data bank = (.ok answer, after)) :
    bank.Patched after (registerPatch? .writeSingleRegister data) ∧ answer.length = 4 := by
  obtain ⟨request, hrequest, h⟩ := check_eq_ok h
  obtain ⟨bank', hbank, h⟩ := check_eq_ok (get_eq_ok h)
  cases h
  have hpatch : registerPatch? .writeSingleRegister data =
      some ⟨request.index.toNat, [request.value]⟩ := by
    rw [singleWrite_eq_ok hrequest]
    simp only [Word.big, List.cons_append, List.nil_append, registerPatch?, Word.join_high_low]
  rw [hpatch]
  have hreplace := Bank.replaceCell_eq_ok hbank
  exact ⟨⟨(hreplace 0).1, fun cell => (hreplace cell).2⟩, rfl⟩

theorem writeRange_eq_ok {α : Type} {limit : Nat} {width : Nat → Nat}
    {values : Bytes → Nat → List α} {bank after : Bank α} {data answer : Bytes}
    (h : writeRange limit width values data bank = (.ok answer, after)) :
    ∃ (range : AddressRange) (count : UInt8) (bytes : Bytes),
      data = Word.big range.start ++ Word.big range.count ++ count :: bytes ∧
      bytes.length = width range.count.toNat ∧
      bank.replace range (values bytes range.count.toNat) = .ok after ∧
      answer = echo range.start range.count := by
  obtain ⟨⟨range, rest⟩, hrange, h⟩ := check_eq_ok h
  obtain ⟨bytes, hbytes, h⟩ := check_eq_ok h
  obtain ⟨bank', hbank, h⟩ := check_eq_ok (get_eq_ok h)
  cases h
  obtain ⟨hlength, count, rfl⟩ := countedBytes_eq_ok hbytes
  exact ⟨range, count, bytes, (AddressRange.take_eq_ok hrange).1, hlength, hbank, rfl⟩

theorem writeCoils_eq_ok {bank after : Bank Bool} {data answer : Bytes}
    (h : writeCoils data bank = (.ok answer, after)) :
    bank.Patched after (coilPatch? .writeMultipleCoils data) ∧ answer.length = 4 := by
  obtain ⟨range, count, bytes, rfl, -, hbank, rfl⟩ := writeRange_eq_ok h
  have hpatch : coilPatch? .writeMultipleCoils
      (Word.big range.start ++ Word.big range.count ++ count :: bytes) =
        some ⟨range.start.toNat, Bits.unpack bytes range.count.toNat⟩ := by
    rw [Bits.unpack_eq_map]
    simp only [Word.big, List.cons_append, List.nil_append, coilPatch?, Word.join_high_low]
  rw [hpatch]
  have hreplace := Bank.replace_eq_ok hbank (Bits.length_unpack _ _)
  exact ⟨⟨(hreplace 0).1, fun cell => (hreplace cell).2⟩, rfl⟩

theorem writeRegisters_eq_ok {bank after : Bank UInt16} {data answer : Bytes}
    (h : writeRegisters data bank = (.ok answer, after)) :
    bank.Patched after (registerPatch? .writeMultipleRegisters data) ∧ answer.length = 4 := by
  obtain ⟨range, count, bytes, rfl, hlength, hbank, rfl⟩ := writeRange_eq_ok h
  have hpatch : registerPatch? .writeMultipleRegisters
      (Word.big range.start ++ Word.big range.count ++ count :: bytes) =
        some ⟨range.start.toNat, Word.list bytes⟩ := by
    rw [Word.list_eq_map hlength]
    simp only [Word.big, List.cons_append, List.nil_append, registerPatch?, Word.join_high_low]
  rw [hpatch]
  have hreplace := Bank.replace_eq_ok hbank (Word.length_list bytes hlength)
  exact ⟨⟨(hreplace 0).1, fun cell => (hreplace cell).2⟩, rfl⟩

section

variable {α β γ : Type} {f : γ → Refusable α β}

/-- Whatever is refused leaves the store as it was. -/
def Refusable.Atomic (x : Refusable α β) : Prop :=
  ∀ before e, (x before).1 = .error e → (x before).2 = before

theorem atomic_check (x : Except ExceptionCode β) : (liftM x : Refusable α β).Atomic :=
  fun _ _ _ => rfl

theorem atomic_check_bind (x : Except ExceptionCode γ) (h : ∀ c, (f c).Atomic) :
    (liftM x >>= f : Refusable α β).Atomic := by
  cases x with
  | error e => exact atomic_check (.error e)
  | ok c => exact h c

theorem atomic_get_bind {f : α → Refusable α β} (h : ∀ a, (f a).Atomic) :
    (get >>= f : Refusable α β).Atomic := fun before => h before before

theorem atomic_set_bind (a : α) (b : β) :
    (set a >>= fun _ => pure b : Refusable α β).Atomic := by
  intro before e h
  cases h

theorem Refusable.Atomic.onCoils {x : Refusable (Bank Bool) Bytes} (h : x.Atomic) :
    (onCoils x).Atomic := by
  intro m e herror
  exact congrArg (fun coils => { m with coils }) (h m.coils e herror)

theorem Refusable.Atomic.onHoldingRegisters {x : Refusable (Bank UInt16) Bytes} (h : x.Atomic) :
    (onHoldingRegisters x).Atomic := by
  intro m e herror
  exact congrArg (fun holdingRegisters => { m with holdingRegisters })
    (h m.holdingRegisters e herror)

end

theorem atomic_writeCoil (data : Bytes) : (writeCoil data).Atomic :=
  atomic_check_bind _ fun _ => atomic_check_bind _ fun _ => atomic_get_bind fun _ =>
    atomic_check_bind _ fun _ => atomic_set_bind _ _

theorem atomic_writeRegister (data : Bytes) : (writeRegister data).Atomic :=
  atomic_check_bind _ fun _ => atomic_get_bind fun _ => atomic_check_bind _ fun _ =>
    atomic_set_bind _ _

theorem atomic_writeRange {α : Type} (limit : Nat) (width : Nat → Nat)
    (values : Bytes → Nat → List α) (data : Bytes) :
    (writeRange limit width values data).Atomic :=
  atomic_check_bind _ fun _ => atomic_check_bind _ fun _ => atomic_get_bind fun _ =>
    atomic_check_bind _ fun _ => atomic_set_bind _ _

/-- Every check of a standard function comes before its first change, so a request that is refused
changes nothing. -/
theorem StandardFunction.atomic_run (f : StandardFunction) (data : Bytes) :
    (f.run data).Atomic := by
  cases f with
  | readCoils | readDiscreteInputs | readHoldingRegisters | readInputRegisters =>
    exact atomic_get_bind fun _ => atomic_check _
  | writeSingleCoil => exact (atomic_writeCoil data).onCoils
  | writeSingleRegister => exact (atomic_writeRegister data).onHoldingRegisters
  | writeMultipleCoils =>
    have hwrite : (writeCoils data).Atomic := atomic_writeRange _ _ _ data
    exact hwrite.onCoils
  | writeMultipleRegisters =>
    have hwrite : (writeRegisters data).Atomic := atomic_writeRange _ _ _ data
    exact hwrite.onHoldingRegisters

end ModbusSlave
