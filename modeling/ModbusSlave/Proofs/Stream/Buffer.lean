import ModbusSlave.Stream.Reader

/-!
# The receive buffer as a list

What every operation of the buffer does to the bytes that wait, wherever in the storage they lie. No
operation changes the capacity.
-/
namespace ModbusSlave.ReadBuffer

theorem contents_eq (b : ReadBuffer) :
    b.contents = (b.storage.toList.drop b.first).take (b.last - b.first) := by
  simp [contents]

theorem contents_mk (storage : Array UInt8) (first last : Nat) (h₁ : first ≤ last)
    (h₂ : last ≤ storage.size) :
    (ReadBuffer.mk storage first last h₁ h₂).contents =
      (storage.toList.drop first).take (last - first) :=
  contents_eq _

@[simp] theorem capacity_ofCapacity (capacity : Nat) :
    (ofCapacity capacity).capacity = capacity := by
  simp [ofCapacity, ReadBuffer.capacity]

theorem read_eq_ok (b : ReadBuffer) {count : Nat} (h : count ≤ b.contents.length) :
    ∃ after, b.read count = (.ok (b.contents.take count), after) ∧
      after.contents = b.contents.drop count ∧ after.capacity = b.capacity := by
  rw [length_contents] at h
  have hshort : ¬ b.length < count := Nat.not_lt.mpr h
  have hlen : count ≤ b.last - b.first := h
  have := b.first_le_last
  have hbytes :
      (b.storage.extract b.first (b.first + count)).toList = b.contents.take count := by
    simp only [contents, Array.toList_extract, List.extract_eq_take_drop, List.take_take]
    congr 1
    omega
  have hread : b.read count = (.ok (b.contents.take count),
      ⟨b.storage, b.first + count, b.last, by omega, b.last_le_size⟩) := by
    rw [read, dif_neg hshort, hbytes]
  refine ⟨_, hread, ?_, rfl⟩
  rw [contents_mk, contents_eq, List.drop_take, List.drop_drop]
  congr 1
  omega

theorem read_eq_error (b : ReadBuffer) {count : Nat} (h : b.contents.length < count) :
    b.read count = (.error ⟨count, b.contents.length⟩, b) := by
  rw [length_contents] at h ⊢
  rw [read, dif_pos h]

theorem readByte_eq_ok (b : ReadBuffer) {x : UInt8} {rest : Bytes}
    (h : b.contents = x :: rest) :
    ∃ after, b.readByte = (.ok x, after) ∧ after.contents = rest ∧
      after.capacity = b.capacity := by
  have hlength : 0 < b.length := by
    rw [← length_contents, h]
    exact Nat.succ_pos _
  have hlt : b.first < b.last := by
    simp only [length] at hlength
    omega
  have hsize : b.first < b.storage.toList.length := by
    have := b.last_le_size
    rw [Array.length_toList]
    omega
  rw [contents_eq, List.drop_eq_getElem_cons hsize,
    show b.last - b.first = (b.last - (b.first + 1)) + 1 by omega, List.take_succ_cons] at h
  obtain ⟨hx, hrest⟩ := List.cons.inj h
  have hread : b.readByte = (.ok x, ⟨b.storage, b.first + 1, b.last, hlt, b.last_le_size⟩) := by
    rw [readByte, dif_pos hlt, ← hx, Array.getElem_toList]
  exact ⟨_, hread, (contents_mk _ _ _ _ _).trans hrest, rfl⟩

theorem readByte_eq_error (b : ReadBuffer) (h : b.contents = []) :
    b.readByte = (.error ⟨1, 0⟩, b) := by
  have hlength : b.length = 0 := by rw [← length_contents, h, List.length_nil]
  have hle : ¬ b.first < b.last := by
    simp only [length] at hlength
    omega
  rw [readByte, dif_neg hle]

theorem readPair_eq_ok (b : ReadBuffer) {x y : UInt8} {rest : Bytes}
    (h : b.contents = x :: y :: rest) :
    ∃ after, b.readPair = (.ok (x, y), after) ∧ after.contents = rest ∧
      after.capacity = b.capacity := by
  obtain ⟨b₁, h₁, hc₁, hcap₁⟩ := b.readByte_eq_ok h
  obtain ⟨b₂, h₂, hc₂, hcap₂⟩ := b₁.readByte_eq_ok hc₁
  refine ⟨b₂, ?_, hc₂, hcap₂.trans hcap₁⟩
  simp [readPair, h₁, h₂]

/-- A pair that is not there costs the one byte that may be. -/
theorem readPair_eq_error (b : ReadBuffer) (h : b.contents.length < 2) :
    ∃ after, b.readPair = (.error ⟨1, 0⟩, after) ∧ after.contents = [] ∧
      after.capacity = b.capacity := by
  match hcontents : b.contents with
  | [] =>
    refine ⟨b, ?_, hcontents, rfl⟩
    simp [readPair, b.readByte_eq_error hcontents]
  | [x] =>
    obtain ⟨b₁, h₁, hc₁, hcap₁⟩ := b.readByte_eq_ok hcontents
    refine ⟨b₁, ?_, hc₁, hcap₁⟩
    simp [readPair, h₁, b₁.readByte_eq_error hc₁]
  | x :: y :: rest =>
    simp only [hcontents, List.length_cons] at h
    omega

theorem readBig_eq_ok (b : ReadBuffer) {x y : UInt8} {rest : Bytes}
    (h : b.contents = x :: y :: rest) :
    ∃ after, b.readBig = (.ok (Word.join x y), after) ∧ after.contents = rest ∧
      after.capacity = b.capacity := by
  obtain ⟨after, hpair, hrest⟩ := b.readPair_eq_ok h
  exact ⟨after, by simp [readBig, hpair, Except.map], hrest⟩

theorem readBig_eq_error (b : ReadBuffer) (h : b.contents.length < 2) :
    ∃ after, b.readBig = (.error ⟨1, 0⟩, after) ∧ after.contents = [] ∧
      after.capacity = b.capacity := by
  obtain ⟨after, hpair, hnone⟩ := b.readPair_eq_error h
  exact ⟨after, by simp [readBig, hpair, Except.map], hnone⟩

theorem readLittle_eq_ok (b : ReadBuffer) {x y : UInt8} {rest : Bytes}
    (h : b.contents = x :: y :: rest) :
    ∃ after, b.readLittle = (.ok (Word.join y x), after) ∧ after.contents = rest ∧
      after.capacity = b.capacity := by
  obtain ⟨after, hpair, hrest⟩ := b.readPair_eq_ok h
  exact ⟨after, by simp [readLittle, hpair, Except.map], hrest⟩

theorem readLittle_eq_error (b : ReadBuffer) (h : b.contents.length < 2) :
    ∃ after, b.readLittle = (.error ⟨1, 0⟩, after) ∧ after.contents = [] ∧
      after.capacity = b.capacity := by
  obtain ⟨after, hpair, hnone⟩ := b.readPair_eq_error h
  exact ⟨after, by simp [readLittle, hpair, Except.map], hnone⟩

theorem peek_eq_ok (b : ReadBuffer) {index : Nat} {x : UInt8} (h : b.contents[index]? = some x) :
    b.peek index = .ok x := by
  obtain ⟨hindex, hx⟩ := List.getElem?_eq_some_iff.mp h
  have hlength : index < b.length := by rwa [length_contents] at hindex
  rw [peek, dif_pos hlength, ← hx]
  simp [contents]

theorem peek_eq_error (b : ReadBuffer) {index : Nat} (h : b.contents.length ≤ index) :
    b.peek index = .error ⟨index + 1, b.contents.length⟩ := by
  rw [length_contents] at h ⊢
  rw [peek, dif_neg (Nat.not_lt.mpr h)]

@[simp] theorem contents_prepare (b : ReadBuffer) : b.prepare.contents = b.contents := by
  unfold prepare
  split
  · next h =>
    rw [contents_clear, eq_comm, ← List.length_eq_zero_iff, length_contents, length, h]
    exact Nat.sub_self _
  · split
    · next hlast =>
      have := b.last_le_size
      have hsize : (b.storage.extract b.first b.last).toList.length = b.length := by
        rw [Array.length_toList, Array.size_extract, length]
        omega
      rw [contents_mk, Array.toList_append, List.drop_zero, Nat.sub_zero, ← hsize, List.take_left]
      rfl
    · rfl

@[simp] theorem capacity_prepare (b : ReadBuffer) : b.prepare.capacity = b.capacity := by
  unfold prepare
  split
  · rfl
  · split
    · have := b.first_le_last
      have := b.last_le_size
      simp only [capacity, Array.size_append, Array.size_extract, length]
      omega
    · rfl

theorem length_add_room_le (b : ReadBuffer) : b.contents.length + b.room ≤ b.capacity := by
  have := b.first_le_last
  have := b.last_le_size
  rw [length_contents, length, room, capacity]
  omega

/-- A prepared buffer has no room only if it is full. -/
theorem room_prepare_pos (b : ReadBuffer) (h : b.contents.length < b.capacity) :
    0 < b.prepare.room := by
  rw [length_contents, length, capacity] at h
  have := b.first_le_last
  have := b.last_le_size
  unfold prepare
  split
  · simp only [room, clear]
    omega
  · split
    · simp only [room, Array.size_append, Array.size_extract, length]
      omega
    · simp only [room]
      omega

theorem room_prepare_of_empty (b : ReadBuffer) (h : b.contents = []) :
    b.prepare.room = b.capacity := by
  have hlength : b.last - b.first = 0 := by
    rw [← length, ← length_contents, h, List.length_nil]
  have hsame : b.first = b.last := Nat.le_antisymm b.first_le_last (Nat.le_of_sub_eq_zero hlength)
  rw [prepare, if_pos hsame]
  rfl

/-- What fits goes behind the bytes that wait. -/
@[simp] theorem contents_fill (b : ReadBuffer) (bytes : Bytes) :
    (b.fill bytes).contents = b.contents ++ bytes.take b.room := by
  have hfirst := b.first_le_last
  have hlast := b.last_le_size
  have hfront : (b.storage.toList.take b.last).length = b.last := by
    rw [List.length_take, Array.length_toList]
    omega
  rw [fill, contents_mk, contents_eq]
  simp only [Array.toList_append, Array.toList_extract, List.extract_eq_take_drop, List.drop_zero,
    Nat.sub_zero, List.append_assoc]
  rw [List.drop_append_of_le_length (by omega), List.take_append, List.drop_take]
  congr 1
  · rw [List.take_take]
    congr 1
    omega
  · have hold :
        (List.take (b.last - b.first) (List.drop b.first b.storage.toList)).length =
          b.last - b.first := by
      rw [List.length_take, List.length_drop, Array.length_toList]
      omega
    have hnew : (bytes.take b.room).length = min b.room bytes.length := List.length_take
    rw [hold, List.take_append_of_le_length (by omega), List.take_of_length_le (by omega)]

@[simp] theorem capacity_fill (b : ReadBuffer) (bytes : Bytes) :
    (b.fill bytes).capacity = b.capacity := by
  have hlast := b.last_le_size
  have htake : (bytes.take b.room).length ≤ b.storage.size - b.last := by
    rw [List.length_take, room]
    omega
  simp only [fill, capacity, Array.size_append, Array.size_extract, List.size_toArray]
  omega

end ModbusSlave.ReadBuffer
