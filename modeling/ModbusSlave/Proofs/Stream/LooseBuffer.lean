import Mathlib.Data.Nat.PSub
import ModbusSlave.Proofs.Stream.Reading

/-!
# Buffers with every index in doubt

A receive buffer carries the proofs that its indices lie in its storage, and no operation on it can
leave the storage. Here the same operations are carried out without these proofs. They are stuck,
and give `none`, where a difference of lengths would be negative or a position lies outside the
storage. On a buffer that keeps its proofs they never are, and they come to what the operations with
proofs come to.
-/
namespace ModbusSlave

/-- A buffer that does not know where its indices are. -/
structure LooseBuffer where
  storage : Array UInt8
  first : Nat
  last : Nat

def ReadBuffer.loose (b : ReadBuffer) : LooseBuffer := ⟨b.storage, b.first, b.last⟩

namespace LooseBuffer

def length? (b : LooseBuffer) : Option Nat := b.last.psub b.first

def slice? (b : LooseBuffer) (low high : Nat) : Option Bytes :=
  if low ≤ high ∧ high ≤ b.storage.size then some (b.storage.extract low high).toList else none

def write? (b : LooseBuffer) (position : Nat) (bytes : Bytes) : Option (Array UInt8) :=
  if position + bytes.length ≤ b.storage.size then
    some (b.storage.extract 0 position ++ bytes.toArray ++
      b.storage.extract (position + bytes.length))
  else none

def read? (count : Nat) (b : LooseBuffer) : Option (Except Shortage Bytes × LooseBuffer) := do
  let length ← b.length?
  if length < count then some (.error ⟨count, length⟩, b)
  else
    let bytes ← b.slice? b.first (b.first + count)
    some (.ok bytes, { b with first := b.first + count })

def readByte? (b : LooseBuffer) : Option (Except Shortage UInt8 × LooseBuffer) :=
  if b.first = b.last then some (.error ⟨1, 0⟩, b)
  else do
    let x ← b.storage[b.first]?
    some (.ok x, { b with first := b.first + 1 })

def readPair? (b : LooseBuffer) : Option (Except Shortage (UInt8 × UInt8) × LooseBuffer) := do
  match ← b.readByte? with
  | (.error shortage, b) => some (.error shortage, b)
  | (.ok x, b) =>
    match ← b.readByte? with
    | (.error shortage, b) => some (.error shortage, b)
    | (.ok y, b) => some (.ok (x, y), b)

def readBig? (b : LooseBuffer) : Option (Except Shortage UInt16 × LooseBuffer) := do
  let (pair, b) ← b.readPair?
  some (pair.map fun (x, y) => Word.join x y, b)

def readLittle? (b : LooseBuffer) : Option (Except Shortage UInt16 × LooseBuffer) := do
  let (pair, b) ← b.readPair?
  some (pair.map fun (x, y) => Word.join y x, b)

/-- A position that is behind the contents may still be in the storage. -/
def peek? (index : Nat) (b : LooseBuffer) : Option (Except Shortage UInt8) := do
  let length ← b.length?
  if index < length then
    let x ← b.storage[b.first + index]?
    some (.ok x)
  else some (.error ⟨index + 1, length⟩)

def shift? (b : LooseBuffer) : Option LooseBuffer := do
  let length ← b.length?
  let waiting ← b.slice? b.first b.last
  let storage ← b.write? 0 waiting
  some ⟨storage, 0, length⟩

def prepare? (b : LooseBuffer) : Option LooseBuffer :=
  let b := if b.first = b.last then { b with first := 0, last := 0 } else b
  if b.last = b.storage.size then b.shift? else some b

def readSome? (b : LooseBuffer) (script : Script) :
    Option (Except IoKind Nat × LooseBuffer × Script) := do
  let b ← b.prepare?
  let room ← b.storage.size.psub b.last
  match script.read room with
  | (.error kind, script) => some (.error kind, b, script)
  | (.ok [], script) => some (.error .unexpectedEof, b, script)
  | (.ok bytes, script) =>
    let storage ← b.write? b.last bytes
    some (.ok bytes.length, ⟨storage, b.first, b.last + bytes.length⟩, script)

end LooseBuffer

namespace ReadBuffer

open LooseBuffer

variable (b : ReadBuffer)

@[simp] theorem length?_loose : b.loose.length? = some b.length :=
  Nat.psub_eq_sub b.first_le_last

theorem slice?_loose {low high : Nat} (lower : low ≤ high) (upper : high ≤ b.last) :
    b.loose.slice? low high = some (b.storage.extract low high).toList :=
  if_pos ⟨lower, Nat.le_trans upper b.last_le_size⟩

theorem read?_loose (count : Nat) :
    b.loose.read? count = some ((b.read count).1, (b.read count).2.loose) := by
  rw [read?, length?_loose, Option.bind_eq_bind, Option.bind_some]
  by_cases hshort : b.length < count
  · rw [read, dif_pos hshort]
    exact if_pos hshort
  · have hupper : b.first + count ≤ b.last := by
      have := b.first_le_last
      rw [length] at hshort
      omega
    have hslice := b.slice?_loose (Nat.le_add_right b.first count) hupper
    have hfirst : b.loose.first = b.first := rfl
    rw [if_neg hshort, hfirst, hslice, read, dif_neg hshort]
    rfl

theorem readByte?_loose : b.loose.readByte? = some (b.readByte.1, b.readByte.2.loose) := by
  have hle := b.first_le_last
  by_cases hempty : b.first = b.last
  · rw [readByte, dif_neg (by omega)]
    exact if_pos hempty
  · have hlt : b.first < b.last := by omega
    have hsize : b.first < b.storage.size := Nat.lt_of_lt_of_le hlt b.last_le_size
    have hget : b.loose.storage[b.loose.first]? = some b.storage[b.first] :=
      Array.getElem?_eq_getElem _
    have hloose : ¬ b.loose.first = b.loose.last := hempty
    rw [readByte, dif_pos hlt, readByte?, if_neg hloose, hget]
    rfl

theorem readPair?_loose : b.loose.readPair? = some (b.readPair.1, b.readPair.2.loose) := by
  rw [readPair?, readPair, readByte?_loose]
  rcases b.readByte with ⟨_ | x, b⟩
  · rfl
  · dsimp only [Option.bind_eq_bind, Option.bind_some]
    rw [readByte?_loose]
    rcases b.readByte with ⟨_ | y, b⟩
    · rfl
    · rfl

theorem readBig?_loose : b.loose.readBig? = some (b.readBig.1, b.readBig.2.loose) := by
  rw [readBig?, readPair?_loose]
  rfl

theorem readLittle?_loose : b.loose.readLittle? = some (b.readLittle.1, b.readLittle.2.loose) := by
  rw [readLittle?, readPair?_loose]
  rfl

theorem peek?_loose (index : Nat) : b.loose.peek? index = some (b.peek index) := by
  rw [peek?, length?_loose, Option.bind_eq_bind, Option.bind_some]
  by_cases hindex : index < b.length
  · have hsize : b.first + index < b.storage.size := by
      have := b.last_le_size
      rw [length] at hindex
      omega
    have hget : b.loose.storage[b.loose.first + index]? = some b.storage[b.first + index] :=
      Array.getElem?_eq_getElem _
    rw [if_pos hindex, hget, peek, dif_pos hindex]
    rfl
  · rw [if_neg hindex, peek, dif_neg hindex]

theorem write?_loose {position : Nat} {bytes : Bytes}
    (fits : position + bytes.length ≤ b.storage.size) :
    b.loose.write? position bytes = some (b.storage.extract 0 position ++ bytes.toArray ++
      b.storage.extract (position + bytes.length)) :=
  if_pos fits

theorem shift?_loose :
    b.loose.shift? = some ⟨b.storage.extract b.first b.last ++ b.storage.extract b.length, 0,
      b.length⟩ := by
  have hwaiting : b.loose.slice? b.loose.first b.loose.last = some b.contents :=
    b.slice?_loose b.first_le_last (Nat.le_refl b.last)
  have hfits : 0 + b.contents.length ≤ b.storage.size := by
    have := b.last_le_size
    rw [length_contents, length]
    omega
  have hstorage := b.write?_loose hfits
  rw [shift?, length?_loose, hwaiting]
  dsimp only [Option.bind_eq_bind, Option.bind_some]
  have hbytes : b.contents.toArray = b.storage.extract b.first b.last := Array.toArray_toList
  rw [hstorage, hbytes, length_contents, Array.extract_zero, Array.empty_append, Nat.zero_add]
  rfl

theorem prepare?_loose : b.loose.prepare? = some b.prepare.loose := by
  by_cases hempty : b.first = b.last
  · have hclear : (if b.loose.first = b.loose.last then { b.loose with first := 0, last := 0 }
        else b.loose) = b.clear.loose := if_pos hempty
    rw [prepare?, hclear, prepare, if_pos hempty]
    split_ifs
    · rw [shift?_loose]
      simp [clear, loose, length]
    · rfl
  · have hsame : (if b.loose.first = b.loose.last then { b.loose with first := 0, last := 0 }
        else b.loose) = b.loose := if_neg hempty
    rw [prepare?, hsame, prepare, if_neg hempty]
    by_cases hend : b.last = b.storage.size
    · rw [if_pos hend]
      exact (if_pos hend).trans b.shift?_loose
    · rw [if_neg hend]
      exact if_neg hend

theorem loose_fill {bytes : Bytes} (fits : bytes.length ≤ b.room) :
    (b.fill bytes).loose = ⟨b.storage.extract 0 b.last ++ bytes.toArray ++
      b.storage.extract (b.last + bytes.length), b.first, b.last + bytes.length⟩ := by
  simp only [loose, fill, List.take_of_length_le fits]

theorem readSome?_loose (script : Script) :
    b.loose.readSome? script =
      let got := script.read b.prepare.room
      let received := b.prepare.receive got.1
      some (received.1, received.2.loose, got.2) := by
  have hroom : b.prepare.loose.storage.size.psub b.prepare.loose.last = some b.prepare.room :=
    Nat.psub_eq_sub b.prepare.last_le_size
  rw [readSome?, prepare?_loose]
  dsimp only [Option.bind_eq_bind, Option.bind_some]
  rw [hroom]
  dsimp only [Option.bind_eq_bind, Option.bind_some]
  rcases hread : script.read b.prepare.room with ⟨kind | bytes, rest⟩
  · rfl
  cases bytes with
  | nil => rfl
  | cons x bytes =>
    have hlength := Script.length_of_read hread
    have hfits : b.prepare.last + (x :: bytes).length ≤ b.prepare.storage.size := by
      have := b.prepare.last_le_size
      rw [room] at hlength
      omega
    have hstorage := b.prepare.write?_loose hfits
    have hlast : b.prepare.loose.last = b.prepare.last := rfl
    dsimp only
    rw [hlast, hstorage]
    exact congrArg (fun b => some (Except.ok (x :: bytes).length, b, rest))
      (b.prepare.loose_fill hlength).symm

end ReadBuffer

end ModbusSlave
