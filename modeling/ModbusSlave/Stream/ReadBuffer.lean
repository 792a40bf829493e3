import ModbusSlave.Protocol.Fault
import ModbusSlave.Wire.Word

/-!
# The receive buffer

A fixed block of storage in which the bytes between `first` and `last` wait to be read. An empty
buffer goes back to the front, and contents that reach the end are moved to the front before more is
taken in, so that the room offered to a stream is zero only if the buffer is full. What is behind
`last` has no meaning.
-/
namespace ModbusSlave

structure ReadBuffer where
  storage : Array UInt8
  first : Nat
  last : Nat
  first_le_last : first ≤ last := by omega
  last_le_size : last ≤ storage.size := by omega

namespace ReadBuffer

def ofCapacity (capacity : Nat) : ReadBuffer where
  storage := Array.replicate capacity 0
  first := 0
  last := 0
  last_le_size := Nat.zero_le _

def capacity (b : ReadBuffer) : Nat := b.storage.size

def length (b : ReadBuffer) : Nat := b.last - b.first

def isEmpty (b : ReadBuffer) : Bool := b.first = b.last

/-- The bytes that wait, oldest first. -/
def contents (b : ReadBuffer) : Bytes := (b.storage.extract b.first b.last).toList

theorem length_contents (b : ReadBuffer) : b.contents.length = b.length := by
  have := b.last_le_size
  simp only [contents, length, Array.length_toList, Array.size_extract]
  omega

@[simp] theorem contents_ofCapacity (capacity : Nat) : (ofCapacity capacity).contents = [] := by
  simp [contents, ofCapacity]

def clear (b : ReadBuffer) : ReadBuffer :=
  { b with first := 0, last := 0, first_le_last := Nat.le_refl 0, last_le_size := Nat.zero_le _ }

@[simp] theorem contents_clear (b : ReadBuffer) : b.clear.contents = [] := by
  simp [contents, clear]

def read (count : Nat) (b : ReadBuffer) : Except Shortage Bytes × ReadBuffer :=
  if h : b.length < count then (.error ⟨count, b.length⟩, b)
  else
    have : b.first + count ≤ b.last := by
      have := b.first_le_last
      simp only [length] at h
      omega
    (.ok (b.storage.extract b.first (b.first + count)).toList,
      { b with first := b.first + count, first_le_last := this, last_le_size := b.last_le_size })

def readByte (b : ReadBuffer) : Except Shortage UInt8 × ReadBuffer :=
  if h : b.first < b.last then
    have := b.last_le_size
    (.ok b.storage[b.first],
      { b with first := b.first + 1, first_le_last := h, last_le_size := this })
  else (.error ⟨1, 0⟩, b)

/-- Remove two bytes, one after the other: if only one is there, it is lost. -/
def readPair (b : ReadBuffer) : Except Shortage (UInt8 × UInt8) × ReadBuffer :=
  match b.readByte with
  | (.error shortage, b) => (.error shortage, b)
  | (.ok x, b) =>
    match b.readByte with
    | (.error shortage, b) => (.error shortage, b)
    | (.ok y, b) => (.ok (x, y), b)

/-- A word with the high byte first. -/
def readBig (b : ReadBuffer) : Except Shortage UInt16 × ReadBuffer :=
  let (pair, b) := b.readPair
  (pair.map fun (x, y) => Word.join x y, b)

/-- A word with the low byte first. -/
def readLittle (b : ReadBuffer) : Except Shortage UInt16 × ReadBuffer :=
  let (pair, b) := b.readPair
  (pair.map fun (x, y) => Word.join y x, b)

/-- The byte at a position counted from the oldest, left in place. -/
def peek (index : Nat) (b : ReadBuffer) : Except Shortage UInt8 :=
  if h : index < b.length then
    have : b.first + index < b.storage.size := by
      have := b.last_le_size
      simp only [length] at h
      omega
    .ok b.storage[b.first + index]
  else .error ⟨index + 1, b.length⟩

/-- The same contents at the front of the storage if nothing waits or no room is left behind it. -/
def prepare (b : ReadBuffer) : ReadBuffer :=
  if b.first = b.last then b.clear
  else if b.last = b.storage.size then
    { storage := b.storage.extract b.first b.last ++ b.storage.extract b.length
      first := 0
      last := b.length
      first_le_last := Nat.zero_le _
      last_le_size := by
        have := b.last_le_size
        simp only [Array.size_append, Array.size_extract, length]
        omega }
  else b

def room (b : ReadBuffer) : Nat := b.storage.size - b.last

/-- Put as much of `bytes` behind the contents as fits. -/
def fill (b : ReadBuffer) (bytes : Bytes) : ReadBuffer :=
  let taken := bytes.take b.room
  { storage := b.storage.extract 0 b.last ++ taken.toArray ++
      b.storage.extract (b.last + taken.length)
    first := b.first
    last := b.last + taken.length
    first_le_last := Nat.le_trans b.first_le_last (Nat.le_add_right _ _)
    last_le_size := by
      have := b.last_le_size
      simp only [Array.size_append, Array.size_extract, List.size_toArray]
      omega }

/-- What becomes of one read from a stream; no bytes at all mean that the stream has ended. -/
def receive (b : ReadBuffer) : Except IoKind Bytes → Except IoKind Nat × ReadBuffer
  | .error kind => (.error kind, b)
  | .ok [] => (.error .unexpectedEof, b)
  | .ok (x :: bytes) => (.ok (bytes.length + 1), b.fill (x :: bytes))

end ReadBuffer

end ModbusSlave
