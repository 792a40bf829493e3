import ModbusSlave.Proofs.Stream.LooseBuffer

/-!
# The receive buffer is a bounded queue

Whatever is asked of a receive buffer, in whatever order and with whatever streams, it answers as a
list of bytes does that takes in at one end and gives out at the other. The list has no places: that
the bytes lie in a block of storage, are moved to its front and leave others behind them shows only
in how much of a chunk is taken in at a time.
-/
namespace ModbusSlave

inductive Operation
  /-- Take in what one read delivers of a stream, or of what is left of one. -/
  | readSome (script : Script)
  | read (count : Nat)
  | readByte
  | readBig
  | readLittle
  | peek (index : Nat)
  | clear

inductive Answer
  | received (outcome : Except IoKind Nat)
  | bytes (outcome : Except Shortage Bytes)
  | byte (outcome : Except Shortage UInt8)
  | word (outcome : Except Shortage UInt16)
  | cleared
deriving DecidableEq

def ReadBuffer.perform (b : ReadBuffer) : Operation → Answer × ReadBuffer
  | .readSome script =>
    let (outcome, b) := b.prepare.receive (script.read b.prepare.room).1
    (.received outcome, b)
  | .read count =>
    let (outcome, b) := b.read count
    (.bytes outcome, b)
  | .readByte =>
    let (outcome, b) := b.readByte
    (.byte outcome, b)
  | .readBig =>
    let (outcome, b) := b.readBig
    (.word outcome, b)
  | .readLittle =>
    let (outcome, b) := b.readLittle
    (.word outcome, b)
  | .peek index => (.byte (b.peek index), b)
  | .clear => (.cleared, b.clear)

/-- Operations one after the other, each with its answer and the number of bytes left waiting. -/
def ReadBuffer.performs (b : ReadBuffer) : List Operation → List (Answer × Nat) × ReadBuffer
  | [] => ([], b)
  | operation :: operations =>
    let (answer, b) := b.perform operation
    let (answers, last) := b.performs operations
    ((answer, b.length) :: answers, last)

namespace LooseBuffer

/-- The same without the proofs of the buffer. -/
def perform? (b : LooseBuffer) : Operation → Option (Answer × LooseBuffer)
  | .readSome script => (b.readSome? script).map fun (outcome, b, _) => (.received outcome, b)
  | .read count => (b.read? count).map fun (outcome, b) => (.bytes outcome, b)
  | .readByte => b.readByte?.map fun (outcome, b) => (.byte outcome, b)
  | .readBig => b.readBig?.map fun (outcome, b) => (.word outcome, b)
  | .readLittle => b.readLittle?.map fun (outcome, b) => (.word outcome, b)
  | .peek index => (b.peek? index).map fun outcome => (.byte outcome, b)
  | .clear => some (.cleared, { b with first := 0, last := 0 })

def performs? (b : LooseBuffer) : List Operation → Option (List (Answer × Nat) × LooseBuffer)
  | [] => some ([], b)
  | operation :: operations => do
    let (answer, b) ← b.perform? operation
    let length ← b.length?
    let (answers, last) ← b.performs? operations
    some ((answer, length) :: answers, last)

end LooseBuffer

/-- What a stream has to deliver next, before it is cut to the room of a read. -/
def Script.offer : Script → Except IoKind Bytes
  | [] => .ok []
  | .failure kind :: _ => .error kind
  | .bytes content :: _ => .ok content

theorem Script.fst_read (room : Nat) (script : Script) :
    (script.read room).1 = script.offer.map (·.take room) := by
  match script with
  | [] => simp [read, offer, Except.map]
  | .failure kind :: rest => rfl
  | .bytes content :: rest =>
    rw [read, offer, Except.map]
    split
    · next fits => rw [List.take_of_length_le fits]
    · rfl

/-- The answer of a list of at most `capacity` bytes, first in, first out, to an operation, and what
it comes to be. How much of a chunk it takes in is open, as long as it is something and fits. -/
inductive Fifo (capacity : Nat) (waiting : Bytes) : Operation → Answer → Bytes → Prop
  | failure {script : Script} {kind : IoKind} (offer : script.offer = .error kind) :
      Fifo capacity waiting (.readSome script) (.received (.error kind)) waiting
  | ended {script : Script} {chunk : Bytes} (offer : script.offer = .ok chunk)
      (none : waiting.length = capacity ∨ chunk = []) :
      Fifo capacity waiting (.readSome script) (.received (.error .unexpectedEof)) waiting
  | chunk {script : Script} {taken left : Bytes} (offer : script.offer = .ok (taken ++ left))
      (some : taken ≠ []) (fits : waiting.length + taken.length ≤ capacity) :
      Fifo capacity waiting (.readSome script) (.received (.ok taken.length)) (waiting ++ taken)
  | read {count : Nat} (enough : count ≤ waiting.length) :
      Fifo capacity waiting (.read count) (.bytes (.ok (waiting.take count))) (waiting.drop count)
  | readShort {count : Nat} (short : waiting.length < count) :
      Fifo capacity waiting (.read count) (.bytes (.error ⟨count, waiting.length⟩)) waiting
  | byte {x : UInt8} {rest : Bytes} (front : waiting = x :: rest) :
      Fifo capacity waiting .readByte (.byte (.ok x)) rest
  | byteShort (short : waiting = []) :
      Fifo capacity waiting .readByte (.byte (.error ⟨1, 0⟩)) waiting
  | big {x y : UInt8} {rest : Bytes} (front : waiting = x :: y :: rest) :
      Fifo capacity waiting .readBig (.word (.ok (Word.join x y))) rest
  /-- A byte without a second one is lost. -/
  | bigShort (short : waiting.length < 2) :
      Fifo capacity waiting .readBig (.word (.error ⟨1, 0⟩)) []
  | little {x y : UInt8} {rest : Bytes} (front : waiting = x :: y :: rest) :
      Fifo capacity waiting .readLittle (.word (.ok (Word.join y x))) rest
  | littleShort (short : waiting.length < 2) :
      Fifo capacity waiting .readLittle (.word (.error ⟨1, 0⟩)) []
  | peek {index : Nat} {x : UInt8} (found : waiting[index]? = some x) :
      Fifo capacity waiting (.peek index) (.byte (.ok x)) waiting
  | peekShort {index : Nat} (short : waiting.length ≤ index) :
      Fifo capacity waiting (.peek index) (.byte (.error ⟨index + 1, waiting.length⟩)) waiting
  | clear : Fifo capacity waiting .clear .cleared []

inductive Fifo.Run (capacity : Nat) : Bytes → List Operation → List (Answer × Nat) → Bytes → Prop
  | nil {waiting : Bytes} : Run capacity waiting [] [] waiting
  | cons {waiting next last : Bytes} {operation : Operation} {operations : List Operation}
      {answer : Answer} {answers : List (Answer × Nat)}
      (first : Fifo capacity waiting operation answer next)
      (later : Run capacity next operations answers last) :
      Run capacity waiting (operation :: operations) ((answer, next.length) :: answers) last

namespace Fifo

variable {capacity : Nat} {waiting after delivered : Bytes} {script : Script} {answer : Answer}

theorem cases_of_offer (h : Fifo capacity waiting (.readSome script) answer after)
    (offer : script.offer = .ok delivered) :
    (answer = .received (.error .unexpectedEof) ∧
      (waiting.length = capacity ∨ delivered = [])) ∨
    ∃ taken left, delivered = taken ++ left ∧ taken ≠ [] ∧
      waiting.length + taken.length ≤ capacity ∧ answer = .received (.ok taken.length) ∧
      after = waiting ++ taken := by
  cases h with
  | failure failed =>
    rw [failed] at offer
    cases offer
  | ended found none =>
    rw [found] at offer
    cases offer
    exact .inl ⟨rfl, none⟩
  | chunk found some fits =>
    rw [found] at offer
    cases offer
    exact .inr ⟨_, _, rfl, some, fits, rfl, rfl⟩

/-- A stream has ended for a list that is full, and where nothing is delivered. -/
theorem ended_iff (h : Fifo capacity waiting (.readSome script) answer after)
    (offer : script.offer = .ok delivered) :
    answer = .received (.error .unexpectedEof) ↔ waiting.length = capacity ∨ delivered = [] := by
  rcases h.cases_of_offer offer with ⟨rfl, none⟩ | ⟨taken, left, rfl, some, fits, rfl, rfl⟩
  · exact ⟨fun _ => none, fun _ => rfl⟩
  · have hpos := List.length_pos_iff.mpr some
    constructor
    · intro h
      cases h
    · rintro (full | nil)
      · omega
      · exact absurd (List.append_eq_nil_iff.mp nil).1 some

theorem takes (h : Fifo capacity waiting (.readSome script) answer after)
    (offer : script.offer = .ok delivered) (some : delivered ≠ [])
    (room : waiting.length < capacity) :
    ∃ taken left, delivered = taken ++ left ∧ taken ≠ [] ∧
      taken.length ≤ capacity - waiting.length ∧ answer = .received (.ok taken.length) ∧
      after = waiting ++ taken := by
  rcases h.cases_of_offer offer with ⟨-, full | nil⟩ | ⟨taken, left, hall, some, fits, hanswer⟩
  · omega
  · exact absurd nil some
  · exact ⟨taken, left, hall, some, by omega, hanswer⟩

end Fifo

namespace ReadBuffer

theorem fifo_readSome (b : ReadBuffer) (script : Script) :
    Fifo b.capacity b.contents (.readSome script) (b.perform (.readSome script)).1
        (b.perform (.readSome script)).2.contents ∧
      (b.perform (.readSome script)).2.capacity = b.capacity := by
  rw [perform, Script.fst_read]
  cases hoffer : script.offer with
  | error kind =>
    refine ⟨?_, b.capacity_prepare⟩
    show Fifo b.capacity b.contents _ (.received (.error kind)) b.prepare.contents
    rw [contents_prepare]
    exact .failure hoffer
  | ok chunk =>
    have hfits := b.prepare.length_add_room_le
    rw [contents_prepare, capacity_prepare] at hfits
    rw [Except.map]
    cases htaken : chunk.take b.prepare.room with
    | nil =>
      refine ⟨?_, b.capacity_prepare⟩
      show Fifo b.capacity b.contents _ (.received (.error .unexpectedEof)) b.prepare.contents
      rw [contents_prepare]
      apply Fifo.ended hoffer
      rcases List.take_eq_nil_iff.mp htaken with hroom | hnil
      · rcases Nat.lt_or_ge b.contents.length b.capacity with hless | hfull
        · have := b.room_prepare_pos hless
          omega
        · exact .inl (by omega)
      · exact .inr hnil
    | cons x bytes =>
      have hlength : (x :: bytes).length ≤ b.prepare.room := htaken ▸ List.length_take_le _ _
      refine ⟨?_, (b.prepare.capacity_fill _).trans b.capacity_prepare⟩
      show Fifo b.capacity b.contents _ (.received (.ok (x :: bytes).length))
        (b.prepare.fill (x :: bytes)).contents
      rw [contents_fill, contents_prepare, List.take_of_length_le hlength]
      apply Fifo.chunk
      · rw [hoffer, ← htaken, List.take_append_drop]
      · exact List.cons_ne_nil x bytes
      · omega

theorem short_or_pair (bytes : Bytes) :
    bytes.length < 2 ∨ ∃ x y rest, bytes = x :: y :: rest := by
  match bytes with
  | [] => exact .inl Nat.zero_lt_two
  | [_] => exact .inl Nat.one_lt_two
  | x :: y :: rest => exact .inr ⟨x, y, rest, rfl⟩

/-- Every operation answers as the list of the bytes that wait does, and leaves what that leaves. -/
theorem fifo_perform (b : ReadBuffer) (operation : Operation) :
    Fifo b.capacity b.contents operation (b.perform operation).1 (b.perform operation).2.contents ∧
      (b.perform operation).2.capacity = b.capacity := by
  cases operation with
  | readSome script => exact b.fifo_readSome script
  | read count =>
    rw [perform]
    rcases Nat.lt_or_ge b.contents.length count with short | enough
    · rw [b.read_eq_error short]
      exact ⟨.readShort short, rfl⟩
    · obtain ⟨after, hread, hcontents, hcapacity⟩ := b.read_eq_ok enough
      rw [hread]
      exact ⟨hcontents ▸ .read enough, hcapacity⟩
  | readByte =>
    rw [perform]
    by_cases short : b.contents = []
    · rw [b.readByte_eq_error short]
      exact ⟨.byteShort short, rfl⟩
    · obtain ⟨x, rest, front⟩ := List.exists_cons_of_ne_nil short
      obtain ⟨after, hread, hcontents, hcapacity⟩ := b.readByte_eq_ok front
      rw [hread]
      exact ⟨hcontents ▸ .byte front, hcapacity⟩
  | readBig =>
    rw [perform]
    rcases short_or_pair b.contents with short | ⟨x, y, rest, front⟩
    · obtain ⟨after, hread, hcontents, hcapacity⟩ := b.readBig_eq_error short
      rw [hread]
      exact ⟨hcontents ▸ .bigShort short, hcapacity⟩
    · obtain ⟨after, hread, hcontents, hcapacity⟩ := b.readBig_eq_ok front
      rw [hread]
      exact ⟨hcontents ▸ .big front, hcapacity⟩
  | readLittle =>
    rw [perform]
    rcases short_or_pair b.contents with short | ⟨x, y, rest, front⟩
    · obtain ⟨after, hread, hcontents, hcapacity⟩ := b.readLittle_eq_error short
      rw [hread]
      exact ⟨hcontents ▸ .littleShort short, hcapacity⟩
    · obtain ⟨after, hread, hcontents, hcapacity⟩ := b.readLittle_eq_ok front
      rw [hread]
      exact ⟨hcontents ▸ .little front, hcapacity⟩
  | peek index =>
    rw [perform]
    cases found : b.contents[index]? with
    | none =>
      have short := List.getElem?_eq_none_iff.mp found
      rw [b.peek_eq_error short]
      exact ⟨.peekShort short, rfl⟩
    | some x =>
      rw [b.peek_eq_ok found]
      exact ⟨.peek found, rfl⟩
  | clear => exact ⟨b.contents_clear ▸ .clear, rfl⟩

theorem run_performs (b : ReadBuffer) (operations : List Operation) :
    Fifo.Run b.capacity b.contents operations (b.performs operations).1
        (b.performs operations).2.contents ∧
      (b.performs operations).2.capacity = b.capacity := by
  induction operations generalizing b with
  | nil => exact ⟨.nil, rfl⟩
  | cons operation operations ih =>
    obtain ⟨hfirst, hcapacity⟩ := b.fifo_perform operation
    obtain ⟨hlater, hlast⟩ := ih (b.perform operation).2
    rw [hcapacity] at hlater hlast
    rw [performs]
    refine ⟨?_, hlast⟩
    dsimp only
    rw [← length_contents]
    exact .cons hfirst hlater

theorem perform?_loose (b : ReadBuffer) (operation : Operation) :
    b.loose.perform? operation = some ((b.perform operation).1, (b.perform operation).2.loose) := by
  cases operation with
  | readSome script => rw [LooseBuffer.perform?, b.readSome?_loose]; rfl
  | read count => rw [LooseBuffer.perform?, b.read?_loose]; rfl
  | readByte => rw [LooseBuffer.perform?, b.readByte?_loose]; rfl
  | readBig => rw [LooseBuffer.perform?, b.readBig?_loose]; rfl
  | readLittle => rw [LooseBuffer.perform?, b.readLittle?_loose]; rfl
  | peek index => rw [LooseBuffer.perform?, b.peek?_loose]; rfl
  | clear => rfl

theorem performs?_loose (b : ReadBuffer) (operations : List Operation) :
    b.loose.performs? operations =
      some ((b.performs operations).1, (b.performs operations).2.loose) := by
  induction operations generalizing b with
  | nil => rfl
  | cons operation operations ih =>
    rw [LooseBuffer.performs?, b.perform?_loose]
    dsimp only [Option.bind_eq_bind, Option.bind_some]
    rw [length?_loose, Option.bind_some, ih]
    rfl

end ReadBuffer

/-- Whatever is asked of a new buffer of any capacity. Without the proofs it carries it is not stuck
and answers the same, and its indices are in order and within the storage. Each answer, and the
number of bytes that wait after it, is that of a list of bytes, first in, first out, which is empty
at first. Of a stream that does not fail the buffer finds the end if and only if it is full or
nothing is delivered, and otherwise it takes in the front of what is delivered. -/
theorem buffer_bounded_queue (capacity : Nat) (operations : List Operation) :
    let start := ReadBuffer.ofCapacity capacity
    let answers := (start.performs operations).1
    let b := (start.performs operations).2
    start.loose.performs? operations = some (answers, b.loose) ∧
    b.loose.first ≤ b.loose.last ∧ b.loose.last ≤ capacity ∧ b.loose.storage.size = capacity ∧
    Fifo.Run capacity [] operations answers b.contents ∧
    ∀ script delivered, script.offer = .ok delivered →
      let next := b.perform (.readSome script)
      (next.1 = .received (.error .unexpectedEof) ↔
        b.contents.length = capacity ∨ delivered = []) ∧
      (delivered ≠ [] → b.contents.length < capacity →
        ∃ taken left, delivered = taken ++ left ∧ taken ≠ [] ∧
          taken.length ≤ capacity - b.contents.length ∧ next.1 = .received (.ok taken.length) ∧
          next.2.contents = b.contents ++ taken) := by
  intro start answers b
  obtain ⟨hrun, hcapacity⟩ := start.run_performs operations
  have hstart : start.capacity = capacity := ReadBuffer.capacity_ofCapacity capacity
  have hsize : b.capacity = capacity := hcapacity.trans hstart
  have hempty : start.contents = [] := ReadBuffer.contents_ofCapacity capacity
  rw [hstart, hempty] at hrun
  refine ⟨start.performs?_loose operations, b.first_le_last, hsize ▸ b.last_le_size, hsize, hrun,
    ?_⟩
  intro script delivered offer
  have hfifo := (b.fifo_perform (.readSome script)).1
  rw [hsize] at hfifo
  exact ⟨hfifo.ended_iff offer, hfifo.takes offer⟩

/-- Three bytes have filled the storage and two of them have been read: the third is moved to the
front, and of the next three there is room for two. -/
theorem buffer_bounded_queue_shifted :
    let operations : List Operation := [.readSome [.bytes [1, 2, 3]], .read 2]
    let b := ((ReadBuffer.ofCapacity 3).performs operations).2
    let script : Script := [.bytes [4, 5, 6]]
    let next := b.perform (.readSome script)
    b.last = 3 ∧ b.contents = [3] ∧ script.offer = .ok [4, 5, 6] ∧ b.contents.length < 3 ∧
      next.1 = .received (.ok 2) ∧ next.1 ≠ .received (.error .unexpectedEof) ∧
      ∃ taken left, [4, 5, 6] = taken ++ left ∧ taken ≠ [] ∧
        taken.length ≤ 3 - b.contents.length ∧ next.1 = .received (.ok taken.length) ∧
        next.2.contents = b.contents ++ taken := by
  intro operations b script next
  have hqueue := buffer_bounded_queue 3 operations
  obtain ⟨hended, hsome⟩ := hqueue.2.2.2.2.2 script [4, 5, 6] rfl
  have hvalues : b.last = 3 ∧ b.contents = [3] ∧ next.1 = .received (.ok 2) := by decide +kernel
  obtain ⟨hlast, hcontents, hanswer⟩ := hvalues
  have hroom : b.contents.length < 3 := by
    rw [hcontents]
    decide
  have hpartly : ¬ (b.contents.length = 3 ∨ ([4, 5, 6] : Bytes) = []) := by
    rw [hcontents]
    decide
  exact ⟨hlast, hcontents, rfl, hroom, hanswer, fun h => hpartly (hended.mp h),
    hsome (by decide) hroom⟩

end ModbusSlave
