import ModbusSlave.Protocol.Exception
import ModbusSlave.Text.Hex
import ModbusSlave.Wire.Word

/-!
# Addresses, counts and coil values

A request names a range of cells by its first address and a count, or a single cell by its address
and a value. Both are taken from the front of the request's data, and data that is too short or too
long is an illegal value.
-/
namespace ModbusSlave

def takeByte : Bytes → Except ExceptionCode (UInt8 × Bytes)
  | b :: rest => .ok (b, rest)
  | [] => .error .illegalDataValue

def takeWord : Bytes → Except ExceptionCode (UInt16 × Bytes)
  | h :: l :: rest => .ok (Word.join h l, rest)
  | _ => .error .illegalDataValue

def takeBytes (count : Nat) (data : Bytes) : Except ExceptionCode (Bytes × Bytes) :=
  if data.length < count then .error .illegalDataValue
  else .ok (data.take count, data.drop count)

def finished : Bytes → Except ExceptionCode Unit
  | [] => .ok ()
  | _ :: _ => .error .illegalDataValue

structure AddressRange where
  start : UInt16
  count : UInt16
deriving DecidableEq, Repr

namespace AddressRange

/-- A range covers at least one cell, and its last address is a word. -/
def of? (start count : UInt16) : Except ExceptionCode AddressRange :=
  if count.toNat = 0 then .error .illegalDataValue
  else if 65536 < start.toNat + count.toNat then .error .illegalDataAddress
  else .ok ⟨start, count⟩

def stop (r : AddressRange) : Nat := r.start.toNat + r.count.toNat

/-- A range of at most `limit` cells; the count is judged before the address. -/
def take (limit : Nat) (data : Bytes) : Except ExceptionCode (AddressRange × Bytes) := do
  let (start, data) ← takeWord data
  let (count, data) ← takeWord data
  if limit < count.toNat then .error .illegalDataValue
  else
    let range ← of? start count
    return (range, data)

/-- Two words; whatever the verdict on them, no more than that is taken. -/
def width : Nat := 4

theorem eq_drop_of_take {limit : Nat} {data rest : Bytes} {r : AddressRange}
    (h : take limit data = .ok (r, rest)) : rest = data.drop width := by
  match data with
  | [] | [_] | [_, _] | [_, _, _] => simp [take, takeWord, bind, Except.bind] at h
  | a :: b :: c :: d :: data =>
    simp only [take, takeWord, bind, Except.bind] at h
    split at h
    · simp at h
    · cases hr : of? (Word.join a b) (Word.join c d) with
      | error e => simp [hr] at h
      | ok range =>
        simp only [hr, pure, Except.pure, Except.ok.injEq, Prod.mk.injEq] at h
        exact h.2.symm

def text (r : AddressRange) : String :=
  "start: " ++ Hex.word r.start ++ " qty: " ++ toString r.count.toNat

end AddressRange

structure Indexed (α : Type) where
  index : UInt16
  value : α
deriving DecidableEq, Repr

def Indexed.text (render : α → String) (i : Indexed α) : String :=
  "idx: " ++ Hex.word i.index ++ " value: " ++ render i.value

namespace Coil

def on : UInt16 := 0xFF00

def off : UInt16 := 0x0000

/-- The state that a word stands for in a request to write one coil. -/
def ofWord (w : UInt16) : Except ExceptionCode Bool :=
  if w = on then .ok true
  else if w = off then .ok false
  else .error .illegalDataValue

end Coil

structure Limits where
  readBits : Nat
  readRegisters : Nat
  writeBits : Nat
  writeRegisters : Nat

def limits : Limits := ⟨2000, 125, 1968, 123⟩

end ModbusSlave
