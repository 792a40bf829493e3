import ModbusSlave.Protocol.Address
import ModbusSlave.Protocol.Exception

/-!
# The process image

Four banks of cells hold what the slave serves: two of bits and two of words, one of each that
requests may only read. Banks never change their size. A range of cells is either inside its bank as
a whole or an illegal address.
-/
namespace ModbusSlave

abbrev Bank (α : Type) := Array α

namespace Bank

variable {α : Type}

def cells (bank : Bank α) (range : AddressRange) : Except ExceptionCode (List α) :=
  if range.stop ≤ bank.size then .ok (bank.extract range.start.toNat range.stop).toList
  else .error .illegalDataAddress

/-- New values for the cells from `start` on; there is nothing to write beyond the bank. -/
def overwrite (bank : Bank α) (start : Nat) : List α → Bank α
  | [] => bank
  | v :: values => overwrite (bank.setIfInBounds start v) (start + 1) values

@[simp] theorem size_overwrite (bank : Bank α) (start : Nat) (values : List α) :
    (overwrite bank start values).size = bank.size := by
  induction values generalizing bank start with
  | nil => rfl
  | cons v values ih => simp [overwrite, ih]

def replace (bank : Bank α) (range : AddressRange) (values : List α) :
    Except ExceptionCode (Bank α) :=
  if range.stop ≤ bank.size then
    .ok (overwrite bank range.start.toNat (values.take range.count.toNat))
  else .error .illegalDataAddress

def replaceCell (bank : Bank α) (index : UInt16) (value : α) : Except ExceptionCode (Bank α) :=
  if index.toNat < bank.size then .ok (bank.setIfInBounds index.toNat value)
  else .error .illegalDataAddress

end Bank

structure BankCapacity where
  discreteInputs : Nat
  coils : Nat
  holdingRegisters : Nat
  inputRegisters : Nat
deriving DecidableEq, Repr

namespace BankCapacity

def uniform (n : Nat) : BankCapacity := ⟨n, n, n, n⟩

def full : BankCapacity := uniform 65536

end BankCapacity

structure Memory where
  discreteInputs : Bank Bool
  coils : Bank Bool
  holdingRegisters : Bank UInt16
  inputRegisters : Bank UInt16
deriving DecidableEq

inductive BankName
  | discreteInputs
  | coils
  | holdingRegisters
  | inputRegisters
deriving DecidableEq, Repr

namespace BankName

def all : List BankName := [discreteInputs, coils, holdingRegisters, inputRegisters]

def text : BankName → String
  | discreteInputs => "discrete_inputs"
  | coils => "coils"
  | holdingRegisters => "holding_registers"
  | inputRegisters => "input_registers"

end BankName

namespace Memory

/-- Banks of the given sizes, filled with zeros. -/
def ofCapacity (c : BankCapacity) : Memory where
  discreteInputs := Array.replicate c.discreteInputs false
  coils := Array.replicate c.coils false
  holdingRegisters := Array.replicate c.holdingRegisters 0
  inputRegisters := Array.replicate c.inputRegisters 0

def capacity (m : Memory) : BankCapacity :=
  ⟨m.discreteInputs.size, m.coils.size, m.holdingRegisters.size, m.inputRegisters.size⟩

@[simp] theorem capacity_ofCapacity (c : BankCapacity) : (ofCapacity c).capacity = c := by
  simp [capacity, ofCapacity]

/-- The cells of a bank from `start` up to `stop` as words, a bit as 0 or 1. -/
def words (m : Memory) (name : BankName) (start stop : Nat) : List UInt16 :=
  let ofBits (bank : Bank Bool) : List UInt16 :=
    (bank.extract start stop).toList.map fun b => if b then 1 else 0
  match name with
  | .discreteInputs => ofBits m.discreteInputs
  | .coils => ofBits m.coils
  | .holdingRegisters => (m.holdingRegisters.extract start stop).toList
  | .inputRegisters => (m.inputRegisters.extract start stop).toList

def size (m : Memory) : BankName → Nat
  | .discreteInputs => m.discreteInputs.size
  | .coils => m.coils.size
  | .holdingRegisters => m.holdingRegisters.size
  | .inputRegisters => m.inputRegisters.size

/-- `count` cells of a bank, if it has them. -/
def get? (m : Memory) (name : BankName) (start count : Nat) : Option (List UInt16) :=
  if start + count ≤ m.size name then some (m.words name start (start + count)) else none

/-- The memory with new values in a bank, if it has the cells; any word but zero sets a bit. -/
def set? (m : Memory) (name : BankName) (start : Nat) (values : List UInt16) : Option Memory :=
  if start + values.length ≤ m.size name then
    some <| match name with
      | .discreteInputs =>
        { m with discreteInputs := m.discreteInputs.overwrite start (values.map (· != 0)) }
      | .coils => { m with coils := m.coils.overwrite start (values.map (· != 0)) }
      | .holdingRegisters =>
        { m with holdingRegisters := m.holdingRegisters.overwrite start values }
      | .inputRegisters => { m with inputRegisters := m.inputRegisters.overwrite start values }
  else none

/-- Position and value of every cell of a bank that is not zero. -/
def nonzero (m : Memory) (name : BankName) : List (Nat × UInt16) :=
  ((m.words name 0 (m.size name)).zipIdx.filter (·.1 != 0)).map fun (value, index) =>
    (index, value)

end Memory

end ModbusSlave
