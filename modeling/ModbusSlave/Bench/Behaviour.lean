import ModbusSlave.Dispatch

/-!
# Handlers on the bench

The handlers that a trial can register. Their state is the number of calls they have had, which only
one of them shows.
-/
namespace ModbusSlave

inductive Behaviour
  /-- Always the same data. -/
  | fixed (data : Bytes)
  | fail (e : ExceptionCode)
  /-- The data of the request. -/
  | echo
  /-- Unit, function code and length of the request. -/
  | describe
  /-- The number of calls. -/
  | count
  /-- Add one to a register and show its new value. -/
  | increment (index : UInt16)
  /-- Change a register in spite of failing. -/
  | writeThenFail (index value : UInt16) (e : ExceptionCode)
  | standard (f : StandardFunction)
deriving DecidableEq, Repr

namespace Behaviour

def step (behaviour : Behaviour) (calls : Nat) (m : Memory) (request : Frame) : Reply Nat :=
  let calls := calls + 1
  match behaviour with
  | fixed data => ⟨calls, m, .ok data⟩
  | fail e => ⟨calls, m, .error e⟩
  | echo => ⟨calls, m, .ok request.data⟩
  | describe =>
    ⟨calls, m, .ok [request.unit.value, request.function, UInt8.ofNat request.data.length]⟩
  | count => ⟨calls, m, .ok [UInt8.ofNat calls]⟩
  | increment index =>
    match m.holdingRegisters[index.toNat]? with
    | none => ⟨calls, m, .error .illegalDataAddress⟩
    | some old =>
      let value := old + 1
      let bank := m.holdingRegisters.setIfInBounds index.toNat value
      ⟨calls, { m with holdingRegisters := bank }, .ok (Word.big value)⟩
  | writeThenFail index value e =>
    match m.holdingRegisters.replaceCell index value with
    | .error beyond => ⟨calls, m, .error beyond⟩
    | .ok bank => ⟨calls, { m with holdingRegisters := bank }, .error e⟩
  | standard f =>
    let reply := (Handler.standard (σ := Nat) f).call m request
    ⟨calls, reply.memory, reply.result⟩

def handler (behaviour : Behaviour) : Handler Nat := .custom 0 behaviour.step

end Behaviour

end ModbusSlave
