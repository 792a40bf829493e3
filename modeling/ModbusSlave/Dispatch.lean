import ModbusSlave.Event
import ModbusSlave.Functions

/-!
# Dispatch

Every function code has a slot that may hold a handler. A handler sees the memory and the whole
request and may keep a state of its own between calls; `σ` is the type of those states. What comes
back from a handler is an answer only if it fits into a response.
-/
namespace ModbusSlave

/-- What a call leaves behind: the state of the handler, the memory, and the data of the response or
an exception. -/
structure Reply (σ : Type) where
  state : σ
  memory : Memory
  result : Except ExceptionCode Bytes

inductive Handler (σ : Type)
  | standard (function : StandardFunction)
  | custom (state : σ) (step : σ → Memory → Frame → Reply σ)

variable {σ : Type}

def Handler.call (h : Handler σ) (m : Memory) (request : Frame) : Reply (Handler σ) :=
  match h with
  | standard f =>
    let (result, after) := f.run request.data m
    ⟨.standard f, after, result⟩
  | custom state step =>
    let reply := step state m request
    ⟨.custom reply.state step, reply.memory, reply.result⟩

structure DispatchTable (σ : Type) where
  slots : Vector (Option (Handler σ)) 256

namespace DispatchTable

def empty : DispatchTable σ := ⟨Vector.replicate 256 none⟩

def get? (t : DispatchTable σ) (code : UInt8) : Option (Handler σ) :=
  have := code.toNat_lt
  t.slots[code.toNat]

def set (t : DispatchTable σ) (code : UInt8) (slot : Option (Handler σ)) : DispatchTable σ :=
  ⟨t.slots.set code.toNat slot code.toNat_lt⟩

theorem get?_set (t : DispatchTable σ) (code other : UInt8) (slot : Option (Handler σ)) :
    (t.set code slot).get? other = if code = other then slot else t.get? other := by
  simp only [get?, set, Vector.getElem_set, UInt8.toNat_inj]

def register (t : DispatchTable σ) (code : UInt8) (handler : Handler σ) : DispatchTable σ :=
  t.set code (some handler)

def unregister (t : DispatchTable σ) (code : UInt8) : DispatchTable σ := t.set code none

/-- The standard functions, each in the slot of its own code. -/
def standard : DispatchTable σ :=
  StandardFunction.all.foldl (fun t f => t.register f.code (.standard f)) empty

def occupied (t : DispatchTable σ) : List UInt8 :=
  ((List.range 256).map UInt8.ofNat).filter fun code => (t.get? code).isSome

def call? (t : DispatchTable σ) (m : Memory) (request : Frame) :
    Option (Reply (DispatchTable σ)) :=
  (t.get? request.function).map fun handler =>
    let reply := handler.call m request
    ⟨t.register request.function reply.state, reply.memory, reply.result⟩

/-- The reply to any request. A code without a handler is an illegal function, and an answer that
does not fit is the failure of the device. -/
def serve (t : DispatchTable σ) (m : Memory) (request : Frame) :
    Reply (DispatchTable σ) × List Event :=
  match t.call? m request with
  | none => (⟨t, m, .error .illegalFunction⟩, [])
  | some reply =>
    match reply.result with
    | .error _ => (reply, [])
    | .ok data =>
      if Frame.maxPdu ≤ data.length then
        ({ reply with result := .error .serverDeviceFailure },
          [.oversized request.function data.length])
      else (reply, [])

end DispatchTable

end ModbusSlave
