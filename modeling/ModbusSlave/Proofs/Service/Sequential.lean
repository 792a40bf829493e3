import Mathlib.Logic.Function.Basic
import ModbusSlave.Station.Service

/-!
# Sequential execution

What a list of messages means, said without a queue, a worker or a connection: a memory, a handler
for each code, and one message carried out after the other. `Service.handle` does the same step by
step, with its table of slots.
-/
namespace ModbusSlave

/-- A request for this unit, the link it came from, and the response to it. -/
structure Transaction where
  link : Nat
  request : Frame
  response : Frame
deriving DecidableEq

/-- Memory and handlers, as the next message finds them. -/
structure Image (σ : Type) where
  memory : Memory
  handlers : UInt8 → Option (Handler σ)

namespace Image

variable {σ ρ : Type}

/-- A response holds at most 252 bytes of data. -/
def fitted : Except ExceptionCode Bytes → Except ExceptionCode Bytes
  | .ok data => if data.length ≤ 252 then .ok data else .error .serverDeviceFailure
  | .error e => .error e

/-- One call of the handler for a request, on the memory as it is. -/
def reply (i : Image σ) (request : Frame) : Image σ × Except ExceptionCode Bytes :=
  match i.handlers request.function with
  | none => (i, .error .illegalFunction)
  | some handler =>
    let reply := handler.call i.memory request
    (⟨reply.memory, Function.update i.handlers request.function (some reply.state)⟩,
      fitted reply.result)

def execute (unit : UnitId) (i : Image σ) : Message σ ρ → Image σ × Option Transaction
  | .request link request =>
    if request.unit = unit then
      ((i.reply request).1, some ⟨link, request, request.answer (i.reply request).2⟩)
    else (i, none)
  | .register code handler =>
    ({ i with handlers := Function.update i.handlers code (some handler) }, none)
  | .unregister code => ({ i with handlers := Function.update i.handlers code none }, none)
  | .access _ run => ({ i with memory := (run i.memory).1 }, none)
  | .release _ | .stop => (i, none)

/-- One message after the other, up to the first that stops the service. -/
def executeAll (unit : UnitId) : Image σ → List (Message σ ρ) → Image σ × List Transaction
  | i, [] => (i, [])
  | i, .stop :: _ => (i, [])
  | i, message :: rest =>
    let (after, transaction) := i.execute unit message
    let (final, transactions) := executeAll unit after rest
    (final, transaction.toList ++ transactions)

end Image

namespace Message

variable {σ ρ : Type}

def ownRequest? (unit : UnitId) : Message σ ρ → Option (Nat × Frame)
  | .request link frame => if frame.unit = unit then some (link, frame) else none
  | _ => none

def isStop : Message σ ρ → Bool
  | .stop => true
  | _ => false

end Message

namespace Image

variable {σ ρ : Type} (unit : UnitId)

theorem executeAll_cons (i : Image σ) {message : Message σ ρ} (rest : List (Message σ ρ))
    (h : message.isStop = false) :
    i.executeAll unit (message :: rest) =
      (((i.execute unit message).1.executeAll unit rest).1,
        (i.execute unit message).2.toList ++
          ((i.execute unit message).1.executeAll unit rest).2) := by
  cases message with
  | stop => simp [Message.isStop] at h
  | _ => rfl

theorem executeAll_append (i : Image σ) {front : List (Message σ ρ)} (back : List (Message σ ρ))
    (h : ∀ message ∈ front, message.isStop = false) :
    i.executeAll unit (front ++ back) =
      (((i.executeAll unit front).1.executeAll unit back).1,
        (i.executeAll unit front).2 ++ ((i.executeAll unit front).1.executeAll unit back).2) := by
  induction front generalizing i with
  | nil => rfl
  | cons message front ih =>
    have hm := h message List.mem_cons_self
    rw [List.cons_append, executeAll_cons unit i _ hm, executeAll_cons unit i _ hm,
      ih _ fun m hf => h m (List.mem_cons_of_mem _ hf)]
    simp only [List.append_assoc]

theorem executeAll_append_stop (i : Image σ) {front : List (Message σ ρ)}
    (back : List (Message σ ρ)) (h : ∀ message ∈ front, message.isStop = false) :
    i.executeAll unit (front ++ .stop :: back) = i.executeAll unit front := by
  rw [executeAll_append unit i _ h]
  simp [executeAll]

theorem transaction_execute (i : Image σ) (message : Message σ ρ) :
    (i.execute unit message).2.map (fun e => (e.link, e.request)) =
      message.ownRequest? unit := by
  cases message with
  | request link frame =>
    simp only [execute, Message.ownRequest?]
    split <;> rfl
  | _ => rfl

/-- Every request for this unit has exactly one response, in the order of the requests. -/
theorem requests_executeAll (i : Image σ) (messages : List (Message σ ρ)) :
    (i.executeAll unit messages).2.map (fun e => (e.link, e.request)) =
      (messages.takeWhile (!·.isStop)).filterMap (·.ownRequest? unit) := by
  induction messages generalizing i with
  | nil => rfl
  | cons message rest ih =>
    cases hm : message.isStop with
    | true =>
      cases message with
      | stop => rfl
      | _ => simp [Message.isStop] at hm
    | false =>
      rw [executeAll_cons unit i rest hm, List.map_append, ih, List.takeWhile_cons, hm]
      have hx := transaction_execute unit i message
      cases he : (i.execute unit message).2 with
      | none =>
        rw [he] at hx
        simp [← hx]
      | some e =>
        rw [he] at hx
        simp [← hx]

theorem mem_executeAll (i : Image σ) {messages : List (Message σ ρ)} {t : Transaction}
    (h : t ∈ (i.executeAll unit messages).2) : .request t.link t.request ∈ messages := by
  have hmem := List.mem_map_of_mem (f := fun e => (e.link, e.request)) h
  rw [requests_executeAll] at hmem
  obtain ⟨message, hmessage, hown⟩ := List.mem_filterMap.mp hmem
  have hmessage := (List.takeWhile_sublist _).mem hmessage
  cases message with
  | request link frame =>
    simp only [Message.ownRequest?, Option.ite_none_right_eq_some, Option.some.injEq,
      Prod.mk.injEq] at hown
    obtain ⟨-, rfl, rfl⟩ := hown
    exact hmessage
  | _ => cases hown

end Image

namespace DispatchTable

variable {σ : Type}

theorem get?_register (t : DispatchTable σ) (code : UInt8) (handler : Handler σ) :
    (t.register code handler).get? = Function.update t.get? code (some handler) := by
  funext other
  rw [register, get?_set, Function.update_apply]
  exact if_congr eq_comm rfl rfl

theorem get?_unregister (t : DispatchTable σ) (code : UInt8) :
    (t.unregister code).get? = Function.update t.get? code none := by
  funext other
  rw [unregister, get?_set, Function.update_apply]
  exact if_congr eq_comm rfl rfl

theorem ext_get? {t u : DispatchTable σ} (h : t.get? = u.get?) : t = u := by
  obtain ⟨t⟩ := t
  obtain ⟨u⟩ := u
  congr 1
  ext i hi : 1
  have hcode : (UInt8.ofNat i).toNat = i := by
    rw [UInt8.toNat_ofNat']
    omega
  simpa [get?, hcode] using congrFun h (UInt8.ofNat i)

end DispatchTable

def Effect.responses {ρ : Type} : Effect ρ → List (Nat × Frame)
  | .respond link response => [(link, response)]
  | _ => []

namespace Service

variable {σ ρ : Type} (s : Service σ)

def image : Image σ := ⟨s.memory, s.table.get?⟩

theorem eq_of_image {s t : Service σ} (hu : s.unit = t.unit) (hi : s.image = t.image) : s = t := by
  obtain ⟨unit, memory, table⟩ := s
  obtain ⟨_, memory', table'⟩ := t
  simp only [image, Image.mk.injEq] at hi hu
  obtain ⟨hm, ht⟩ := hi
  rw [hu, hm, DispatchTable.ext_get? ht]

/-- Serving a request through the table is one call on the image. -/
theorem serve_eq (request : Frame) :
    let reply := (s.table.serve s.memory request).1
    (⟨reply.memory, reply.state.get?⟩, reply.result) = s.image.reply request := by
  simp only [DispatchTable.serve, DispatchTable.call?, Image.reply, image]
  cases hslot : s.table.get? request.function with
  | none => simp
  | some handler =>
    simp only [Option.map_some]
    cases hresult : (handler.call s.memory request).result with
    | error e => simp [Image.fitted, DispatchTable.get?_register]
    | ok data =>
      by_cases hlong : Frame.maxPdu ≤ data.length
      · have : ¬ data.length ≤ 252 := by
          simp only [Frame.maxPdu] at hlong
          omega
        simp [Image.fitted, hlong, this, DispatchTable.get?_register]
      · have : data.length ≤ 252 := by
          simp only [Frame.maxPdu] at hlong
          omega
        simp [Image.fitted, hlong, this, DispatchTable.get?_register]

variable (level : DecodeLevel) (message : Message σ ρ)

@[simp] theorem unit_handle : (s.handle level message).1.unit = s.unit := by
  cases message with
  | request link request =>
    simp only [handle]
    split <;> rfl
  | _ => rfl

/-- Handling a message is executing it. -/
theorem image_handle :
    (s.handle level message).1.image = (s.image.execute s.unit message).1 := by
  cases message with
  | request link request =>
    by_cases h : request.unit = s.unit
    · simp only [handle, Image.execute, h, if_true, respond]
      exact congrArg Prod.fst (s.serve_eq request)
    · simp [handle, Image.execute, h]
  | register code handler =>
    simp [handle, Image.execute, image, DispatchTable.get?_register]
  | unregister code => simp [handle, Image.execute, image, DispatchTable.get?_unregister]
  | access call run => rfl
  | release link => rfl
  | stop => rfl

theorem responses_handle :
    (s.handle level message).2.1.responses =
      (s.image.execute s.unit message).2.toList.map fun e => (e.link, e.response) := by
  cases message with
  | request link request =>
    by_cases h : request.unit = s.unit
    · simp only [handle, Image.execute, h, if_true, respond, Effect.responses]
      have hreply := congrArg Prod.snd (s.serve_eq request)
      dsimp only at hreply
      simp [hreply]
    · simp [handle, Image.execute, h, Effect.responses]
  | _ => rfl

/-- The level decides what is reported of a message, not what it does. -/
theorem handle_level (l l' : DecodeLevel) :
    (s.handle l message).1 = (s.handle l' message).1 ∧
      (s.handle l message).2.1 = (s.handle l' message).2.1 := by
  cases message with
  | request link frame =>
    simp only [handle]
    split <;> exact ⟨rfl, rfl⟩
  | _ => exact ⟨rfl, rfl⟩

end Service

end ModbusSlave
