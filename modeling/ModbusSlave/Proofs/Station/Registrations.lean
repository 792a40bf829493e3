import Mathlib.Data.List.Induction
import ModbusSlave.Proofs.Service.RegisterFile
import ModbusSlave.Proofs.Station.Linearization

/-!
# Registrations

Which handler a request finds, and in which state. A slot changes hands only by a registration or a
removal for its own code. In between, its handler goes on from the state that its last call has
left, whatever becomes of the other slots and of the memory.
-/
namespace ModbusSlave

variable {σ ρ : Type}

namespace Handler

/-- The handler behind calls, each with the memory that it found. -/
def afterCalls (handler : Handler σ) (calls : List (Memory × Frame)) : Handler σ :=
  calls.foldl (fun handler call => (handler.call call.1 call.2).state) handler

theorem afterCalls_standard (f : StandardFunction) (calls : List (Memory × Frame)) :
    (standard f : Handler σ).afterCalls calls = standard f := by
  induction calls with
  | nil => rfl
  | cons call calls ih =>
    have hstate : ((standard f : Handler σ).call call.1 call.2).state = standard f := rfl
    rwa [afterCalls, List.foldl_cons, hstate]

/-- Any other handler keeps its step, and its state goes through the calls in their order. -/
theorem afterCalls_custom (state : σ) (step : σ → Memory → Frame → Reply σ)
    (calls : List (Memory × Frame)) :
    (custom state step).afterCalls calls =
      custom (calls.foldl (fun state call => (step state call.1 call.2).state) state) step := by
  induction calls generalizing state with
  | nil => rfl
  | cons call calls ih => exact ih _

theorem afterCalls_append (handler : Handler σ) (front back : List (Memory × Frame)) :
    handler.afterCalls (front ++ back) = (handler.afterCalls front).afterCalls back := by
  simp [afterCalls]

end Handler

namespace Message

def code? : Message σ ρ → Option UInt8
  | .request _ frame => some frame.function
  | .register code _ | .unregister code => some code
  | _ => none

/-- A message that puts a handler into the slot of `code`, or leaves it empty. -/
def sets (code : UInt8) : Message σ ρ → Bool
  | .register other _ | .unregister other => other == code
  | _ => false

end Message

/-- What the slot of `code` holds where a history has just set it, or has not begun yet. -/
inductive Assigned (code : UInt8) : List (Message σ ρ) → Option (Handler σ) → Prop
  | standard : Assigned code [] ((StandardFunction.ofCode? code).map .standard)
  | registered (front : List (Message σ ρ)) (handler : Handler σ) :
      Assigned code (front ++ [.register code handler]) (some handler)
  | removed (front : List (Message σ ρ)) : Assigned code (front ++ [.unregister code]) none

/-- In every history there is a last message that sets the slot, or there is none. -/
theorem exists_assigned (code : UInt8) (messages : List (Message σ ρ)) :
    ∃ front back slot, messages = front ++ back ∧ Assigned code front slot ∧
      ∀ message ∈ back, message.sets code = false := by
  induction messages using List.reverseRecOn with
  | nil => exact ⟨[], [], _, rfl, .standard, by simp⟩
  | append_singleton messages message ih =>
    cases hsets : message.sets code with
    | false =>
      obtain ⟨front, back, slot, rfl, hfront, hback⟩ := ih
      refine ⟨front, back ++ [message], slot, by simp, hfront, ?_⟩
      simpa [or_imp, forall_and, hsets] using hback
    | true =>
      cases message with
      | register other handler =>
        obtain rfl : other = code := by simpa [Message.sets] using hsets
        exact ⟨_, [], _, by simp, .registered messages handler, by simp⟩
      | unregister other =>
        obtain rfl : other = code := by simpa [Message.sets] using hsets
        exact ⟨_, [], _, by simp, .removed messages, by simp⟩
      | _ => simp [Message.sets] at hsets

namespace Image

variable {i : Image σ} {request : Frame}

theorem reply_of_none (h : i.handlers request.function = none) :
    i.reply request = (i, .error .illegalFunction) := by
  simp only [reply, h]

theorem reply_of_some {handler : Handler σ} (h : i.handlers request.function = some handler) :
    let reply := handler.call i.memory request
    i.reply request =
      (⟨reply.memory, Function.update i.handlers request.function (some reply.state)⟩,
        fitted reply.result) := by
  simp only [reply, h]

theorem handlers_reply (i : Image σ) (request : Frame) :
    (i.reply request).1.handlers = Function.update i.handlers request.function
      ((i.handlers request.function).map fun handler =>
        (handler.call i.memory request).state) := by
  cases hslot : i.handlers request.function with
  | none => rw [reply_of_none hslot, Option.map_none, ← hslot, Function.update_eq_self]
  | some handler => rw [reply_of_some hslot, Option.map_some]

end Image

namespace Service

/-- The service behind messages. -/
def behind (s : Service σ) (level : DecodeLevel) (messages : List (Message σ ρ)) : Service σ :=
  messages.foldl (fun s message => (s.handle level message).1) s

/-- The call that a message makes of the handler for `code`, with the memory that it finds. -/
def call? (s : Service σ) (code : UInt8) : Message σ ρ → Option (Memory × Frame)
  | .request _ frame =>
    if frame.unit = s.unit ∧ frame.function = code then some (s.memory, frame) else none
  | _ => none

/-- The calls that messages make of the handler for `code`, in their order. -/
def calls (level : DecodeLevel) (code : UInt8) :
    Service σ → List (Message σ ρ) → List (Memory × Frame)
  | _, [] => []
  | s, message :: rest =>
    (s.call? code message).toList ++ calls level code (s.handle level message).1 rest

variable (s : Service σ) (level : DecodeLevel)

theorem behind_append (front back : List (Message σ ρ)) :
    s.behind level (front ++ back) = (s.behind level front).behind level back := by
  simp [behind]

@[simp] theorem unit_behind (messages : List (Message σ ρ)) :
    (s.behind level messages).unit = s.unit := by
  induction messages generalizing s with
  | nil => rfl
  | cons message rest ih => exact (ih _).trans (s.unit_handle level message)

theorem get?_handle (message : Message σ ρ) :
    (s.handle level message).1.table.get? = (s.image.execute s.unit message).1.handlers :=
  congrArg Image.handlers (s.image_handle level message)

theorem get?_handle_of_code? {message : Message σ ρ} {other : UInt8}
    (h : message.code? ≠ some other) :
    (s.handle level message).1.table.get? other = s.table.get? other := by
  rw [get?_handle]
  cases message with
  | request link frame =>
    have hne : other ≠ frame.function := fun heq => h (congrArg some heq.symm)
    simp only [Image.execute]
    split
    · simp [Image.handlers_reply, hne, image]
    · rfl
  | register code handler =>
    have hne : other ≠ code := fun heq => h (congrArg some heq.symm)
    simp [Image.execute, hne, image]
  | unregister code =>
    have hne : other ≠ code := fun heq => h (congrArg some heq.symm)
    simp [Image.execute, hne, image]
  | _ => rfl

/-- A message that does not set the slot calls its handler, or leaves it alone. -/
theorem get?_handle_of_sets {message : Message σ ρ} {code : UInt8}
    (h : message.sets code = false) :
    (s.handle level message).1.table.get? code =
      (s.table.get? code).map (·.afterCalls (s.call? code message).toList) := by
  by_cases hcode : message.code? = some code
  · cases message with
    | request link frame =>
      obtain rfl : frame.function = code := Option.some.inj hcode
      by_cases hunit : frame.unit = s.unit
      · simp [get?_handle, Image.execute, Image.handlers_reply, call?, hunit, image,
          Handler.afterCalls]
      · simp [get?_handle, Image.execute, call?, hunit, image, Handler.afterCalls]
    | register other handler => simp_all [Message.sets, Message.code?]
    | unregister other => simp_all [Message.sets, Message.code?]
    | _ => cases hcode
  · have hnone : s.call? code message = none := by
      cases message with
      | request link frame => simp_all [call?, Message.code?]
      | _ => rfl
    simp [get?_handle_of_code? s level hcode, hnone, Handler.afterCalls]

/-- As long as no message sets the slot, its handler goes on from call to call. -/
theorem get?_behind {messages : List (Message σ ρ)} {code : UInt8}
    (h : ∀ message ∈ messages, message.sets code = false) :
    (s.behind level messages).table.get? code =
      (s.table.get? code).map (·.afterCalls (s.calls level code messages)) := by
  induction messages generalizing s with
  | nil => simp [behind, calls, Handler.afterCalls]
  | cons message rest ih =>
    have hhead := get?_handle_of_sets s level (h message List.mem_cons_self)
    have htail := ih (s.handle level message).1 fun m hm => h m (List.mem_cons_of_mem message hm)
    rw [hhead, Option.map_map] at htail
    rw [calls]
    simp only [Handler.afterCalls_append]
    exact htail

theorem get?_behind_of_assigned (unit : UnitId) (m : Memory) {code : UInt8}
    {front : List (Message σ ρ)} {slot : Option (Handler σ)} (h : Assigned code front slot) :
    ((standard unit m : Service σ).behind level front).table.get? code = slot := by
  cases h with
  | standard => exact DispatchTable.get?_standard code
  | registered front handler => simp [behind, handle, DispatchTable.get?_register]
  | removed front => simp [behind, handle, DispatchTable.get?_unregister]

section

variable {request : Frame} (link : Nat) (own : request.unit = s.unit)
include own

theorem effect_handle_request :
    (s.handle level (.request link request : Message σ ρ)).2.1 =
      .respond link (request.answer (s.image.reply request).2) := by
  have hreply := congrArg Prod.snd (s.serve_eq request)
  dsimp only at hreply
  simp [handle, own, respond, hreply]

theorem image_handle_request :
    (s.handle level (.request link request : Message σ ρ)).1.image =
      (s.image.reply request).1 := by
  rw [image_handle, Image.execute, if_pos own]

theorem handle_request_of_none (h : s.table.get? request.function = none) :
    let outcome := s.handle level (.request link request : Message σ ρ)
    outcome.1 = s ∧ outcome.2.1 = .respond link (request.withException .illegalFunction) := by
  intro outcome
  have himage : outcome.1.image = (s.image.reply request).1 := s.image_handle_request level link own
  have heffect := s.effect_handle_request (ρ := ρ) level link own
  rw [Image.reply_of_none h] at himage heffect
  exact ⟨eq_of_image (s.unit_handle level _) himage, heffect⟩

theorem handle_request_of_some {handler : Handler σ}
    (h : s.table.get? request.function = some handler) :
    let outcome := s.handle level (.request link request : Message σ ρ)
    let reply := handler.call s.memory request
    outcome.2.1 = .respond link (request.answer (Image.fitted reply.result)) ∧
      outcome.1.memory = reply.memory ∧
      outcome.1.table.get? request.function = some reply.state := by
  intro outcome reply
  have himage : outcome.1.image = (s.image.reply request).1 := s.image_handle_request level link own
  have heffect := s.effect_handle_request (ρ := ρ) level link own
  rw [Image.reply_of_some h] at himage heffect
  refine ⟨heffect, congrArg Image.memory himage, ?_⟩
  have hslot : outcome.1.table.get? = Function.update s.table.get? request.function reply.state :=
    congrArg Image.handlers himage
  rw [hslot, Function.update_self]

end

end Service

/-- What a station makes of its service is what the messages taken make of it. -/
theorem Station.service_run (s : Station σ ρ) (level : DecodeLevel) (actions : List (Action σ ρ)) :
    (s.run actions).worker.service = s.worker.service.behind level (s.along taken actions) := by
  induction actions generalizing s with
  | nil => rfl
  | cons a rest ih =>
    rw [run_cons, along, ih, Service.behind_append]
    congr 1
    obtain h | ⟨message, queue, h⟩ := s.keeps_or_takes a
    · simp [h.service, h.taken, Service.behind]
    · have hsame := (s.worker.service.handle_level message s.level level).1
      simp [h.worker, h.taken, Service.behind, hsame]

namespace Service

/-- From the standard functions on, a request finds the handler that the last registration for its
code has brought, as the calls since then have left it, unless the slot has been emptied since. A
message leaves every slot alone but the one of its own code. A station that starts with the same
service is no different, whatever else happens to it. -/
theorem latest_registration_serves (unit : UnitId) (m : Memory) (level : DecodeLevel)
    (messages : List (Message σ ρ)) (code : UInt8) :
    let s : Service σ := standard unit m
    let found := s.behind level messages
    (∃ front back slot, messages = front ++ back ∧ Assigned code front slot ∧
      ∀ message ∈ back, message.sets code = false) ∧
    (∀ front back slot, messages = front ++ back → Assigned code front slot →
      (∀ message ∈ back, message.sets code = false) →
      let calls := (s.behind level front).calls level code back
      found.table.get? code = slot.map (·.afterCalls calls) ∧
      (∀ f, slot = some (.standard f) → found.table.get? code = some (.standard f)) ∧
      (∀ state step, slot = some (.custom state step) →
        let now := calls.foldl (fun state call => (step state call.1 call.2).state) state
        found.table.get? code = some (.custom now step)) ∧
      ∀ link request, request.unit = unit → request.function = code →
        let outcome := found.handle level (.request link request : Message σ ρ)
        (slot = none →
          outcome.1 = found ∧
            outcome.2.1 = .respond link (request.withException .illegalFunction)) ∧
        ∀ handler, slot = some handler →
          let reply := (handler.afterCalls calls).call found.memory request
          outcome.2.1 = .respond link (request.answer (Image.fitted reply.result)) ∧
            outcome.1.memory = reply.memory ∧
            outcome.1.table.get? code = some reply.state) ∧
    (∀ (message : Message σ ρ) (other : UInt8), message.code? ≠ some other →
      (found.handle level message).1.table.get? other = found.table.get? other) ∧
    ∀ (station : Station σ ρ) (actions : List (Action σ ρ)), station.worker.service = s →
      station.along Station.taken actions = messages →
        (station.run actions).worker.service = found := by
  intro s found
  refine ⟨exists_assigned code messages, ?_, ?_, ?_⟩
  · intro front back slot hmessages hfront hback calls
    have hslot : found.table.get? code = slot.map (·.afterCalls calls) := by
      simp only [found, hmessages, behind_append]
      rw [get?_behind _ _ hback, get?_behind_of_assigned level unit m hfront]
    refine ⟨hslot, ?_, ?_, ?_⟩
    · rintro f rfl
      rw [hslot, Option.map_some, Handler.afterCalls_standard]
    · rintro state step rfl now
      rw [hslot, Option.map_some, Handler.afterCalls_custom]
    · rintro link request hunit rfl outcome
      have own : request.unit = found.unit := hunit.trans (s.unit_behind level messages).symm
      refine ⟨?_, ?_⟩
      · rintro rfl
        exact found.handle_request_of_none level link own hslot
      · rintro handler rfl
        exact found.handle_request_of_some level link own hslot
  · intro message other hother
    exact found.get?_handle_of_code? level hother
  · intro station actions hservice htaken
    rw [station.service_run level, hservice, htaken]

/-- A handler that counts its calls is registered again and starts again, and a call for another
code goes past it. -/
example :
    let count : Handler Nat := .custom 0 fun calls m _ => ⟨calls + 1, m, .ok [UInt8.ofNat calls]⟩
    let ask (code : UInt8) : Message Nat Unit := .request 0 ⟨.rtu, ⟨1⟩, code, []⟩
    let messages := [.register 0x41 count, ask 0x41, ask 0x41, .register 0x41 count, ask 0x41,
      .register 0x42 count, ask 0x42, .unregister 0x03]
    let found := (standard ⟨1⟩ (.ofCapacity (.uniform 2))).behind .nothing messages
    (found.handle .nothing (ask 0x41)).2.1.responses = [(0, ⟨.rtu, ⟨1⟩, 0x41, [1]⟩)] := by
  decide +kernel

end Service

end ModbusSlave
