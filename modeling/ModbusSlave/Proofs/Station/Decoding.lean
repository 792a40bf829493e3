import ModbusSlave.Proofs.Station.Output
import ModbusSlave.Proofs.Station.Semblance

/-!
# Decoding is observation

However the decode level is changed in the course of a history, a station does the same: the levels
decide which lines about traffic are written to the log, and about nothing else.
-/
namespace ModbusSlave

/-- Decode levels are hidden, and so is what the log says of traffic. -/
def Veil.decoding {σ ρ : Type} : Veil σ ρ where
  mutes := true
  blurs := false
  shows e := !e.isTraffic
  keeps _ := true
  traffic _ e h := by rw [h]; rfl

/-- The action as it is without its decode level; a change of the level is none. -/
def Action.undecoded? {σ ρ : Type} : Action σ ρ → Option (Action σ ρ)
  | .setLevel _ => none
  | .write link bytes _ => some (.write link bytes .nothing)
  | a => some a

namespace Station

variable {σ ρ : Type} {s t : Station σ ρ}

/-- The stations differ at most in decode levels and in what their logs say of traffic. -/
structure SameButDecoding (s t : Station σ ρ) : Prop where
  now : s.now = t.now
  links : s.links = t.links
  sessions : s.sessions.map (fun x => (x.link, x.reader, x.policy, x.role, x.fault?)) =
    t.sessions.map fun x => (x.link, x.reader, x.policy, x.role, x.fault?)
  writers : s.writers.map (fun w => (w.write.link, w.write.bytes, w.write.stage, w.result)) =
    t.writers.map fun w => (w.write.link, w.write.bytes, w.write.stage, w.result)
  service : s.worker.service = t.worker.service
  queue : s.worker.queue = t.worker.queue
  calls : s.calls = t.calls
  listeners : s.listeners = t.listeners
  ports : s.ports = t.ports
  closing : s.closing = t.closing
  log : s.log.filter (!·.isTraffic) = t.log.filter (!·.isTraffic)

theorem queue_of_alike (h : s.Alike .decoding t) : t.worker.queue = s.worker.queue :=
  queue_of_keeps (fun _ => rfl) h

theorem sameButDecoding_of_alike (h : s.Alike .decoding t) : s.SameButDecoding t where
  now := h.now.symm
  links := h.links.symm
  sessions := (h.map_sessions fun x => by rw [x.fault?_under]; rfl).symm
  writers := (h.map_writers fun _ => rfl).symm
  service := h.service.symm
  queue := (queue_of_alike h).symm
  calls := h.calls.symm
  listeners := h.listeners.symm
  ports := h.ports.symm
  closing := h.closing.symm
  log := congrArg Station.log h

theorem alike_undecoded (h : s.Alike .decoding t) {a : Action σ ρ} (ha : a.undecoded? = none) :
    (s.act a).Alike .decoding t := by
  cases a with
  | setLevel level =>
    have hsame : (s.act (.setLevel level)).Alike .decoding { s with level := s.level } :=
      alike_setLevel (.refl s) rfl
    exact hsame.trans h
  | _ => cases ha

theorem alike_act_undecoded (h : s.Alike .decoding t) {a b : Action σ ρ}
    (ha : a.undecoded? = some b) : (s.act a).Alike .decoding (t.act b) := by
  have hsame := alike_act_of_keeps (fun _ => rfl) h
  cases a with
  | setLevel level => cases ha
  | write i bytes level =>
    cases ha
    exact alike_write h i bytes rfl
  | _ =>
    cases ha
    exact hsame _

theorem alike_run_undecoded (h : s.Alike .decoding t) (history : List (Action σ ρ)) :
    (s.run history).Alike .decoding (t.run (history.filterMap Action.undecoded?)) := by
  induction history generalizing s t with
  | nil => exact h
  | cons a rest ih =>
    cases ha : a.undecoded? with
    | none =>
      rw [List.filterMap_cons_none ha]
      exact ih (alike_undecoded h ha)
    | some b =>
      rw [List.filterMap_cons_some ha]
      exact ih (alike_act_undecoded h ha)

/-- What is seen of a station along a history does not depend on levels, if it does not depend on
them in any action. -/
theorem along_undecoded {α : Type} {see : Station σ ρ → Action σ ρ → List α}
    (hsame : ∀ {s t : Station σ ρ} {a b : Action σ ρ}, s.Alike .decoding t →
      a.undecoded? = some b → see s a = see t b)
    (hnone : ∀ (s : Station σ ρ) {a : Action σ ρ}, a.undecoded? = none → see s a = [])
    (h : s.Alike .decoding t) (history : List (Action σ ρ)) :
    s.along see history = t.along see (history.filterMap Action.undecoded?) := by
  induction history generalizing s t with
  | nil => rfl
  | cons a rest ih =>
    cases ha : a.undecoded? with
    | none =>
      rw [List.filterMap_cons_none ha, along, hnone s ha, List.nil_append]
      exact ih (alike_undecoded h ha)
    | some b =>
      rw [List.filterMap_cons_some ha, along, along, hsame h ha, ih (alike_act_undecoded h ha)]

theorem queued_undecoded (h : s.Alike .decoding t) (history : List (Action σ ρ)) :
    s.along queued history = t.along queued (history.filterMap Action.undecoded?) := by
  apply along_undecoded _ _ h
  · intro s t a b h ha
    rw [queued, queued, queue_of_alike h, queue_of_alike (alike_act_undecoded h ha)]
  · intro s a ha
    rw [queued, queue_of_alike (alike_undecoded (.refl s) ha).symm, List.drop_length]

theorem outputOn_undecoded (h : s.Alike .decoding t) (i : Nat) (history : List (Action σ ρ)) :
    outputOn i act s history = outputOn i act t (history.filterMap Action.undecoded?) := by
  rw [outputOn_act, outputOn_act]
  apply along_undecoded _ _ h
  · intro s t a b h ha
    have hafter := alike_act_undecoded h ha
    exact (newOn_congr h.links hafter.links hafter.now).symm
  · intro s a ha
    exact newOn_of_links (alike_undecoded (.refl s) ha).symm.links

/-- However the decode level is changed in the course of two histories that are otherwise the same,
the stations are the same in the end but for what was logged of traffic: their sessions have handed
over the same frames and met the same faults, their services have done the same, and the same has
been put on every link at the same times. -/
theorem decoding_observes (h : s.Alike .decoding t) {history history' : List (Action σ ρ)}
    (hsame : history.filterMap Action.undecoded? = history'.filterMap Action.undecoded?) :
    (s.run history).Alike .decoding (t.run history') ∧
      (s.run history).SameButDecoding (t.run history') ∧
      s.along queued history = t.along queued history' ∧
      ∀ i, outputOn i act s history = outputOn i act t history' := by
  have hleft := alike_run_undecoded h history
  have hright := alike_run_undecoded (.refl t) history'
  rw [hsame] at hleft
  have hend := hleft.trans hright.symm
  refine ⟨hend, sameButDecoding_of_alike hend, ?_, fun i => ?_⟩
  · rw [queued_undecoded h, hsame, ← queued_undecoded (.refl t)]
  · rw [outputOn_undecoded h, hsame, ← outputOn_undecoded (.refl t)]

def twoReaders : Station Unit Unit :=
  let s : Station Unit Unit := .ofSettings ⟨⟨1⟩, .uniform 2, .ofSeconds 1, none, .nothing⟩
  { s with
    links := #[.fresh 16 16 false none, .fresh 16 16 true none]
    sessions := #[⟨0, ⟨.mbap .start, .ofCapacity 12⟩, .close, .bare, .parsing none⟩,
      ⟨1, ⟨.rtu .start, .ofCapacity 8⟩, .discard, .port "line", .parsing none⟩] }

/-- One request arrives on each of two links, in two parts. The decode level is set before and
between them. -/
def decodedAt (first second : DecodeLevel) : List (Action Unit Unit) :=
  let turns (part : Part) (n : Nat) : List (Action Unit Unit) := List.replicate n (.step part)
  [.setLevel first, .arrive 0 [0x00, 0x07, 0x00, 0x00, 0x00, 0x06, 0x01, 0x03],
    .arrive 1 [0x01, 0x03]] ++
  turns (.session 0) 3 ++ turns (.session 1) 3 ++
  [.setLevel second, .arrive 0 [0x00, 0x00, 0x00, 0x01],
    .arrive 1 [0x00, 0x00, 0x00, 0x01, 0x84, 0x0A]] ++
  turns (.session 0) 2 ++ turns (.session 1) 2 ++ turns .worker 10

/-- The logs differ, and both requests are answered. -/
theorem decoding_observes_halved :
    let loud := decodedAt .nothing .everything
    let quiet := decodedAt .everything .nothing
    (twoReaders.run loud).SameButDecoding (twoReaders.run quiet) ∧
      (twoReaders.run loud).log ≠ (twoReaders.run quiet).log ∧
      (outputOn 0 act twoReaders loud).map (·.2.length) = [11] ∧
      (outputOn 1 act twoReaders quiet).map (·.2.length) = [7] := by
  intro loud quiet
  have hsame : loud.filterMap Action.undecoded? = quiet.filterMap Action.undecoded? := rfl
  obtain ⟨-, hend, -, -⟩ := decoding_observes (.refl twoReaders) hsame
  exact ⟨hend, by decide +kernel, by decide +kernel, by decide +kernel⟩

end Station

end ModbusSlave
