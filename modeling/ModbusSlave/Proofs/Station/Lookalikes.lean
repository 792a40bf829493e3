import ModbusSlave.Proofs.Station.Semblance

/-!
# Stations that cannot be told apart

Two stations whose sessions differ in nothing but bytes without meaning do the same things from then
on, whatever happens to both of them: such bytes can be hidden, and nothing else is.
-/
namespace ModbusSlave

/-- Bytes that do not wait in the readers are hidden. -/
def Veil.stale {σ ρ : Type} : Veil σ ρ where
  mutes := false
  blurs := true
  shows _ := true
  keeps _ := true
  traffic h := nomatch h

namespace Session

/-- The sessions differ at most in bytes that do not wait in their readers. -/
structure Same (x y : Session) : Prop where
  link : x.link = y.link
  policy : x.policy = y.policy
  role : x.role = y.role
  phase : x.phase = y.phase
  reader : x.reader.Same y.reader

variable {x y : Session}

theorem Same.fault (h : x.Same y) : x.fault? = y.fault? := by
  rw [Session.fault?, Session.fault?, h.phase]

theorem same_iff_under {σ ρ : Type} {v : Veil σ ρ} (hmutes : v.mutes = false)
    (hblurs : v.blurs = true) : x.Same y ↔ x.under v = y.under v := by
  rw [under, under, SessionPhase.under_of_shown hmutes, SessionPhase.under_of_shown hmutes]
  constructor
  · intro h
    rw [h.link, h.policy, h.role, h.phase, Veil.reader_of_same hblurs h.reader]
  · intro h
    obtain ⟨link, reader, policy, role, phase⟩ := Session.mk.inj h
    exact ⟨link, policy, role, phase, Veil.same_of_reader reader⟩

end Session

namespace Station

variable {σ ρ : Type} {s t : Station σ ρ}

def withSessions (s : Station σ ρ) (sessions : Array Session) : Station σ ρ := { s with sessions }

/-- The stations differ at most in bytes that do not wait in the readers of their sessions. -/
def Same (s t : Station σ ρ) : Prop :=
  ∃ sessions, t = s.withSessions sessions ∧
    ∀ k : Nat, Option.Rel Session.Same s.sessions[k]? sessions[k]?

theorem same_of_alike (h : s.Alike .stale t) : s.Same t := by
  refine ⟨t.sessions, ?_, fun k => ?_⟩
  · have hall (log : Array Event) : log.filter (fun _ => true) = log :=
      Array.filter_eq_self.mpr fun _ _ => rfl
    have hlog : s.log = t.log :=
      (hall s.log).symm.trans ((congrArg Station.log h).trans (hall t.log))
    have hrest := h.rest rfl
    rwa [← hlog, queue_of_keeps (fun _ => rfl) h] at hrest
  · have hk := rel_of_map_eq h.sessions k
    generalize s.sessions[k]? = before at hk
    generalize t.sessions[k]? = after at hk
    cases hk with
    | none => exact .none
    | some hxy => exact .some ((Session.same_iff_under rfl rfl).mpr hxy)

theorem Same.alike (h : s.Same t) : s.Alike .stale t := by
  obtain ⟨sessions, rfl, hsessions⟩ := h
  have hmap : s.sessions.map (Session.under (.stale : Veil σ ρ)) =
      sessions.map (Session.under (.stale : Veil σ ρ)) := by
    apply Array.ext_getElem?
    intro k
    have hk := hsessions k
    rw [Array.getElem?_map, Array.getElem?_map]
    generalize s.sessions[k]? = before at hk
    generalize sessions[k]? = after at hk
    cases hk with
    | none => rfl
    | some hxy => exact congrArg some ((Session.same_iff_under rfl rfl).mp hxy)
  simp only [Alike, under, withSessions, hmap]

theorem Same.refl (s : Station σ ρ) : s.Same s := same_of_alike (.refl s)

theorem same_setSession (h : s.Same t) {x y : Session} (hxy : x.Same y) (k : Nat) :
    (s.setSession k x).Same (t.setSession k y) :=
  same_of_alike (alike_setSession h.alike ((Session.same_iff_under rfl rfl).mp hxy) k)

theorem same_run (h : s.Same t) (actions : List (Action σ ρ)) :
    (s.run actions).Same (t.run actions) := by
  induction actions generalizing s t with
  | nil => exact h
  | cons a rest ih => exact ih (same_of_alike (alike_act_of_keeps (fun _ => rfl) h.alike a))

theorem same_queued (h : s.Same t) (actions : List (Action σ ρ)) :
    t.along queued actions = s.along queued actions := by
  induction actions generalizing s t with
  | nil => rfl
  | cons a rest ih =>
    have hnext := alike_act_of_keeps (fun _ => rfl) h.alike a
    have hqueue := queue_of_keeps (fun _ => rfl) h.alike
    have hqueue' := queue_of_keeps (fun _ => rfl) hnext
    rw [along, along, ih (same_of_alike hnext), queued, queued, hqueue, hqueue']

end Station

end ModbusSlave
