import ModbusSlave.Proofs.Station.Intake
import ModbusSlave.Proofs.Station.Outgoing

/-!
# The integrity of a response stream

What has been put on a link is a first part of the responses that the worker has begun there, and an
open link lacks nothing of them but what the worker still has to send. Once a link has been closed
or released, or a write has broken off, nothing that is begun later gets onto it.
-/
namespace ModbusSlave

namespace Station

variable {σ ρ : Type}

/-- The link is there and closed. -/
def Closed (i : Nat) (s : Station σ ρ) : Prop :=
  ∃ link, s.links[i]? = some link ∧ link.closed = true

/-- The link is closed, or the worker closes it before it does anything else. -/
def Shut (i : Nat) (s : Station σ ρ) : Prop :=
  s.Closed i ∨
    ((∃ link, s.links[i]? = some link) ∧
      ∃ deadline, s.worker.job = .releasing i .entering deadline)

/-- The requests on the link that the worker comes to along a history, with their responses. -/
def answers (i : Nat) (s : Station σ ρ) (actions : List (Action σ ρ)) : List Transaction :=
  (s.image.executeAll s.unit (s.along taken actions)).2.filter (·.link = i)

section

variable {i : Nat} {s t : Station σ ρ} {base total : Bytes}

theorem closed_act {a : Action σ ρ} (h : s.Closed i) : (s.act a).Closed i := by
  obtain ⟨link, on, closed⟩ := h
  obtain ⟨after, hafter, hwanes⟩ := s.wanes_act a link on
  exact ⟨after, hafter, hwanes.closed closed⟩

theorem shut_act {a : Action σ ρ} (h : s.Shut i) : (s.act a).Shut i := by
  rcases h with hclosed | ⟨⟨link, on⟩, deadline, hjob⟩
  · exact .inl (closed_act hclosed)
  · by_cases hworker : a = .step .worker
    · subst hworker
      obtain ⟨-, hsame⟩ | hmove := s.act_worker
      · rw [hsame]
        exact .inr ⟨⟨link, on⟩, deadline, hjob⟩
      · left
        generalize s.act (.step .worker) = t at hmove
        cases hmove with
        | release job known hstep =>
          rw [hjob] at job
          cases job
          cases hstep
          exact ⟨_, links_setLink_self _ known, rfl⟩
        | giveUpRelease job stuck =>
          rw [hjob] at job
          cases job
          rw [on] at stuck
          cases stuck
        | take idle =>
          rw [hjob] at idle
          cases idle
        | write job =>
          rw [hjob] at job
          cases job
        | giveUpWrite job =>
          rw [hjob] at job
          cases job
    · obtain ⟨after, hafter, -⟩ := s.wanes_act a link on
      exact .inr ⟨⟨after, hafter⟩, deadline, (s.job_act hworker).trans hjob⟩

end

end Station

end ModbusSlave
