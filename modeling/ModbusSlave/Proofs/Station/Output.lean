import ModbusSlave.Proofs.Station.Outgoing

/-!
# Output and its times

What is put on a link in the course of a history, piece by piece, each with the tick at which it is
put there. Nothing that has been put on a link is ever taken back, so the pieces make up all that is
new on the link.
-/
namespace ModbusSlave

def Link.Grows (before after : Link) : Prop := before.sent <+: after.sent

theorem Link.grows_of_sent {before after : Link} (h : after.sent = before.sent) :
    before.Grows after :=
  ⟨[], by rw [List.append_nil, h]⟩

theorem Link.Retains.grows {before after : Link} (h : before.Retains after) :
    before.Grows after :=
  grows_of_sent h.sent

theorem Link.Grows.lasts : Link.Lasts Link.Grows where
  refl _ := List.prefix_rfl
  trans := List.IsPrefix.trans
  closed link closed := (retains_closed link closed).grows
  release link party := (Retains.lasts.release link party).grows
  shutdown h := (retains_of_shutdownStep h).grows
  incoming link incoming := (Retains.lasts.incoming link incoming).grows
  collected h := (Retains.lasts.collected h).grows
  deafened link := (Retains.lasts.deafened link).grows
  broken link kind := (Retains.lasts.broken link kind).grows

theorem grows_of_writeStep {write : Write} {party : Party} {now : Nat} {link : Link}
    {step : WriteStep} (h : write.step? party now link = some step) : link.Grows step.link := by
  cases Write.sends_of_step? h with
  | on sent grows => exact grows
  | done sent => exact Link.grows_of_sent sent
  | failed sent => exact Link.grows_of_sent sent

namespace Station

variable {σ ρ : Type}

/-- All that has been put on the link `i`. -/
def sentOn (s : Station σ ρ) (i : Nat) : Bytes := (s.links[i]?.map Link.sent).getD []

/-- What is new on the link `i`, and when. -/
def newOn (i : Nat) (s t : Station σ ρ) : List (Nat × Bytes) :=
  if t.sentOn i = s.sentOn i then [] else [(t.now, (t.sentOn i).drop (s.sentOn i).length)]

/-- What is put on the link `i`, piece by piece, while `step` is taken for each action. -/
def outputOn (i : Nat) (step : Station σ ρ → Action σ ρ → Station σ ρ) :
    Station σ ρ → List (Action σ ρ) → List (Nat × Bytes)
  | _, [] => []
  | s, a :: rest => newOn i s (step s a) ++ outputOn i step (step s a) rest

variable {s t s' t' : Station σ ρ} {i : Nat}

theorem outputOn_act (s : Station σ ρ) (history : List (Action σ ρ)) :
    outputOn i act s history = s.along (fun s a => newOn i s (s.act a)) history := by
  induction history generalizing s with
  | nil => rfl
  | cons a rest ih => rw [outputOn, along, ih]

theorem newOn_of_links (h : t.links = s.links) : newOn i s t = [] := by
  rw [newOn, sentOn, sentOn, h, if_pos rfl]

theorem newOn_congr (hlinks : s'.links = s.links) (hafter : t'.links = t.links)
    (hnow : t'.now = t.now) : newOn i s' t' = newOn i s t := by
  rw [newOn, sentOn, sentOn, hlinks, hafter, hnow]
  rfl

theorem sentOn_act (s : Station σ ρ) (a : Action σ ρ) :
    (s.act a).sentOn i = s.sentOn i ++ (newOn i s (s.act a)).flatMap (·.2) := by
  have hgrows : s.sentOn i <+: (s.act a).sentOn i := by
    cases hlink : s.links[i]? with
    | none =>
      rw [sentOn, hlink]
      exact List.nil_prefix
    | some link =>
      obtain ⟨after, hafter, hsent⟩ :=
        becomes_act_of_writes Link.Grows.lasts grows_of_writeStep s a link hlink
      rw [sentOn, sentOn, hlink, hafter]
      exact hsent
  obtain ⟨new, hnew⟩ := hgrows
  rw [newOn]
  split
  · next hsame => rw [hsame, List.flatMap_nil, List.append_nil]
  · rw [← hnew, List.drop_left, List.flatMap_singleton]

/-- The pieces make up what is new on the link. -/
theorem sentOn_run (s : Station σ ρ) (history : List (Action σ ρ)) :
    (s.run history).sentOn i = s.sentOn i ++ (outputOn i act s history).flatMap (·.2) := by
  induction history generalizing s with
  | nil => exact (List.append_nil _).symm
  | cons a rest ih =>
    rw [run_cons, ih, sentOn_act, outputOn, List.flatMap_append, List.append_assoc]

end Station

end ModbusSlave
