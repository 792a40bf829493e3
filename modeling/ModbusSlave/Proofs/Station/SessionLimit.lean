import Mathlib.Data.List.Nodup
import ModbusSlave.Station.Tracker

/-!
# What a tracker keeps

A tracker sees its links only when another one comes in; meanwhile any of them may be closed behind
its back. What it remembers is still right about the links that are open: these are all there, and
their number is within the limit. So it always closes the oldest of them, and no more than it has
to.
-/
namespace ModbusSlave

namespace Tracker

/-- The entries whose links are open. -/
def alive (isClosed : Nat → Bool) (entries : List (Nat × Nat)) : List (Nat × Nat) :=
  entries.filter fun entry => !isClosed entry.2

/-- How many of `count` open links have to go before one more fits; it is more than there are if
there is no place at all. -/
def surplus (limit : Option Nat) (count : Nat) : Nat :=
  match limit with
  | none => 0
  | some m => count + 1 - m

section Alive

variable {isClosed isClosed' : Nat → Bool} {entries more : List (Nat × Nat)} {entry : Nat × Nat}

theorem mem_alive :
    entry ∈ alive isClosed entries ↔ entry ∈ entries ∧ isClosed entry.2 = false := by
  simp [alive]

theorem alive_append :
    alive isClosed (entries ++ more) = alive isClosed entries ++ alive isClosed more :=
  List.filter_append ..

theorem alive_alive
    (h : ∀ entry ∈ entries, isClosed entry.2 = true → isClosed' entry.2 = true) :
    alive isClosed' (alive isClosed entries) = alive isClosed' entries := by
  rw [alive, alive, alive, List.filter_filter]
  apply List.filter_congr
  intro entry hentry
  cases hclosed : isClosed entry.2 with
  | false => simp
  | true => simp [h entry hentry hclosed]

end Alive

/-- Those that have to go are the oldest. -/
theorem makeRoom_eq (limit : Nat) (entries : List (Nat × Nat)) :
    makeRoom limit entries =
      (entries.take (entries.length + 1 - limit), entries.drop (entries.length + 1 - limit)) := by
  induction entries with
  | nil => simp [makeRoom]
  | cons oldest rest ih =>
    rw [makeRoom, List.length_cons]
    split
    · next hfull =>
      rw [ih, show rest.length + 1 + 1 - limit = rest.length + 1 - limit + 1 by omega]
      rfl
    · next hroom =>
      rw [show rest.length + 1 + 1 - limit = 0 by omega]
      rfl

theorem add_eq (t : Tracker) (isClosed : Nat → Bool) (link : Nat) :
    let standing := alive isClosed t.sessions
    let count := surplus t.limit standing.length
    t.add isClosed link =
      ({ t with
          nextId := t.nextId + 1
          sessions := standing.drop count ++ [(t.nextId, link)] },
        t.nextId, standing.take count) := by
  obtain ⟨limit, nextId, sessions⟩ := t
  cases limit with
  | none => rfl
  | some m =>
    dsimp only [add, surplus]
    rw [makeRoom_eq]
    rfl

@[simp] theorem add_id (t : Tracker) (isClosed : Nat → Bool) (link : Nat) :
    (t.add isClosed link).2.1 = t.nextId := by
  rw [add_eq]

@[simp] theorem add_limit (t : Tracker) (isClosed : Nat → Bool) (link : Nat) :
    (t.add isClosed link).1.limit = t.limit := by
  rw [add_eq]

/-- What a tracker has been given, oldest first, and what it still knows of it. -/
structure Knows (t : Tracker) (isClosed : Nat → Bool) (added : List (Nat × Nat)) : Prop where
  distinct : (added.map (·.2)).Nodup
  numbered : ∀ entry ∈ added, entry.1 < t.nextId
  given : ∀ entry ∈ t.sessions, entry ∈ added
  tracked : alive isClosed t.sessions = alive isClosed added
  bounded : ∀ m, t.limit = some m → (alive isClosed added).length ≤ max m 1

namespace Knows

variable {t : Tracker} {isClosed isClosed' : Nat → Bool} {added : List (Nat × Nat)}

theorem ofLimit (limit : Option Nat) (isClosed : Nat → Bool) :
    Knows (ofLimit limit) isClosed [] where
  distinct := List.nodup_nil
  numbered := List.forall_mem_nil _
  given := List.forall_mem_nil _
  tracked := rfl
  bounded _ _ := Nat.zero_le _

theorem close (h : Knows t isClosed added)
    (hmore : ∀ entry ∈ added, isClosed entry.2 = true → isClosed' entry.2 = true) :
    Knows t isClosed' added where
  distinct := h.distinct
  numbered := h.numbered
  given := h.given
  tracked := by
    rw [← alive_alive fun entry hentry => hmore entry (h.given entry hentry), h.tracked,
      alive_alive hmore]
  bounded m hm := by
    rw [← alive_alive hmore]
    exact Nat.le_trans (List.length_filter_le _ _) (h.bounded m hm)

theorem gone (h : Knows t isClosed added) (link : Nat) :
    (t.add isClosed link).2.2 =
      (alive isClosed added).take (surplus t.limit (alive isClosed added).length) := by
  rw [add_eq]
  dsimp only
  rw [h.tracked]

/-- Whoever has to go is the oldest of as many open links as there are places, or of one. -/
theorem oldest_of_gone (h : Knows t isClosed added) {m : Nat} (hlimit : t.limit = some m)
    {link : Nat} {entry : Nat × Nat} (hentry : entry ∈ (t.add isClosed link).2.2) :
    ∃ rest, alive isClosed added = entry :: rest ∧ rest.length + 1 = max m 1 := by
  have hbounded := h.bounded m hlimit
  rw [h.gone, hlimit] at hentry
  cases halive : alive isClosed added with
  | nil =>
    rw [halive, List.take_nil] at hentry
    cases hentry
  | cons oldest rest =>
    rw [halive, List.length_cons] at hbounded hentry
    simp only [surplus] at hentry
    cases hcount : rest.length + 1 + 1 - m with
    | zero =>
      rw [hcount] at hentry
      cases hentry
    | succ count =>
      -- no more than one goes, unless there is no place for any
      have hnone : rest.take count = [] := by
        rw [List.take_eq_nil_iff, ← List.length_eq_zero_iff]
        omega
      rw [hcount, List.take_succ_cons, hnone, List.mem_singleton] at hentry
      subst hentry
      exact ⟨rest, rfl, by omega⟩

theorem alive_of_gone (h : Knows t isClosed added) {count : Nat}
    (hgone : ∀ entry ∈ added, isClosed' entry.2 = true ↔
      isClosed entry.2 = true ∨ entry.2 ∈ ((alive isClosed added).take count).map (·.2)) :
    alive isClosed' added = (alive isClosed added).drop count := by
  have hdistinct : ((alive isClosed added).map (·.2)).Nodup :=
    h.distinct.sublist (List.filter_sublist.map _)
  have hsame : alive isClosed' (alive isClosed added) = alive isClosed' added :=
    alive_alive fun entry hentry hclosed => (hgone entry hentry).mpr (.inl hclosed)
  generalize halive : alive isClosed added = standing at *
  rw [← hsame, ← List.take_append_drop count standing, alive_append]
  rw [← List.take_append_drop count standing, List.map_append] at hdistinct
  have hknown : ∀ entry ∈ standing, entry ∈ added ∧ isClosed entry.2 = false := by
    intro entry hentry
    rwa [← halive, mem_alive] at hentry
  have hfront : alive isClosed' (standing.take count) = [] := by
    rw [alive, List.filter_eq_nil_iff]
    intro entry hentry
    have hadded := (hknown entry (List.mem_of_mem_take hentry)).1
    simp [(hgone entry hadded).mpr (.inr (List.mem_map_of_mem hentry))]
  have hback : alive isClosed' (standing.drop count) = standing.drop count := by
    rw [alive, List.filter_eq_self]
    intro entry hentry
    obtain ⟨hadded, hopen⟩ := hknown entry (List.mem_of_mem_drop hentry)
    have hstays : isClosed' entry.2 ≠ true := by
      intro hclosed
      rcases (hgone entry hadded).mp hclosed with hbefore | hfront
      · exact Bool.false_ne_true (hopen.symm.trans hbefore)
      · exact List.disjoint_of_nodup_append hdistinct hfront (List.mem_map_of_mem hentry)
    simpa using hstays
  rw [hfront, hback, List.nil_append, List.take_append_drop]

/-- A link comes in that the tracker has not been given before, and those go that it names. -/
theorem add (h : Knows t isClosed added) {link : Nat} (hfresh : link ∉ added.map (·.2))
    (hgone : ∀ entry ∈ added, isClosed' entry.2 = true ↔
      isClosed entry.2 = true ∨ entry.2 ∈ (t.add isClosed link).2.2.map (·.2)) :
    Knows (t.add isClosed link).1 isClosed' (added ++ [(t.nextId, link)]) := by
  rw [add_eq] at hgone ⊢
  dsimp only at hgone ⊢
  rw [h.tracked] at hgone ⊢
  have halive := h.alive_of_gone hgone
  have hstays : alive isClosed' ((alive isClosed added).drop
      (surplus t.limit (alive isClosed added).length)) = alive isClosed' added := by
    rw [← halive]
    exact alive_alive fun _ _ => id
  constructor
  · rw [List.map_append, List.nodup_append']
    exact ⟨h.distinct, List.nodup_singleton link, by simpa using hfresh⟩
  · intro entry hentry
    rcases List.mem_append.mp hentry with hbefore | hnew
    · exact Nat.lt_succ_of_lt (h.numbered entry hbefore)
    · rw [List.mem_singleton.mp hnew]
      exact Nat.lt_succ_self _
  · intro entry hentry
    rcases List.mem_append.mp hentry with hold | hnew
    · exact List.mem_append_left _ (mem_alive.mp (List.mem_of_mem_drop hold)).1
    · exact List.mem_append_right _ hnew
  · rw [alive_append, alive_append, hstays]
  · intro m hm
    dsimp only at hm
    have hone := List.length_filter_le (fun entry => !isClosed' entry.2) [(t.nextId, link)]
    rw [alive_append, List.length_append, halive, List.length_drop, hm]
    dsimp only [alive, surplus] at hone ⊢
    rw [List.length_singleton] at hone
    omega

theorem clear (h : Knows t isClosed added)
    (hmore : ∀ entry ∈ added, isClosed entry.2 = true → isClosed' entry.2 = true)
    (hall : ∀ entry ∈ t.sessions, isClosed' entry.2 = true) :
    Knows t.clear isClosed' added ∧ alive isClosed' added = [] := by
  have hnone : alive isClosed' added = [] := by
    rw [← alive_alive hmore, ← h.tracked, alive, List.filter_eq_nil_iff]
    intro entry hentry
    simp [hall entry (mem_alive.mp hentry).1]
  refine ⟨⟨h.distinct, h.numbered, List.forall_mem_nil _, hnone.symm, fun m _ => ?_⟩, hnone⟩
  rw [hnone]
  exact Nat.zero_le _

end Knows

inductive Occurrence
  | add (link : Nat)
  /-- A link is closed by someone else. -/
  | close (link : Nat)
  | closeAll
deriving DecidableEq, Repr

/-- The links that are added, in order. -/
def arrivals (history : List Occurrence) : List Nat :=
  history.filterMap fun
    | .add link => some link
    | _ => none

end Tracker

/-- A tracker with the entries of all the links it has been given, oldest first, and with the links
that are closed. -/
structure Roster where
  tracker : Tracker
  added : List (Nat × Nat)
  closed : List Nat

namespace Roster

open Tracker

def ofLimit (limit : Option Nat) : Roster := ⟨.ofLimit limit, [], []⟩

def isClosed (r : Roster) (link : Nat) : Bool := r.closed.contains link

/-- The links that have been added and are open, oldest first. -/
def standing (r : Roster) : List (Nat × Nat) := alive r.isClosed r.added

def step (r : Roster) : Occurrence → Roster
  | .add link =>
    let (tracker, id, gone) := r.tracker.add r.isClosed link
    ⟨tracker, r.added ++ [(id, link)], gone.map (·.2) ++ r.closed⟩
  | .close link => { r with closed := link :: r.closed }
  | .closeAll => ⟨r.tracker.clear, r.added, r.tracker.sessions.map (·.2) ++ r.closed⟩

def run (r : Roster) (history : List Occurrence) : Roster := history.foldl step r

def Known (r : Roster) : Prop := Knows r.tracker r.isClosed r.added

variable {r : Roster} {link : Nat} {history : List Occurrence}

theorem added_step_add (r : Roster) (link : Nat) :
    (r.step (.add link)).added = r.added ++ [(r.tracker.nextId, link)] := by
  rw [← add_id r.tracker r.isClosed link]
  rfl

theorem isClosed_step_add (r : Roster) (link other : Nat) :
    (r.step (.add link)).isClosed other = true ↔
      r.isClosed other = true ∨ other ∈ (r.tracker.add r.isClosed link).2.2.map (·.2) := by
  simp [isClosed, step, or_comm]

theorem Known.add (h : r.Known) (hfresh : link ∉ r.added.map (·.2)) :
    (r.step (.add link)).Known := by
  rw [Known, added_step_add]
  exact Knows.add h hfresh fun entry _ => r.isClosed_step_add link entry.2

theorem Known.close (h : r.Known) (link : Nat) : (r.step (.close link)).Known := by
  apply Knows.close h
  intro entry _ hclosed
  simp only [isClosed, step, List.contains_cons, Bool.or_eq_true] at hclosed ⊢
  exact .inr hclosed

theorem Known.closeAll (h : r.Known) :
    (r.step .closeAll).Known ∧ (r.step .closeAll).standing = [] := by
  apply Knows.clear h
  · intro entry _ hclosed
    simp only [isClosed, step, List.contains_append, Bool.or_eq_true] at hclosed ⊢
    exact .inr hclosed
  · intro entry hentry
    have hmem : entry.2 ∈ r.tracker.sessions.map (·.2) := List.mem_map_of_mem hentry
    simp [isClosed, step, hmem]

theorem Known.step (h : r.Known) {occurrence : Occurrence}
    (hfresh : (r.added.map (·.2) ++ arrivals [occurrence]).Nodup) :
    (r.step occurrence).Known ∧
      (r.step occurrence).added.map (·.2) = r.added.map (·.2) ++ arrivals [occurrence] := by
  cases occurrence with
  | add link =>
    have hnew : link ∉ r.added.map (·.2) := by
      intro hold
      exact List.disjoint_of_nodup_append hfresh hold List.mem_cons_self
    refine ⟨h.add hnew, ?_⟩
    rw [added_step_add, List.map_append]
    rfl
  | close link => exact ⟨h.close link, (List.append_nil _).symm⟩
  | closeAll => exact ⟨h.closeAll.1, (List.append_nil _).symm⟩

@[simp] theorem limit_step (r : Roster) (occurrence : Occurrence) :
    (r.step occurrence).tracker.limit = r.tracker.limit := by
  cases occurrence with
  | add link => exact add_limit r.tracker r.isClosed link
  | close link => rfl
  | closeAll => rfl

@[simp] theorem limit_run (r : Roster) (history : List Occurrence) :
    (r.run history).tracker.limit = r.tracker.limit := by
  induction history generalizing r with
  | nil => rfl
  | cons occurrence later ih => exact (ih _).trans (r.limit_step occurrence)

/-- The tracker stays right, and its links are those that come in. -/
theorem Known.run (h : r.Known) (hfresh : (r.added.map (·.2) ++ arrivals history).Nodup) :
    (r.run history).Known := by
  induction history generalizing r with
  | nil => exact h
  | cons occurrence later ih =>
    rw [show arrivals (occurrence :: later) = arrivals [occurrence] ++ arrivals later from
      List.filterMap_append (l := [occurrence]), ← List.append_assoc] at hfresh
    obtain ⟨hstep, hadded⟩ := h.step hfresh.of_append_left
    rw [← hadded] at hfresh
    exact ih hstep hfresh

/-- The limit of sessions, after any history in which no link comes in twice. Every link that has
come in and is open is tracked, and there are at most as many as the limit says, or one. The next
link gets a number above all others and is not closed itself; the ones that are closed for it are
the oldest that are open, as few as make room. When all are closed, none is open and none is
tracked. -/
theorem run_limited (limit : Option Nat) (history : List Occurrence)
    (hfresh : (arrivals history).Nodup) :
    let r := (ofLimit limit).run history
    (∀ entry ∈ r.added, r.isClosed entry.2 = false → entry ∈ r.tracker.sessions) ∧
    (∀ m, limit = some m → r.standing.length ≤ max m 1) ∧
    (∀ link ∉ r.added.map (·.2),
      let after := r.step (.add link)
      ∃ id count, after.added = r.added ++ [(id, link)] ∧ (∀ entry ∈ r.added, entry.1 < id) ∧
        after.isClosed link = r.isClosed link ∧
        count ≤ r.standing.length ∧
        (∀ other, after.isClosed other = true ↔
          r.isClosed other = true ∨ other ∈ (r.standing.take count).map (·.2)) ∧
        (limit = none → count = 0) ∧
        ∀ m, limit = some m → r.standing.length - count + 1 ≤ max m 1 ∧
          ∀ fewer < count, max m 1 < r.standing.length - fewer + 1) ∧
    (r.step .closeAll).standing = [] ∧ (r.step .closeAll).tracker.sessions = [] := by
  intro r
  have hknown : r.Known := Known.run (.ofLimit limit _) hfresh
  have hlimit : r.tracker.limit = limit := limit_run _ history
  refine ⟨?_, ?_, ?_, hknown.closeAll.2, rfl⟩
  · intro entry hadded hopen
    have halive := mem_alive.mpr ⟨hadded, hopen⟩
    rw [← hknown.tracked] at halive
    exact (mem_alive.mp halive).1
  · intro m hm
    exact hknown.bounded m (hlimit.trans hm)
  · intro link hnew after
    have hgone : (r.tracker.add r.isClosed link).2.2 =
        r.standing.take (min (surplus limit r.standing.length) r.standing.length) := by
      rw [hknown.gone, hlimit, ← standing, List.take_eq_take_min]
    have hclosed := r.isClosed_step_add link
    rw [hgone] at hclosed
    refine ⟨r.tracker.nextId, _, added_step_add r link, hknown.numbered, ?_, Nat.min_le_right _ _,
      hclosed, ?_, ?_⟩
    · rw [Bool.eq_iff_iff, hclosed]
      apply or_iff_left
      intro hstanding
      obtain ⟨entry, hentry, rfl⟩ := List.mem_map.mp hstanding
      have hadded := (mem_alive.mp (List.mem_of_mem_take hentry)).1
      exact hnew (List.mem_map_of_mem hadded)
    · intro hnone
      rw [hnone, surplus, Nat.zero_min]
    · intro m hm
      have hbounded := hknown.bounded m (hlimit.trans hm)
      rw [← standing] at hbounded
      rw [hm]
      dsimp only [surplus]
      constructor
      · omega
      · intro fewer hfewer
        omega

/-- Three places. One link is closed by someone else before the fourth comes in, so that all the
others stay; for the fifth, the oldest has to go. -/
theorem run_limited_three :
    let history : List Occurrence := [.add 10, .add 11, .add 12, .close 11, .add 13]
    let r := (ofLimit (some 3)).run history
    (arrivals history).Nodup ∧ 14 ∉ r.added.map (·.2) ∧ r.standing.length ≤ 3 ∧
      r.standing = [(0, 10), (2, 12), (3, 13)] ∧
      (r.step (.add 14)).isClosed 14 = r.isClosed 14 ∧
      (r.step (.add 14)).standing = [(2, 12), (3, 13), (4, 14)] := by
  intro history r
  have hfresh : (arrivals history).Nodup := by decide
  have hnew : 14 ∉ r.added.map (·.2) := by decide
  obtain ⟨-, hbounded, hadd, -⟩ := run_limited (some 3) history hfresh
  obtain ⟨id, count, -, -, hsame, -⟩ := hadd 14 hnew
  exact ⟨hfresh, hnew, hbounded 3 rfl, by decide, hsame, by decide⟩

end Roster

end ModbusSlave
