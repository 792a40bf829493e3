import Mathlib.Data.List.TakeWhile
import ModbusSlave.Proofs.Station.Acceptance
import ModbusSlave.Proofs.Station.Turns

/-!
# What a client is answered

A client sends requests and then something that is no request. Its session submits the requests in
their order and one release behind them, unless it is told to stop before; and if the link is still
open when the release is its turn, the client has got the responses to all of them, and then the end
of the stream.
-/
namespace ModbusSlave

def Message.isRelease {σ ρ : Type} (i : Nat) : Message σ ρ → Bool
  | .release k => k = i
  | _ => false

namespace Station

variable {σ ρ : Type} {i j : Nat} {s : Station σ ρ} {arrived : Bytes}
  {said : List (Message σ ρ)} {actions : List (Action σ ρ)}

/-- The link `i` is open and the service runs as long as no release of the link has been seen. -/
def OpenUntil (see : Station σ ρ → Action σ ρ → List (Message σ ρ)) (i : Nat) (s : Station σ ρ)
    (actions : List (Action σ ρ)) : Prop :=
  ∀ front back, actions = front ++ back → .release i ∉ s.along see front →
    (s.run front).isClosed i = false ∧ (s.run front).stopped = false

theorem release_mem_iff {messages : List (Message σ ρ)} :
    .release i ∈ messages ↔ messages.any (·.isRelease i) = true := by
  rw [List.any_eq_true]
  constructor
  · intro h
    exact ⟨.release i, h, decide_eq_true rfl⟩
  · rintro ⟨message, hmessage, hrelease⟩
    cases message with
    | release k =>
      obtain rfl := of_decide_eq_true hrelease
      exact hmessage
    | _ => cases hrelease

theorem openUntil_nil {see : Station σ ρ → Action σ ρ → List (Message σ ρ)} :
    s.OpenUntil see i [] ↔ s.isClosed i = false ∧ s.stopped = false := by
  constructor
  · intro h
    exact h [] [] rfl List.not_mem_nil
  · intro h front back hsplit _
    obtain ⟨rfl, rfl⟩ := List.append_eq_nil_iff.mp hsplit.symm
    exact h

theorem openUntil_cons {see : Station σ ρ → Action σ ρ → List (Message σ ρ)} {a : Action σ ρ}
    {rest : List (Action σ ρ)} :
    s.OpenUntil see i (a :: rest) ↔ (s.isClosed i = false ∧ s.stopped = false) ∧
      ((see s a).any (·.isRelease i) = false → (s.act a).OpenUntil see i rest) := by
  constructor
  · intro h
    refine ⟨h [] _ rfl List.not_mem_nil, ?_⟩
    intro hnow front back hsplit hrelease
    apply h (a :: front) back (by rw [hsplit, List.cons_append])
    rw [along, List.mem_append, release_mem_iff, hnow]
    exact fun hor => hor.elim Bool.false_ne_true hrelease
  · rintro ⟨hnow, hlater⟩ front back hsplit hrelease
    cases front with
    | nil => exact hnow
    | cons b front =>
      obtain ⟨rfl, hrest⟩ := List.cons.inj hsplit
      rw [along, List.mem_append, not_or, release_mem_iff, Bool.not_eq_true] at hrelease
      exact hlater hrelease.1 front back hrest hrelease.2

/-- Whether the link stays open can be found out along the way. -/
def decideOpenUntil (see : Station σ ρ → Action σ ρ → List (Message σ ρ)) (i : Nat) :
    (actions : List (Action σ ρ)) → (s : Station σ ρ) → Decidable (s.OpenUntil see i actions)
  | [], _ => decidable_of_iff _ openUntil_nil.symm
  | a :: rest, s =>
    have := decideOpenUntil see i rest (s.act a)
    decidable_of_iff _ openUntil_cons.symm

instance (see : Station σ ρ → Action σ ρ → List (Message σ ρ)) (i : Nat) (s : Station σ ρ)
    (actions : List (Action σ ρ)) : Decidable (s.OpenUntil see i actions) :=
  decideOpenUntil see i actions s

theorem OpenUntil.front {see : Station σ ρ → Action σ ρ → List (Message σ ρ)}
    {front back : List (Action σ ρ)} (h : s.OpenUntil see i (front ++ back)) :
    s.OpenUntil see i front := by
  intro first second hsplit hrelease
  apply h first (second ++ back) _ hrelease
  rw [hsplit, List.append_assoc]

theorem along_spoken (s : Station σ ρ) (actions : List (Action σ ρ)) :
    s.along (spoken i) actions = (s.along queued actions).filter (·.link? = some i) := by
  induction actions generalizing s with
  | nil => rfl
  | cons a rest ih => rw [along, along, List.filter_append, ih, spoken]

theorem release_notMem_requests (frames : List Frame) :
    (.release i : Message σ ρ) ∉ frames.map (.request i) := by
  intro h
  obtain ⟨frame, -, hframe⟩ := List.mem_map.mp h
  cases hframe

theorem live_of_intake (h : s.Intake i j arrived said) (hs : s.stopped = false)
    (hrelease : .release i ∉ said) : s.Live j := by
  cases h with
  | live known on owns sound phase =>
    refine ⟨_, known, ?_⟩
    rcases phase with ⟨level, hphase⟩ | ⟨⟨level, hphase⟩, -⟩
    · rw [Session.fault?, hphase]
    · rw [Session.fault?, hphase]
  | gone known on owns fault?_eq ends consumes said_eq =>
    rcases said_eq with ⟨-, hsaid⟩ | ⟨hstopped, -⟩
    · rw [hsaid] at hrelease
      exact absurd (List.mem_append_right _ (List.mem_singleton_self _)) hrelease
    · rw [hs] at hstopped
      cases hstopped

def Over (j : Nat) (fault : RequestFault) (s : Station σ ρ) : Prop :=
  ∃ session, s.sessions[j]? = some session ∧ session.phase = .over fault

theorem over_leave {u : Station σ ρ} {before after : Session} (fault : RequestFault)
    (owns : after.Owns i) (known : u.sessions[j]? = some before) (hu : u.stopped = false) :
    (u.leave j after fault).Over j fault := by
  obtain ⟨-, -, listener, id, hrole⟩ := owns
  have hknown : ((u.note [.sessionEnded id fault]).enqueue
      (.release after.link)).sessions[j]? = some before := by
    rw [sessions_enqueue]
    exact known
  have hruns : ¬ (u.note [.sessionEnded id fault]).stopped = true := by
    rw [Bool.not_eq_true]
    exact hu
  simp only [leave, hrole]
  rw [if_neg hruns]
  exact ⟨_, sessions_setSession _ hknown, rfl⟩

/-- In a turn of its own, a session says goodbye at the end of its stream only. -/
theorem over_of_turn (h : s.Intake i j arrived said) (hs : s.stopped = false) (hlive : s.Live j)
    (hrelease : .release i ∈ s.spoken i (.step (.session j))) :
    ∃ fault, (s.act (.step (.session j))).Over j fault ∧ fault ≠ .shutdown := by
  cases h with
  | gone known on owns fault?_eq => exact absurd hlive (not_live_of_fault? known fault?_eq)
  | @live session link frames waiting known on owns sound phase awaits consumes said_eq =>
    have hturn := turn_of_live known on owns sound phase awaits
    generalize hact : s.act (.step (.session j)) = t at hturn ⊢
    cases hturn with
    | @frame after level frame left events before owns phase awaits first =>
      rw [spoken_of_carryOut hact rfl owns, hs, if_neg Bool.false_ne_true] at hrelease
      cases List.mem_singleton.mp hrelease
    | @fault after fault behind events owns first =>
      exact ⟨.badFrame fault, over_leave (u := s.note events) _ owns known hs,
        by simp⟩
    | @waits after level next events before owns phase awaits first =>
      rw [spoken_of_carryOut hact rfl owns, hs, if_neg Bool.false_ne_true] at hrelease
      cases hrelease
    | idle first empty unfinished =>
      rw [spoken, queued, hact, List.drop_length] at hrelease
      cases hrelease
    | @finished after events owns first empty ended =>
      exact ⟨.io .unexpectedEof,
        over_leave (u := (s.setLink i link).note events) _ owns known hs,
        by simp⟩
    | @bytes after level x bytes content events owns phase awaits split =>
      rw [spoken_of_carryOut hact rfl owns, hs, if_neg Bool.false_ne_true] at hrelease
      cases hrelease

theorem over_run {fault : RequestFault} (h : s.Over j fault) (hapart : s.Apart i j)
    (hactions : ∀ a ∈ actions, a.Spares i) (hi : i < s.links.size) :
    (s.run actions).Over j fault := by
  induction actions generalizing s with
  | nil => exact h
  | cons a rest ih =>
    have ha := hactions a List.mem_cons_self
    obtain ⟨session, known, ended⟩ := h
    have hnext : (s.act a).Over j fault := ⟨session, over_act known ended, ended⟩
    apply ih hnext (apart_act hapart ha (.inr hi))
    · intro b hb
      exact hactions b (List.mem_cons_of_mem a hb)
    · exact Nat.lt_of_lt_of_le hi (s.size_links_act a)

theorem over_of_release (h : s.Accepted i j) (hactions : ∀ a ∈ actions, a.Spares i)
    (hopen : s.OpenUntil (spoken i) i actions)
    (hrelease : .release i ∈ s.along (spoken i) actions) :
    ∃ fault, (s.run actions).Over j fault ∧ fault ≠ .shutdown := by
  obtain ⟨front, a, back, rfl, hfront, ha⟩ := mem_along hrelease
  have hspares : ∀ b ∈ front, b.Spares i := fun b hb => hactions b (List.mem_append_left _ hb)
  have hspare : a.Spares i := hactions a (List.mem_append_right _ List.mem_cons_self)
  obtain ⟨hclosed, hs⟩ := hopen front (a :: back) rfl hfront
  have hapart := apart_run h.apart hspares h.known
  have hintake := intake_run h.intake h.apart hspares h.known
  have hi := Nat.lt_of_lt_of_le h.known (s.size_links_run front)
  have hlive := live_of_intake hintake hs hfront
  have hturn : a = .step (.session j) := by
    by_contra hstep
    by_cases hstop : a = .sessionStop j
    · obtain ⟨session, known, owns⟩ := hintake.owner
      have hact : (s.run front).act a = s.run front := by
        simp [hstop, act, sessionStop?, known, owns.link, hclosed]
      rw [spoken, queued, hact, List.drop_length] at ha
      cases ha
    · rw [spoken_eq_nil hapart hspare hstep hstop] at ha
      cases ha
  subst hturn
  obtain ⟨fault, hover, hown⟩ := over_of_turn hintake hs hlive ha
  refine ⟨fault, ?_, hown⟩
  rw [run_append, run_cons]
  apply over_run hover (apart_act hapart hspare (.inr hi))
  · intro b hb
    exact hactions b (List.mem_append_right _ (List.mem_cons_of_mem _ hb))
  · exact Nat.lt_of_lt_of_le hi ((s.run front).size_links_act _)

section

variable {requests : List Frame} {tail : Bytes}

theorem said_of_intake (hfits : ∀ request ∈ requests, request.Fits)
    (htail : ∀ frame behind, Mbap.first? tail ≠ some (.ok frame, behind))
    (h : s.Intake i j (requests.flatMap Frame.encode ++ tail) said) :
    ∃ n, said = (requests.take n).map (.request i) ∨
      said = (requests.take n).map (.request i) ++ [.release i] := by
  cases h with
  | live known on owns sound phase awaits consumes said_eq =>
    obtain ⟨n, rfl, -⟩ := consumes.of_encodings hfits htail
    exact ⟨n, .inl said_eq⟩
  | gone known on owns fault?_eq ends consumes said_eq =>
    obtain ⟨n, rfl, -⟩ := consumes.of_encodings hfits htail
    rcases said_eq with ⟨-, hsaid⟩ | ⟨-, hsaid⟩
    · exact ⟨n, .inr hsaid⟩
    · exact ⟨n, .inl hsaid⟩

theorem said_of_over {fault : RequestFault} (hfits : ∀ request ∈ requests, request.Fits)
    (htail : ∀ frame behind, Mbap.first? tail ≠ some (.ok frame, behind))
    (h : s.Intake i j (requests.flatMap Frame.encode ++ tail) said) (hover : s.Over j fault)
    (hown : fault ≠ .shutdown) :
    said = requests.map (.request i) ++ [.release i] ∨
      (s.stopped = true ∧ said = requests.map (.request i)) := by
  obtain ⟨session, known, ended⟩ := hover
  have hfault : session.fault? = some fault := by rw [Session.fault?, ended]
  cases h with
  | live known' on owns sound phase =>
    obtain rfl := Option.some.inj (known.symm.trans known')
    rcases phase with ⟨level, hphase⟩ | ⟨⟨level, hphase⟩, -⟩
    · rw [ended] at hphase
      cases hphase
    · rw [ended] at hphase
      cases hphase
  | @gone session' link frames fault' rest known' on owns fault?_eq ends consumes said_eq =>
    obtain rfl := Option.some.inj (known.symm.trans known')
    obtain rfl := Option.some.inj (hfault.symm.trans fault?_eq)
    have hrest : ∀ frame behind, Mbap.first? rest ≠ some (.ok frame, behind) := by
      intro frame behind hfirst
      cases ends with
      | shutdown told => exact hown rfl
      | badFrame first =>
        rw [first] at hfirst
        cases hfirst
      | finished first ended =>
        rw [first] at hfirst
        cases hfirst
    obtain rfl := consumes.eq_of_encodings hfits htail hrest
    rcases said_eq with ⟨-, hsaid⟩ | hstopped
    · exact .inl hsaid
    · exact .inr hstopped

theorem said_of_release (h : s.Accepted i j) (hactions : ∀ a ∈ actions, a.Spares i)
    (hfits : ∀ request ∈ requests, request.Fits)
    (htail : ∀ frame behind, Mbap.first? tail ≠ some (.ok frame, behind))
    (hstream : s.along (fed i) actions = requests.flatMap Frame.encode ++ tail)
    (hopen : s.OpenUntil (spoken i) i actions)
    (hrelease : .release i ∈ s.along (spoken i) actions) :
    s.along (spoken i) actions = requests.map (.request i) ++ [.release i] := by
  have hintake := intake_run h.intake h.apart hactions h.known
  rw [List.nil_append, List.nil_append, hstream] at hintake
  obtain ⟨fault, hover, hown⟩ := over_of_release h hactions hopen hrelease
  rcases said_of_over hfits htail hintake hover hown with hsaid | ⟨-, hsaid⟩
  · exact hsaid
  · rw [hsaid] at hrelease
    exact absurd hrelease (release_notMem_requests requests)

/-- When all has arrived, the session submits all of it after so many turns. -/
theorem said_of_turns {after : List (Action σ ρ)} (h : s.Accepted i j)
    (hafter : ∀ a ∈ after, a.Spares i)
    (hfits : ∀ request ∈ requests, request.Fits)
    (htail : ∀ frame behind, Mbap.first? tail ≠ some (.ok frame, behind))
    (hstream : s.along (fed i) after = requests.flatMap Frame.encode ++ tail)
    (hend : (s.run after).Finished i (requests.flatMap Frame.encode ++ tail)) :
    ∃ n, ∀ more : List (Action σ ρ), (∀ a ∈ more, a.Spares i) →
      (s.run after).along (fed i) more = [] → s.OpenUntil (spoken i) i (after ++ more) →
        n ≤ more.countP (·.isTurn j) →
          s.along (spoken i) (after ++ more) = requests.map (.request i) ++ [.release i] := by
  refine ⟨(s.run after).work i j + requests.length + 1, ?_⟩
  intro more hmore hfed hopen hturns
  have hactions : ∀ a ∈ after ++ more, a.Spares i := by
    intro a ha
    rcases List.mem_append.mp ha with hnow | hlater
    · exact hafter a hnow
    · exact hmore a hlater
  have hall : s.along (fed i) (after ++ more) = requests.flatMap Frame.encode ++ tail := by
    rw [along_append, hfed, List.append_nil, hstream]
  by_cases hrelease : .release i ∈ s.along (spoken i) (after ++ more)
  · exact said_of_release h hactions hfits htail hall hopen hrelease
  · exfalso
    obtain ⟨-, hs⟩ := hopen (after ++ more) [] (List.append_nil _).symm hrelease
    have hbefore := intake_run h.intake h.apart hafter h.known
    have hintake := intake_run h.intake h.apart hactions h.known
    rw [List.nil_append, List.nil_append, hstream] at hbefore
    rw [List.nil_append, List.nil_append, hall] at hintake
    have hlive := live_of_intake hintake hs hrelease
    rw [run_append] at hlive
    have hwork := work_run hbefore (apart_run h.apart hafter h.known) hmore
      (Nat.lt_of_lt_of_le h.known (s.size_links_run after)) hfed hend hlive
    have hlength : (s.along (spoken i) (after ++ more)).length ≤ requests.length := by
      obtain ⟨n, hsaid | hsaid⟩ := said_of_intake hfits htail hintake
      · rw [hsaid, List.length_map]
        exact List.length_take_le' n requests
      · rw [hsaid] at hrelease
        exact absurd (List.mem_append_right _ (List.mem_singleton_self _)) hrelease
    rw [along_append, List.length_append] at hlength
    omega

end

theorem said_eq_taken (actions : List (Action σ ρ)) (hs : s.stopped = false)
    (hsilent : s.Silent i) :
    ∃ rest, s.along (spoken i) actions =
        (s.along taken actions).filter (·.link? = some i) ++ rest ∧
      ((s.run actions).stopped = false →
        rest = (s.run actions).worker.queue.filter (·.link? = some i) ∧
          ∀ message ∈ s.along taken actions, message.isStop = false) := by
  obtain ⟨rest, hqueue, hrun, -⟩ := s.run_queue actions hs
  have hempty : s.worker.queue.filter (·.link? = some i) = [] := by
    rw [List.filter_eq_nil_iff]
    intro m hm
    rw [decide_eq_true_eq]
    exact hsilent.queue m hm
  have hfilter := congrArg (List.filter (·.link? = some i)) hqueue
  rw [List.filter_append, List.filter_append, hempty, List.nil_append, ← along_spoken] at hfilter
  refine ⟨rest.filter (·.link? = some i), hfilter, ?_⟩
  intro hstill
  obtain ⟨rfl, hstop⟩ := hrun hstill
  exact ⟨rfl, hstop⟩

theorem openUntil_spoken (hsilent : s.Silent i) (h : s.OpenUntil taken i actions) :
    s.OpenUntil (spoken i) i actions := by
  have hs : s.stopped = false := (h [] actions rfl List.not_mem_nil).2
  intro front back hsplit hspoken
  apply h front back hsplit
  intro htaken
  obtain ⟨rest, hsaid, -⟩ := said_eq_taken front hs hsilent
  rw [hsaid] at hspoken
  apply hspoken
  apply List.mem_append_left
  exact List.mem_filter.mpr ⟨htaken, decide_eq_true rfl⟩

theorem filterMap_ownRequest? (unit : UnitId) (requests : List Frame) :
    (requests.map (.request i : Frame → Message σ ρ)).filterMap (·.ownRequest? unit) =
      (requests.filter (·.unit = unit)).map (i, ·) := by
  induction requests with
  | nil => rfl
  | cons request requests ih =>
    rw [List.map_cons, List.filterMap_cons, List.filter_cons, ih, Message.ownRequest?]
    by_cases h : request.unit = unit
    · rw [if_pos h, if_pos (decide_eq_true h), List.map_cons]
    · rw [if_neg h, if_neg (by rwa [decide_eq_true_eq])]

theorem requests_of_link (unit : UnitId) (image : Image σ) {messages : List (Message σ ρ)}
    {requests : List Frame} (hstop : ∀ message ∈ messages, message.isStop = false)
    (hlink : messages.filter (·.link? = some i) = requests.map (.request i)) :
    ((image.executeAll unit messages).2.filter (·.link = i)).map (·.request) =
      requests.filter (·.unit = unit) := by
  have hall := image.requests_executeAll unit messages
  have hwhole : messages.takeWhile (!·.isStop) = messages := by
    rw [List.takeWhile_eq_self_iff]
    intro message hmessage
    rw [hstop message hmessage]
    rfl
  have hswap : (messages.filterMap (·.ownRequest? unit)).filter (·.1 = i) =
      (messages.filter (·.link? = some i)).filterMap (·.ownRequest? unit) := by
    rw [List.filter_filterMap, List.filterMap_filter]
    congr
    funext message
    cases message with
    | request link frame =>
      by_cases h : link = i
      · by_cases hu : frame.unit = unit <;> simp [Message.ownRequest?, Message.link?, h, hu]
      · by_cases hu : frame.unit = unit <;> simp [Message.ownRequest?, Message.link?, h, hu]
    | _ => simp [Message.ownRequest?, Message.link?]
  rw [hwhole] at hall
  have hlinks := congrArg (List.filter (·.1 = i)) hall
  rw [hswap, hlink, filterMap_ownRequest?, List.filter_map] at hlinks
  have hrequests := congrArg (List.map Prod.snd) hlinks
  rw [List.map_map, List.map_map] at hrequests
  exact hrequests.trans (List.map_id _)

theorem read?_of_closed {p : Pipe} (hsound : p.broken = none) (hclosed : p.closed = true)
    {count : Nat} (hcount : 0 < count) :
    ∃ got left, p.read? count = some (.ok got, left) ∧ (got = [] ↔ p.content = []) := by
  unfold Pipe.read?
  rw [hsound]
  cases hcontent : p.content with
  | nil => exact ⟨[], p, by rw [if_pos hclosed], Iff.rfl⟩
  | cons x content =>
    obtain ⟨n, rfl⟩ := Nat.exists_eq_succ_of_ne_zero (Nat.ne_of_gt hcount)
    exact ⟨_, _, rfl, by simp⟩

section

variable {requests : List Frame} {tail : Bytes}

/-- The release is taken behind all requests of the link, and nothing of the link is taken behind
it. -/
theorem taken_release (h : s.Accepted i j) (hactions : ∀ a ∈ actions, a.Spares i)
    (hfits : ∀ request ∈ requests, request.Fits)
    (htail : ∀ frame behind, Mbap.first? tail ≠ some (.ok frame, behind))
    (hstream : s.along (fed i) actions = requests.flatMap Frame.encode ++ tail)
    (hopen : s.OpenUntil taken i actions) (hrelease : .release i ∈ s.along taken actions) :
    ∃ front back queue, actions = front ++ .step .worker :: back ∧
      (s.run front).Takes (.step .worker) (.release i) queue ∧
      (s.run front).isClosed i = false ∧
      (s.along taken front).filter (·.link? = some i) = requests.map (.request i) ∧
      (∀ message ∈ s.along taken front, message.isStop = false) ∧
      (∀ message ∈ ((s.run front).act (.step .worker)).along taken back,
        message.link? ≠ some i) ∧
      .release i ∈ s.along (spoken i) front := by
  have hs : s.stopped = false := (hopen [] actions rfl List.not_mem_nil).2
  obtain ⟨front, a, back, rfl, hfront, ha⟩ := mem_along hrelease
  obtain ⟨hclosed, hruns⟩ := hopen front (a :: back) rfl hfront
  obtain hkeeps | ⟨message, queue, htakes⟩ := (s.run front).keeps_or_takes a
  · rw [hkeeps.taken] at ha
    cases ha
  rw [htakes.taken] at ha
  obtain rfl := List.mem_singleton.mp ha
  obtain rfl := htakes.action
  obtain ⟨waiting, hsaid, hrest⟩ := said_eq_taken front hs h.silent
  obtain ⟨rfl, hstop⟩ := hrest hruns
  have hspoken : .release i ∈ s.along (spoken i) front := by
    rw [hsaid, htakes.waiting]
    apply List.mem_append_right
    exact List.mem_filter.mpr ⟨List.mem_cons_self, decide_eq_true rfl⟩
  have hall := said_of_release h hactions hfits htail hstream
    (openUntil_spoken h.silent hopen)
  obtain ⟨rest, hwhole, -⟩ :=
    said_eq_taken (front ++ .step .worker :: back) hs h.silent
  rw [hall, along_append, List.filter_append, along, htakes.taken] at hwhole
  · have hsplit : requests.map (.request i) ++ .release i :: [] =
        (s.along taken front).filter (·.link? = some i) ++ .release i ::
          ((((s.run front).act (.step .worker)).along taken back).filter (·.link? = some i) ++
            rest) := by
      simpa [Message.link?] using hwhole
    rw [List.append_cons_inj_of_notMem (release_notMem_requests requests) List.not_mem_nil]
      at hsplit
    obtain ⟨hbefore, -, hbehind⟩ := hsplit
    refine ⟨front, back, queue, rfl, htakes, hclosed, hbefore.symm, hstop, ?_, hspoken⟩
    intro m hm hlink
    have hnone := (List.append_eq_nil_iff.mp hbehind.symm).1
    rw [List.filter_eq_nil_iff] at hnone
    exact hnone m hm (decide_eq_true hlink)
  · rw [along_append]
    exact List.mem_append_left _ hspoken

/-- Once the release is done, what has been put on the link are the responses to its requests, and
nothing will follow. -/
theorem answered_of_release (h : s.Accepted i j) (hactions : ∀ a ∈ actions, a.Spares i)
    (hfits : ∀ request ∈ requests, request.Fits)
    (htail : ∀ frame behind, Mbap.first? tail ≠ some (.ok frame, behind))
    (hstream : s.along (fed i) actions = requests.flatMap Frame.encode ++ tail)
    (hopen : s.OpenUntil taken i actions) (hrelease : .release i ∈ s.along taken actions)
    (hdone : (s.run actions).worker.job.link? ≠ some i) :
    let answers := (s.image.executeAll s.unit (s.along taken actions)).2.filter (·.link = i)
    answers.map (·.request) = requests.filter (·.unit = s.unit) ∧
      ∃ link, (s.run actions).links[i]? = some link ∧ link.outgoing.broken = none ∧
        link.sent = answers.flatMap (·.response.encode) ∧ link.outgoing.closed = true := by
  intro answers
  obtain ⟨front, back, queue, rfl, htakes, hclosed, hbefore, hstop, hbehind, hspoken⟩ :=
    taken_release h hactions hfits htail hstream hopen hrelease
  have hfront : ∀ b ∈ front, b.Spares i := fun b hb => hactions b (List.mem_append_left _ hb)
  have hback : ∀ b ∈ back, b.Spares i :=
    fun b hb => hactions b (List.mem_append_right _ (List.mem_cons_of_mem _ hb))
  have hworker : (Action.step .worker : Action σ ρ).Spares i := trivial
  have hapart := apart_run h.apart hfront h.known
  have hi := Nat.lt_of_lt_of_le h.known (s.size_links_run front)
  have hintake := intake_run h.intake h.apart hfront h.known
  -- behind the release, no transaction is one of the link
  have hanswers : answers =
      (s.image.executeAll s.unit (s.along taken front)).2.filter (·.link = i) := by
    dsimp only [answers]
    rw [along_append, along, htakes.taken, Image.executeAll_append _ _ _ hstop,
      List.filter_append, List.append_right_eq_self, List.filter_eq_nil_iff]
    intro t ht
    rw [decide_eq_true_eq]
    intro hlink
    have hmem := Image.mem_executeAll _ _ ht
    rcases List.mem_append.mp hmem with hnow | hlater
    · cases List.mem_singleton.mp hnow
    · exact hbehind _ hlater (congrArg some hlink)
  have hrequests := requests_of_link s.unit s.image hstop hbefore
  refine ⟨by rw [hanswers, hrequests], ?_⟩
  -- the link is open at the release, so it carries what has been begun
  have hdelivers := delivers_run h.delivers h.intake h.apart hfront h.known
  rw [List.nil_append, (s.run_image front).2, List.filter_map, List.flatMap_map] at hdelivers
  obtain ⟨link, on, hlink | hcarries⟩ := hdelivers
  · rw [isClosed, on, Option.map_some, Option.getD_some, hlink] at hclosed
    cases hclosed
  have hending := ending_of_takes htakes on hcarries
  obtain ⟨fault, ⟨session, known, ended⟩, -⟩ := over_of_release h hfront
    (openUntil_spoken h.silent hopen.front) hspoken
  obtain ⟨session', known', owns⟩ := hintake.owner
  obtain rfl := Option.some.inj (known.symm.trans known')
  have hlast := ending_run hending (apart_act hapart hworker (.inr hi)) hback
    (Nat.lt_of_lt_of_le hi ((s.run front).size_links_act _)) (over_act known ended)
    owns ended hbehind
  rw [run_append, run_cons] at hdone
  obtain ⟨link', on', sound, whole, hstate⟩ := hlast
  refine ⟨link', by rw [run_append, run_cons, on'], sound, ?_, ?_⟩
  · rw [whole, hanswers]
    rfl
  · rcases hstate with ⟨stage, deadline, job, -⟩ | ⟨-, hend⟩
    · rw [job] at hdone
      exact absurd rfl hdone
    · exact hend

end

/-- A client comes to a running listener and sends requests, and then nothing, an unfinished frame
or a header that makes no sense. What its session submits are the requests in their order, and one
release behind them at most. A session that has not been told to stop has submitted all of them, and
as soon as all has arrived it does so in some number of turns, however these lie among the actions
of others, if the link is open and the service runs until then. If the link is open when the release
is taken, then what the client reads from there on are the responses to its requests for this unit,
each as it is when the messages are carried out one after the other, and then the end of the
stream. -/
theorem client_answered {settings : ServerSettings} {before after : List (Action σ ρ)}
    {k incoming outgoing : Nat} {peer : String} {listener : Listener} {requests : List Frame}
    {tail : Bytes} {station : Station σ ρ}
    (reached : (ofSettings settings).run before = station)
    (accepted : station.act (.accept k peer (.fresh incoming outgoing false none)) = s)
    (link : station.links.size = i) (session : station.sessions.size = j)
    (known : station.listeners[k]? = some listener) (running : listener.running = true)
    (spares : ∀ a ∈ before ++ after, a.Spares i) (fits : ∀ request ∈ requests, request.Fits)
    (noFrame : ∀ frame behind, Mbap.first? tail ≠ some (.ok frame, behind))
    (stream : s.along (fed i) after = requests.flatMap Frame.encode ++ tail) :
    let whole : List (Message σ ρ) := requests.map (.request i) ++ [.release i]
    (∃ n, s.along (spoken i) after = (requests.take n).map (.request i) ∨
      s.along (spoken i) after = (requests.take n).map (.request i) ++ [.release i]) ∧
    (∀ fault, (s.run after).Over j fault → fault ≠ .shutdown →
      s.along (spoken i) after = whole ∨
        ((s.run after).stopped = true ∧ s.along (spoken i) after = requests.map (.request i))) ∧
    (((∃ l, (s.run after).links[i]? = some l ∧ l.incoming.closed = true) ∨
        (∃ fault behind, Mbap.first? tail = some (.error fault, behind))) →
      ∃ n, ∀ more : List (Action σ ρ), (∀ a ∈ more, a.Spares i) →
        (s.run after).along (fed i) more = [] → s.OpenUntil (spoken i) i (after ++ more) →
          n ≤ more.countP (·.isTurn j) → s.along (spoken i) (after ++ more) = whole) ∧
    (s.OpenUntil taken i after → .release i ∈ s.along taken after →
      (s.run after).worker.job.link? ≠ some i →
        let answers := (s.image.executeAll s.unit (s.along taken after)).2.filter (·.link = i)
        let bytes := answers.flatMap (·.response.encode)
        answers.map (·.request) = requests.filter (·.unit = settings.unit) ∧
          ∃ l, (s.run after).links[i]? = some l ∧ l.received ++ l.outgoing.content = bytes ∧
            ∀ count, 0 < count → ∃ got left, l.outgoing.read? count = some (.ok got, left) ∧
              (got = [] ↔ l.received = bytes)) := by
  intro whole
  have hbefore : ∀ a ∈ before, a.Spares i := fun a ha => spares a (List.mem_append_left _ ha)
  have hafter : ∀ a ∈ after, a.Spares i := fun a ha => spares a (List.mem_append_right _ ha)
  have hunknown : station.Unknown station.links.size := by
    have hsize : ((ofSettings settings : Station σ ρ).run before).links.size ≤ i := by
      rw [reached, link]
    have hrun := unknown_run (unknown_ofSettings settings i) hbefore hsize
    rwa [reached, ← link] at hrun
  have haccepted : s.Accepted i j := by
    have hnew := accepted_accept hunknown known running peer incoming outgoing
    rwa [accepted, link, session] at hnew
  have hunit : s.unit = settings.unit := by
    have hrun := run_unit (ofSettings settings)
      (before ++ [.accept k peer (.fresh incoming outgoing false none)])
    rwa [run_append, reached, run_cons, accepted] at hrun
  have hintake := intake_run haccepted.intake haccepted.apart hafter haccepted.known
  rw [List.nil_append, List.nil_append, stream] at hintake
  refine ⟨said_of_intake fits noFrame hintake, ?_, ?_, ?_⟩
  · intro fault hover hown
    exact said_of_over fits noFrame hintake hover hown
  · intro hend
    apply said_of_turns haccepted hafter fits noFrame stream
    rcases hend with hclosed | ⟨fault, behind, hfirst⟩
    · exact .inl hclosed
    · exact .inr ⟨requests, tail, fault, behind, Mbap.Consumes.encodings fits tail, hfirst⟩
  · intro hopen hrelease hdone answers bytes
    obtain ⟨hrequests, l, hl, hsound, hsent, hclosed⟩ :=
      answered_of_release haccepted hafter fits noFrame stream hopen hrelease hdone
    refine ⟨hrequests.trans (by rw [hunit]), l, hl, hsent, ?_⟩
    intro count hcount
    obtain ⟨got, left, hread, hgot⟩ := read?_of_closed hsound hclosed hcount
    refine ⟨got, left, hread, hgot.trans ?_⟩
    have hbytes : bytes = l.received ++ l.outgoing.content := hsent.symm
    rw [hbytes, List.self_eq_append_right]

def listening : Station Unit Unit :=
  run (.ofSettings ⟨⟨1⟩, .uniform 4, .ofSeconds 1, none, .nothing⟩) [.listen "here"]

def welcoming : Station Unit Unit :=
  listening.act (.accept 0 "there" (.fresh 64 64 false none))

/-- Set a register, set it in another unit, and read it. -/
def threeRequests : List Frame :=
  [⟨.mbap 1, ⟨1⟩, 6, [0, 0, 0, 9]⟩, ⟨.mbap 2, ⟨2⟩, 6, [0, 0, 0, 8]⟩,
    ⟨.mbap 3, ⟨1⟩, 3, [0, 0, 0, 1]⟩]

theorem fits_threeRequests : ∀ request ∈ threeRequests, request.Fits := by
  intro request hrequest
  simp only [threeRequests, List.mem_cons, List.not_mem_nil, or_false] at hrequest
  rcases hrequest with rfl | rfl | rfl
  · exact ⟨⟨1, rfl⟩, by decide⟩
  · exact ⟨⟨2, rfl⟩, by decide⟩
  · exact ⟨⟨3, rfl⟩, by decide⟩

/-- Someone else sets the register between the requests, which come in two pieces; they are followed
by two bytes of a header and the end. -/
def interleaved : List (Action Unit Unit) :=
  let bytes := threeRequests.flatMap Frame.encode ++ [0, 4]
  .arrive 0 (bytes.take 15) :: List.replicate 4 (.step (.session 0)) ++
    [.attach (.fresh 64 64 false none) (.mbap .start) .close,
      .submit (.request 1 ⟨.mbap 9, ⟨1⟩, 6, [0, 0, 0, 5]⟩), .arrive 0 (bytes.drop 15), .finish 0] ++
    List.replicate 6 (.step (.session 0)) ++ List.replicate 24 (.step .worker)

theorem run_interleaved :
    welcoming.OpenUntil taken 0 interleaved ∧
      welcoming.along (fed 0) interleaved = threeRequests.flatMap Frame.encode ++ [0, 4] ∧
      (welcoming.run interleaved).sessions[0]?.map (·.phase) =
        some (.over (.io .unexpectedEof)) ∧
      (welcoming.along taken interleaved).any (·.isRelease 0) = true ∧
      (welcoming.run interleaved).worker.job = .idle ∧
      ((welcoming.image.executeAll welcoming.unit (welcoming.along taken interleaved)).2.filter
          (·.link = 0)).flatMap (·.response.encode) =
        [0, 1, 0, 0, 0, 6, 1, 6, 0, 0, 0, 9, 0, 3, 0, 0, 0, 5, 1, 3, 2, 0, 5] := by
  decide +kernel

/-- The client gets the answers to the first and the last of its requests. -/
theorem client_answered_interleaved :
    welcoming.along (spoken 0) interleaved = threeRequests.map (.request 0) ++ [.release 0] ∧
      ∃ l, (welcoming.run interleaved).links[0]? = some l ∧
        l.received ++ l.outgoing.content =
          [0, 1, 0, 0, 0, 6, 1, 6, 0, 0, 0, 9, 0, 3, 0, 0, 0, 5, 1, 3, 2, 0, 5] := by
  obtain ⟨hopen, hstream, hphase, hrelease, hjob, hbytes⟩ := run_interleaved
  obtain ⟨session, hsession, hover⟩ := Option.map_eq_some_iff.mp hphase
  obtain ⟨listener, hlistener, hrunning⟩ := Option.map_eq_some_iff.mp (by decide +kernel :
    listening.listeners[0]?.map (·.running) = some true)
  have haccept : listening.act (.accept 0 "there" (.fresh 64 64 false none)) = welcoming := rfl
  have hlink : listening.links.size = 0 := by decide +kernel
  have hindex : listening.sessions.size = 0 := by decide +kernel
  have hspares : ∀ a ∈ [.listen "here"] ++ interleaved, a.Spares 0 := by decide +kernel
  have hshort : ∀ frame behind, Mbap.first? [0, 4] ≠ some (.ok frame, behind) := by
    intro frame behind
    rw [Mbap.first?_of_short (by decide)]
    exact (Option.some_ne_none _).symm
  obtain ⟨-, hsaid, -, hlast⟩ := client_answered rfl haccept hlink hindex hlistener hrunning
    hspares fits_threeRequests hshort hstream
  obtain ⟨-, l, hl, hsent, -⟩ := hlast hopen (release_mem_iff.mpr hrelease)
    (by rw [hjob]; exact (Option.some_ne_none 0).symm)
  refine ⟨?_, l, hl, hsent.trans hbytes⟩
  rcases hsaid _ ⟨session, hsession, hover⟩ (by simp) with hwhole | ⟨hstopped, -⟩
  · exact hwhole
  · rw [stopped, hjob] at hstopped
    cases hstopped

/-- The client reads nothing and sends its requests in two pieces. The first response fails between
them. -/
def deafened : List (Action Unit Unit) :=
  let bytes := threeRequests.flatMap Frame.encode
  .deafen 0 :: .arrive 0 (bytes.take 15) :: List.replicate 4 (.step (.session 0)) ++
    List.replicate 4 (.step .worker) ++ [.arrive 0 (bytes.drop 15), .finish 0, .sessionStop 0]

/-- A response that fails closes the link, and then the session never submits the requests that it
has not read. -/
theorem client_cut_off :
    (∀ a ∈ [.listen "here"] ++ deafened, a.Spares 0) ∧
      (∀ request ∈ threeRequests, request.Fits) ∧
      welcoming.along (fed 0) deafened = threeRequests.flatMap Frame.encode ++ [] ∧
      (∃ l, (welcoming.run deafened).links[0]? = some l ∧ l.incoming.closed = true) ∧
      ∀ more, welcoming.along (spoken 0) (deafened ++ more) ≠
        threeRequests.map (.request 0) ++ [.release 0] := by
  have hrun : (∀ a ∈ [.listen "here"] ++ deafened, a.Spares 0) ∧
      welcoming.along (fed 0) deafened = threeRequests.flatMap Frame.encode ++ [] ∧
      (welcoming.run deafened).links[0]?.map (·.incoming.closed) = some true ∧
      (welcoming.along (spoken 0) deafened).map (·.isRelease 0) = [false, true] := by
    decide +kernel
  obtain ⟨hspares, hstream, hend, hsaid⟩ := hrun
  refine ⟨hspares, fits_threeRequests, hstream, Option.map_eq_some_iff.mp hend, ?_⟩
  intro more h
  have hkinds := congrArg (List.map (·.isRelease 0)) h
  rw [along_append, List.map_append, hsaid] at hkinds
  injection hkinds with _ hkinds
  injection hkinds with hkinds
  cases hkinds

end Station

end ModbusSlave
