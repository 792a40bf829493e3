import ModbusSlave.Proofs.Service.Sequential
import ModbusSlave.Proofs.Stream.Renewal
import ModbusSlave.Station.Basic

/-!
# Veils

A veil hides some lines of the log and some messages of the queue. It may hide bytes without meaning
in the readers, and at which levels traffic is decoded, if it hides what is logged of traffic as
well. A level decides about nothing but lines of the log, and a byte without meaning about nothing
at all: where levels and readers look the same, a parser, a reader, the service, a session and a
write come to the same, and so do their lines as far as they are shown.
-/
namespace ModbusSlave

/-- A line that is written only at some decode levels. -/
def Event.isTraffic : Event → Bool
  | bytesReceived _ _ | bytesSent _ _ | frameReceived _ _ | frameSent _ _ | requestReceived _ _
  | responseSent _ _ => true
  | _ => false

structure Veil (σ ρ : Type) where
  /-- Decode levels are hidden. -/
  mutes : Bool
  /-- Bytes that do not wait in a reader are hidden. -/
  blurs : Bool
  shows : Event → Bool
  keeps : Message σ ρ → Bool
  traffic : mutes = true → ∀ e : Event, e.isTraffic = true → shows e = false

namespace Veil

variable {σ ρ : Type} (v : Veil σ ρ)

def level (l : DecodeLevel) : DecodeLevel := if v.mutes then .nothing else l

def physical (l : PhysicalLevel) : PhysicalLevel := if v.mutes then .nothing else l

def reader (r : Reader) : Reader := if v.blurs then r.blank else r

def seen (events : List Event) : List Event := events.filter v.shows

@[simp] theorem seen_nil : v.seen [] = [] := rfl

@[simp] theorem seen_append (events later : List Event) :
    v.seen (events ++ later) = v.seen events ++ v.seen later := List.filter_append ..

variable {v} {l l' : DecodeLevel}

theorem level_eq_level (h : v.level l = v.level l') : v.mutes = true ∨ l = l' := by
  rw [level, level] at h
  split at h
  · next hmutes => exact .inl hmutes
  · exact .inr h

theorem physical_eq_physical {p p' : PhysicalLevel} (h : v.physical p = v.physical p') :
    v.mutes = true ∨ p = p' := by
  rw [physical, physical] at h
  split at h
  · next hmutes => exact .inl hmutes
  · exact .inr h

theorem physical_of_level (h : v.level l = v.level l') :
    v.physical l.physical = v.physical l'.physical := by
  rw [physical, physical]
  split
  · rfl
  · next hmutes =>
    obtain hm | rfl := level_eq_level h
    · exact absurd hm hmutes
    · rfl

theorem level_getD {o o' : Option DecodeLevel} (ho : o.map v.level = o'.map v.level)
    (h : v.level l = v.level l') : v.level (o.getD l) = v.level (o'.getD l') := by
  cases o <;> cases o' <;> simp_all

theorem reader_eq_reader {r r' : Reader} (h : v.reader r = v.reader r') :
    (v.blurs = true ∧ r.Same r') ∨ r = r' := by
  rw [reader, reader] at h
  split at h
  · next hblurs => exact .inl ⟨hblurs, .of_blank h⟩
  · exact .inr h

theorem same_of_reader {r r' : Reader} (h : v.reader r = v.reader r') : r.Same r' := by
  obtain ⟨-, hsame⟩ | rfl := reader_eq_reader h
  · exact hsame
  · exact .refl r

theorem reader_of_same {r r' : Reader} (hblurs : v.blurs = true) (h : r.Same r') :
    v.reader r = v.reader r' := by
  rw [reader, reader, if_pos hblurs, if_pos hblurs, h.blank_eq]

theorem reader_reset {r r' : Reader} (h : v.reader r = v.reader r') :
    v.reader r.reset = v.reader r'.reset := by
  obtain ⟨hblurs, hsame⟩ | rfl := reader_eq_reader h
  · exact reader_of_same hblurs hsame.reset
  · rfl

/-- What is written of traffic at some levels only is hidden with the levels. -/
theorem seen_traffic (hmutes : v.mutes = true) {e : Event} (h : e.isTraffic = true)
    (c : Prop) [Decidable c] : v.seen (if c then [e] else []) = [] := by
  split
  · rw [seen, List.filter_cons_of_neg (by rw [v.traffic hmutes e h]; decide), List.filter_nil]
  · rfl

end Veil

namespace Parser

variable (p : Parser) (b : ReadBuffer) (l l' : FrameLevel)

theorem outcome_parse : (p.parse b l).outcome = (p.parse b l').outcome := by cases p <;> rfl

theorem parser_parse : (p.parse b l).parser = (p.parse b l').parser := by cases p <;> rfl

theorem buffer_parse : (p.parse b l).buffer = (p.parse b l').buffer := by cases p <;> rfl

end Parser

namespace Veil

variable {σ ρ : Type} {v : Veil σ ρ} {l l' : DecodeLevel}

theorem seen_parse_of_mutes (hmutes : v.mutes = true) (p : Parser) (b : ReadBuffer)
    (level : FrameLevel) :
    v.seen (p.parse b level).events = v.seen (p.parse b .nothing).events := by
  cases p with
  | mbap state =>
    dsimp only [Parser.parse]
    cases (Mbap.parse state b).1 with
    | error fault => rfl
    | ok frame? =>
      cases frame? with
      | none => rfl
      | some frame => exact seen_traffic hmutes rfl _
  | rtu state =>
    simp only [Parser.parse, seen_append]
    congr 1
    cases (Rtu.parse state b).1 with
    | error fault => rfl
    | ok frame? =>
      cases frame? with
      | none => rfl
      | some frame => exact seen_traffic hmutes rfl _

theorem seen_parse (h : v.level l = v.level l') (p : Parser) (b : ReadBuffer) :
    v.seen (p.parse b l.frame).events = v.seen (p.parse b l'.frame).events := by
  obtain hmutes | rfl := level_eq_level h
  · rw [seen_parse_of_mutes hmutes, ← seen_parse_of_mutes hmutes p b l'.frame]
  · rfl

theorem seen_receive (h : v.level l = v.level l') (r : Reader) (got : Except IoKind Bytes) :
    v.seen (r.receive l.physical got).events = v.seen (r.receive l'.physical got).events := by
  obtain hmutes | rfl := level_eq_level h
  · cases got with
    | error kind => rfl
    | ok bytes =>
      simp only [Reader.receive]
      rw [seen_traffic hmutes rfl, seen_traffic hmutes rfl]
  · rfl

variable {r r' : Reader}

theorem agree_parse (h : v.reader r = v.reader r') (hl : v.level l = v.level l') :
    let p := r.parser.parse r.buffer l.frame
    let q := r'.parser.parse r'.buffer l'.frame
    p.outcome = q.outcome ∧ v.reader ⟨p.parser, p.buffer⟩ = v.reader ⟨q.parser, q.buffer⟩ ∧
      v.seen p.events = v.seen q.events := by
  intro p q
  have houtcome := Parser.outcome_parse r.parser r.buffer l.frame l'.frame
  have hparser := Parser.parser_parse r.parser r.buffer l.frame l'.frame
  have hbuffer := Parser.buffer_parse r.parser r.buffer l.frame l'.frame
  have hevents := seen_parse hl r.parser r.buffer
  dsimp only [p]
  rw [houtcome, hparser, hbuffer, hevents]
  obtain ⟨hblurs, hsame⟩ | rfl := reader_eq_reader h
  · have hparsed := Parser.same_parse hsame.buffer r.parser l'.frame
    rw [hsame.parser] at hparsed ⊢
    exact ⟨hparsed.outcome, reader_of_same hblurs ⟨hparsed.parser, hparsed.buffer⟩,
      congrArg v.seen hparsed.events⟩
  · exact ⟨rfl, rfl, rfl⟩

theorem agree_receive (h : v.reader r = v.reader r') (hl : v.level l = v.level l')
    (got : Except IoKind Bytes) :
    let p := r.receive l.physical got
    let q := r'.receive l'.physical got
    p.outcome = q.outcome ∧ v.reader p.reader = v.reader q.reader ∧
      v.seen p.events = v.seen q.events := by
  intro p q
  have hevents := seen_receive hl r got
  obtain ⟨hblurs, hsame⟩ | rfl := reader_eq_reader h
  · obtain ⟨houtcome, hreader, hlogged⟩ := hsame.receive l'.physical got
    exact ⟨houtcome, reader_of_same hblurs hreader, hevents.trans (congrArg v.seen hlogged)⟩
  · exact ⟨rfl, rfl, hevents⟩

end Veil

namespace Service

variable {σ ρ : Type} {v : Veil σ ρ} {l l' : DecodeLevel}

theorem seen_handle (h : v.level l = v.level l') (s : Service σ) (message : Message σ ρ) :
    v.seen (s.handle l message).2.2 = v.seen (s.handle l' message).2.2 := by
  obtain hmutes | rfl := Veil.level_eq_level h
  · cases message with
    | request link frame =>
      by_cases hunit : frame.unit = s.unit
      · have hown (l : DecodeLevel) :
            v.seen (s.handle l (.request link frame : Message σ ρ)).2.2 =
              v.seen (s.respond frame).2.2 := by
          simp only [handle, if_pos hunit, Veil.seen_append]
          rw [Veil.seen_traffic hmutes rfl, Veil.seen_traffic hmutes rfl,
            Veil.seen_traffic hmutes rfl, List.nil_append, List.append_nil, List.append_nil]
        exact (hown l).trans (hown l').symm
      · simp only [handle, if_neg hunit]
    | _ => rfl
  · rfl

end Service

def SessionPhase.under {σ ρ : Type} (v : Veil σ ρ) : SessionPhase → SessionPhase
  | .parsing level => .parsing (level.map v.level)
  | .reading level => .reading (v.level level)
  | .departing fault stage => .departing fault stage
  | .over fault => .over fault

def Session.under {σ ρ : Type} (v : Veil σ ρ) (x : Session) : Session :=
  { x with reader := v.reader x.reader, phase := x.phase.under v }

def Write.under {σ ρ : Type} (v : Veil σ ρ) (w : Write) : Write :=
  { w with level := v.physical w.level }

def Writer.under {σ ρ : Type} (v : Veil σ ρ) (w : Writer) : Writer :=
  { w with write := w.write.under v }

def Job.under {σ ρ : Type} (v : Veil σ ρ) : Job → Job
  | .writing write deadline => .writing (write.under v) deadline
  | .releasing i stage deadline => .releasing i stage deadline
  | .idle => .idle
  | .stopped => .stopped

section

variable {σ ρ : Type} {v : Veil σ ρ}

theorem Veil.level_of_shown (h : v.mutes = false) (l : DecodeLevel) : v.level l = l := by
  simp [level, h]

theorem SessionPhase.under_of_shown (h : v.mutes = false) (phase : SessionPhase) :
    phase.under v = phase := by
  cases phase with
  | parsing level => cases level <;> simp [under, Veil.level_of_shown h]
  | reading level => simp [under, Veil.level_of_shown h]
  | _ => rfl

theorem Session.under_of_shown (h : v.mutes = false) (hblurs : v.blurs = false) (x : Session) :
    x.under v = x := by
  simp [under, Veil.reader, hblurs, SessionPhase.under_of_shown h]

theorem Write.under_of_shown (h : v.mutes = false) (w : Write) : w.under v = w := by
  simp [under, Veil.physical, h]

theorem Writer.under_of_shown (h : v.mutes = false) (w : Writer) : w.under v = w := by
  rw [under, Write.under_of_shown h]

theorem Job.under_of_shown (h : v.mutes = false) (job : Job) : job.under v = job := by
  cases job with
  | writing write deadline => rw [under, Write.under_of_shown h]
  | _ => rfl

end

/-- What a session comes to with a step looks the same. -/
structure Veil.Agree {σ ρ : Type} (v : Veil σ ρ) (p q : Session × Demand × List Event) : Prop where
  session : p.1.under v = q.1.under v
  demand : p.2.1 = q.2.1
  events : v.seen p.2.2 = v.seen q.2.2

namespace Session

variable {σ ρ : Type} {v : Veil σ ρ} {x y : Session}

theorem under_mk (link : Nat) (policy : FaultPolicy) (role : Role) {r r' : Reader}
    (hr : v.reader r = v.reader r') {p q : SessionPhase} (hp : p.under v = q.under v) :
    Session.under v ⟨link, r, policy, role, p⟩ = Session.under v ⟨link, r', policy, role, q⟩ := by
  rw [under, under, hr, hp]

theorem link_eq (h : x.under v = y.under v) : x.link = y.link := (Session.mk.inj h).1

/-- Sessions that look the same differ in levels and in their readers at most. -/
theorem eq_of_under (h : x.under v = y.under v) :
    ∃ reader phase, y = { x with reader, phase } ∧ v.reader x.reader = v.reader reader ∧
      x.phase.under v = phase.under v := by
  obtain ⟨link, reader, policy, role, phase⟩ := x
  obtain ⟨link', reader', policy', role', phase'⟩ := y
  simp only [under, Session.mk.injEq] at h
  obtain ⟨rfl, hreader, rfl, rfl, hphase⟩ := h
  exact ⟨reader', phase', rfl, hreader, hphase⟩

theorem fault?_under (x : Session) : (x.under v).fault? = x.fault? := by
  obtain ⟨link, reader, policy, role, phase⟩ := x
  cases phase <;> rfl

theorem live_under (x : Session) : (x.under v).live = x.live := by
  rw [live, live, fault?_under]

theorem isOver_under (x : Session) : (x.under v).isOver = x.isOver := by
  obtain ⟨link, reader, policy, role, phase⟩ := x
  cases phase <;> rfl

theorem agree_parse (h : x.under v = y.under v) {l l' : DecodeLevel} (hl : v.level l = v.level l') :
    v.Agree (x.parse l) (y.parse l') := by
  obtain ⟨reader, phase, rfl, hreader, hphase⟩ := eq_of_under h
  obtain ⟨houtcome, hparsed, hevents⟩ := Veil.agree_parse hreader hl
  simp only [parse]
  rw [← houtcome]
  split
  · exact ⟨under_mk _ _ _ hparsed (congrArg SessionPhase.reading hl), rfl, hevents⟩
  · exact ⟨under_mk _ _ _ hparsed rfl, rfl, hevents⟩
  · split
    · refine ⟨under_mk _ _ _ (Veil.reader_reset hparsed) rfl, rfl, ?_⟩
      dsimp only
      rw [Veil.seen_append, Veil.seen_append, hevents]
    · exact ⟨under_mk _ _ _ hparsed hphase, rfl, hevents⟩

theorem agree_receive (h : x.under v = y.under v) {l l' : DecodeLevel}
    (hl : v.level l = v.level l') (got : Except IoKind Bytes) :
    v.Agree (x.receive l got) (y.receive l' got) := by
  obtain ⟨reader, phase, rfl, hreader, hphase⟩ := eq_of_under h
  obtain ⟨houtcome, hreceived, hevents⟩ := Veil.agree_receive hreader hl got
  have hparsing : (SessionPhase.parsing (some l)).under v =
      (SessionPhase.parsing (some l')).under v := congrArg (SessionPhase.parsing ∘ some) hl
  simp only [receive]
  rw [← houtcome]
  split
  · exact ⟨under_mk _ _ _ hreceived hparsing, rfl, hevents⟩
  · exact ⟨under_mk _ _ _ hreceived hphase, rfl, hevents⟩

end Session

/-- Steps of a write look the same: they differ in what is logged at most. -/
def Veil.StepAgree {σ ρ : Type} (v : Veil σ ρ) (p q : WriteStep) : Prop :=
  ∃ events, q = { p with events } ∧ v.seen p.events = v.seen events

namespace Write

variable {σ ρ : Type} {v : Veil σ ρ} {w w' : Write}

theorem eq_of_under (h : w.under v = w'.under v) :
    ∃ level, w' = { w with level } ∧ v.physical w.level = v.physical level := by
  obtain ⟨link, bytes, level, stage⟩ := w
  obtain ⟨link', bytes', level', stage'⟩ := w'
  simp only [under, Write.mk.injEq] at h
  obtain ⟨rfl, rfl, hlevel, rfl⟩ := h
  exact ⟨level', rfl, hlevel⟩

theorem under_stage (h : w.under v = w'.under v) (stage : WriteStage) :
    ({ w with stage } : Write).under v = ({ w' with stage } : Write).under v := by
  obtain ⟨level, rfl, hlevel⟩ := eq_of_under h
  exact congrArg (Write.mk w.link w.bytes · stage) hlevel

theorem agree_begin (h : w.under v = w'.under v) (l : Link) :
    v.StepAgree (w.begin l) (w'.begin l) := by
  obtain ⟨level, rfl, hlevel⟩ := eq_of_under h
  refine ⟨_, rfl, ?_⟩
  obtain hmutes | hsame := Veil.physical_eq_physical hlevel
  · simp only [begin]
    rw [Veil.seen_traffic hmutes rfl, Veil.seen_traffic hmutes rfl]
  · rw [← hsame]
    rfl

theorem agree_step (h : w.under v = w'.under v) (party : Party) (now : Nat) (l : Link) :
    Option.Rel v.StepAgree (w.step? party now l) (w'.step? party now l) := by
  have hsame (p : WriteStep) : v.StepAgree p p := ⟨p.events, rfl, rfl⟩
  have hbegin := agree_begin h l
  obtain ⟨level', rfl, -⟩ := eq_of_under h
  obtain ⟨link, bytes, level, stage⟩ := w
  cases stage with
  | entering =>
    simp only [step?]
    split <;> exact .some (hsame _)
  | locking =>
    simp only [step?]
    split
    · split
      · exact .some hbegin
      · exact .some (hsame _)
    · exact .none
  | silent tick =>
    simp only [step?]
    split
    · exact .some hbegin
    · exact .none
  | pushing rest =>
    cases rest with
    | nil => exact .some (hsame _)
    | cons b rest =>
      simp only [step?]
      split
      · exact .none
      · exact .some (hsame _)
      · exact .some (hsame _)

theorem agree_bind_step (h : w.under v = w'.under v) (party : Party) (now : Nat)
    (l : Option Link) :
    Option.Rel v.StepAgree (l.bind (w.step? party now)) (l.bind (w'.step? party now)) := by
  cases l with
  | none => exact .none
  | some l => exact agree_step h party now l

end Write

inductive Job.Like {σ ρ : Type} (v : Veil σ ρ) : Job → Job → Prop
  | writing {write write' : Write} (alike : write.under v = write'.under v) (deadline : Nat) :
    Like v (.writing write deadline) (.writing write' deadline)
  | releasing (i : Nat) (stage : ShutdownStage) (deadline : Nat) :
    Like v (.releasing i stage deadline) (.releasing i stage deadline)
  | idle : Like v .idle .idle
  | stopped : Like v .stopped .stopped

theorem Job.like_of_under {σ ρ : Type} {v : Veil σ ρ} {job job' : Job}
    (h : job.under v = job'.under v) : job.Like v job' := by
  cases job with
  | writing write deadline =>
    cases job' with
    | writing write' deadline' =>
      obtain ⟨hwrite, rfl⟩ := Job.writing.inj h
      exact .writing hwrite deadline
    | _ => cases h
  | releasing i stage deadline =>
    cases job' with
    | releasing i' stage' deadline' =>
      obtain ⟨rfl, rfl, rfl⟩ := Job.releasing.inj h
      exact .releasing i stage deadline
    | _ => cases h
  | idle =>
    cases job' with
    | idle => exact .idle
    | _ => cases h
  | stopped =>
    cases job' with
    | stopped => exact .stopped
    | _ => cases h

end ModbusSlave
