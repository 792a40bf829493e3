import ModbusSlave.Wire.Word

/-!
# Lines of input

A line ends with a newline, and a carriage return in front of it does not belong to the line. What
stands behind the last newline is a line as well, unless it is empty or a single carriage return.
-/
namespace ModbusSlave.Lines

def newline : UInt8 := 0x0A

def carriageReturn : UInt8 := 0x0D

/-- The bytes up to the first newline, and what is behind it. -/
def cut (bytes : Bytes) : Bytes × Option Bytes :=
  match bytes with
  | [] => ([], none)
  | b :: rest =>
    if b = newline then ([], some rest)
    else
      let (line, behind) := cut rest
      (b :: line, behind)

theorem length_cut {bytes line rest : Bytes} (h : cut bytes = (line, some rest)) :
    rest.length < bytes.length := by
  induction bytes generalizing line with
  | nil => simp [cut] at h
  | cons b bytes ih =>
    unfold cut at h
    split at h
    · simp only [Prod.mk.injEq, Option.some.injEq] at h
      simp [← h.2]
    · simp only [Prod.mk.injEq] at h
      have := ih (Prod.ext rfl h.2)
      simp only [List.length_cons]
      omega

def trim (line : Bytes) : Bytes :=
  if line.getLast? = some carriageReturn then line.dropLast else line

def split (bytes : Bytes) : List Bytes :=
  match _ : cut bytes with
  | (line, some rest) => trim line :: split rest
  | (line, none) => if line = [] ∨ line = [carriageReturn] then [] else [trim line]
termination_by bytes.length
decreasing_by exact length_cut ‹_›

def text? (line : Bytes) : Option String := String.fromUTF8? ⟨line.toArray⟩

end ModbusSlave.Lines
