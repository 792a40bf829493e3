import ModbusSlave.Wire.Word

/-!
# Hexadecimal text

Bytes and words are shown in upper case with leading zeros, `0x2A` and `0x0007`. A dump puts
eighteen bytes on a line, and every line starts with a newline so that it can follow a heading.
-/
namespace ModbusSlave.Hex

def digit (n : Nat) : Char := (Nat.digitChar n).toUpper

def pair (b : UInt8) : String := String.ofList [digit (b.toNat / 16), digit (b.toNat % 16)]

def byte (b : UInt8) : String := "0x" ++ pair b

def word (w : UInt16) : String := "0x" ++ pair (Word.high w) ++ pair (Word.low w)

def compact (bytes : Bytes) : String :=
  String.ofList
    (bytes.flatMap fun b => [Nat.digitChar (b.toNat / 16), Nat.digitChar (b.toNat % 16)])

def bytesPerLine : Nat := 18

/-- The bytes cut into lines of `bytesPerLine`, the last one possibly shorter. -/
def rows (bytes : Bytes) : List Bytes :=
  match bytes with
  | [] => []
  | b :: rest => (b :: rest).take bytesPerLine :: rows ((b :: rest).drop bytesPerLine)
termination_by bytes.length
decreasing_by
  simp only [List.length_drop, List.length_cons, bytesPerLine]
  omega

theorem flatten_rows (bytes : Bytes) : (rows bytes).flatten = bytes := by
  fun_induction rows bytes with
  | case1 => rfl
  | case2 b rest ih => rw [List.flatten_cons, ih, List.take_append_drop]

/-- Pairs separated by blanks, a newline before every line. -/
def dump (bytes : Bytes) : String :=
  String.join ((rows bytes).map fun row => "\n" ++ " ".intercalate (row.map pair))

end ModbusSlave.Hex
