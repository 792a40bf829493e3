import ModbusSlave.Memory

/-!
# Commands

What can be typed while the program runs. A command looks at the first ten cells of each bank or
changes them, turns the decoding of the traffic on or off, or ends the program.
-/
namespace ModbusSlave

inductive Command
  | quit
  | decode (everything : Bool)
  /-- A change of the memory. -/
  | change (f : Memory → Memory)
  | look
  | unknown

namespace Command

/-- The number of cells that commands are about. -/
def shownCells : Nat := 10

def changeFirst {α : Type} (f : α → α) (bank : Bank α) : Bank α :=
  (List.range shownCells).foldl (fun bank i => bank.modify i f) bank

/-- The command a line stands for, spelled exactly. -/
def ofText (line : String) : Command :=
  match line with
  | "x" => quit
  | "ed" => decode true
  | "dd" => decode false
  | "uc" => change fun m => { m with coils := changeFirst not m.coils }
  | "udi" => change fun m => { m with discreteInputs := changeFirst not m.discreteInputs }
  | "uhr" => change fun m => { m with holdingRegisters := changeFirst (· + 1) m.holdingRegisters }
  | "uir" => change fun m => { m with inputRegisters := changeFirst (· + 1) m.inputRegisters }
  | "show" => look
  | _ => unknown

def cellsText {α : Type} (text : α → String) (bank : Bank α) : String :=
  "[" ++ ", ".intercalate ((bank.extract 0 shownCells).toList.map text) ++ "]"

def view (m : Memory) : List String :=
  let bit (b : Bool) : String := if b then "true" else "false"
  let register (w : UInt16) : String := toString w.toNat
  ["coils: " ++ cellsText bit m.coils,
    "discrete inputs: " ++ cellsText bit m.discreteInputs,
    "holding registers: " ++ cellsText register m.holdingRegisters,
    "input registers: " ++ cellsText register m.inputRegisters]

end Command

end ModbusSlave
