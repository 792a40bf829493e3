import ModbusSlave.Console.Program

/-!
# Running the program

The slave with its commands read from standard input, line by line. There is no way to open a port
from here, so nothing but the commands reaches it.
-/
namespace ModbusSlave

/-- Answer lines until the input or the program ends. -/
partial def serve (input output : IO.FS.Stream) (t : Trial Memory) : IO UInt32 := do
  let text ← try pure (some (← input.getLine)) catch _ => pure none
  match text with
  | none => return 1
  | some text =>
    match Lines.split text.toUTF8.toList with
    | [] => if text.isEmpty then return 0 else serve input output t
    | line :: _ =>
      match Program.respond t line with
      | .error status => return UInt32.ofNat status
      | .ok (t, printed) =>
        for line in printed do output.putStrLn line
        output.flush
        serve input output t

end ModbusSlave

open ModbusSlave in
def main (args : List String) : IO UInt32 := do
  match Arguments.read args with
  | .help =>
    for choice in Arguments.Choice.all do IO.println ("--" ++ choice.name)
    return 0
  | .refused =>
    IO.eprintln "unknown or unfitting arguments"
    return 2
  | .run a =>
    if a.serial.isSome then
      IO.eprintln "the serial port cannot be opened"
      return 1
    else
      let (t, _) := Program.obey (Program.start a false) .look
      serve (← IO.getStdin) (← IO.getStdout) t
