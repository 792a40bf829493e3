import ModbusSlave.Console.Endpoint

/-!
# Arguments

The options of the program. A value stands behind its option as the next argument or behind an
equals sign; only the option to listen may be repeated. Anything else, and every value that does not
fit, is refused as a whole.
-/
namespace ModbusSlave

structure Arguments where
  unit : UInt8
  listen : List Endpoint
  maxSessions : Option Nat
  serial : Option String
  baudRate : UInt32
deriving DecidableEq, Repr

namespace Arguments

inductive Choice
  | unit
  | listen
  | maxSessions
  | serial
  | baudRate
deriving DecidableEq, Repr

def Choice.all : List Choice := [unit, listen, maxSessions, serial, baudRate]

def Choice.name : Choice → String
  | unit => "unit-id"
  | listen => "tcp"
  | maxSessions => "max-sessions"
  | serial => "serial"
  | baudRate => "baud"

abbrev Setting := Choice × String

inductive Reading
  | run (arguments : Arguments)
  | help
  | refused
deriving DecidableEq, Repr

/-- A number of at most `limit`, which may carry a plus sign. If it is `signed`, a minus sign is
understood as well, but then only zero is not too small. -/
def number? (limit : Nat) (signed : Bool) (s : String) : Option Nat :=
  let (digits, limit) := match s.toList with
    | '+' :: rest => (rest, limit)
    | '-' :: rest => if signed then (rest, 0) else ('-' :: rest, limit)
    | cs => (cs, limit)
  if digits.isEmpty ∨ !digits.all Char.isDigit then none
  else
    let n := digits.foldl (fun n c => n * 10 + (c.toNat - '0'.toNat)) 0
    if n ≤ limit then some n else none

def standard : Arguments := ⟨1, [], none, none, 9600⟩

def set? (a : Arguments) : Setting → Option Arguments
  | (.unit, s) => (number? 255 true s).map fun n => { a with unit := UInt8.ofNat n }
  | (.listen, s) => (Endpoint.ofText? s).map fun e => { a with listen := a.listen ++ [e] }
  | (.maxSessions, s) =>
    (number? (UInt64.size - 1) false s).map fun n => { a with maxSessions := some n }
  | (.serial, s) => some { a with serial := some s }
  | (.baudRate, s) =>
    (number? (UInt32.size - 1) true s).map fun n => { a with baudRate := UInt32.ofNat n }

/-- An argument that looks like an option cannot be the value of one. -/
def isOption (s : String) : Bool := s.startsWith "-" && s != "-"

def longOption? (s : String) : Option (String × Option String) :=
  match s.toList with
  | '-' :: '-' :: rest =>
    let name := rest.takeWhile (· ≠ '=')
    let value := match rest.dropWhile (· ≠ '=') with
      | _ :: value => some (String.ofList value)
      | [] => none
    some (String.ofList name, value)
  | _ => none

def readFrom (a : Arguments) (chosen : List Choice) : List String → Reading
  | [] => .run a
  | s :: rest =>
    if s = "--" then if rest.isEmpty then .run a else .refused
    else if s = "-h" ∨ s = "--help" then .help
    else
      match longOption? s with
      | none => .refused
      | some (name, value) =>
        match Choice.all.find? (·.name == name) with
        | none => .refused
        | some choice =>
          if choice ≠ .listen ∧ choice ∈ chosen then .refused
          else
            match value, rest with
            | some value, rest =>
              match a.set? (choice, value) with
              | some a => readFrom a (choice :: chosen) rest
              | none => .refused
            | none, value :: rest =>
              if isOption value then .refused
              else
                match a.set? (choice, value) with
                | some a => readFrom a (choice :: chosen) rest
                | none => .refused
            | none, [] => .refused

def read (args : List String) : Reading := readFrom standard [] args

/-- Every endpoint can be listened on, and no two listeners get in each other's way. -/
def canListen (a : Arguments) : Bool :=
  a.listen.all Endpoint.isAvailable && a.listen.Pairwise fun e f => !e.conflicts f

end Arguments

end ModbusSlave
