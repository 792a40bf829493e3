/-!
# Network endpoints

An address and a port in their usual text. Four decimal octets without leading zeros, or up to eight
hexadecimal groups in square brackets, of which one run of zeros may be left out and the last two
may be written as octets; a scope may follow the groups.
-/
namespace ModbusSlave

inductive Endpoint
  | v4 (octets : List Nat) (port : Nat)
  | v6 (groups : List Nat) (scope port : Nat)
deriving DecidableEq, Repr

namespace Endpoint

def digit? (base : Nat) (c : Char) : Option Nat :=
  let value :=
    if c.isDigit then c.toNat - '0'.toNat
    else if 'a' ≤ c ∧ c ≤ 'f' then c.toNat - 'a'.toNat + 10
    else if 'A' ≤ c ∧ c ≤ 'F' then c.toNat - 'A'.toNat + 10
    else base
  if value < base then some value else none

def digits (base : Nat) : List Char → List Nat × List Char
  | [] => ([], [])
  | c :: cs =>
    match digit? base c with
    | none => ([], c :: cs)
    | some d =>
      let (ds, rest) := digits base cs
      (d :: ds, rest)

def number (base bound : Nat) (most : Option Nat) (leadingZero : Bool) (cs : List Char) :
    Option (Nat × List Char) :=
  let (ds, rest) := digits base cs
  let value := ds.foldl (fun n d => n * base + d) 0
  let fits := match most with
    | some n => ds.length ≤ n
    | none => true
  if ds.isEmpty ∨ !fits ∨ bound ≤ value ∨ (!leadingZero ∧ ds.head? = some 0 ∧ 1 < ds.length) then
    none
  else some (value, rest)

def character (c : Char) : List Char → Option (List Char)
  | d :: rest => if c = d then some rest else none
  | [] => none

def octets : Nat → List Char → Option (List Nat × List Char)
  | 0, cs => some ([], cs)
  | n + 1, cs => do
    let (octet, cs) ← number 10 256 (some 3) false cs
    let cs ← if n = 0 then some cs else character '.' cs
    let (rest, cs) ← octets n cs
    return (octet :: rest, cs)

/-- At most `limit` groups, colons between them; the flag tells whether they end in octets. -/
def groups (limit : Nat) (isFirst : Bool) (cs : List Char) : List Nat × Bool × List Char :=
  match limit with
  | 0 => ([], false, cs)
  | limit + 1 =>
    match if isFirst then some cs else character ':' cs with
    | none => ([], false, cs)
    | some after =>
      match if 0 < limit then octets 4 after else none with
      | some ([a, b, c, d], rest) => ([a * 256 + b, c * 256 + d], true, rest)
      | _ =>
        match number 16 65536 (some 4) true after with
        | none => ([], false, cs)
        | some (group, rest) =>
          let (more, ended, rest) := groups limit false rest
          (group :: more, ended, rest)

/-- Eight groups, the ones that are left out being zero. -/
def address6 (cs : List Char) : Option (List Nat × List Char) := do
  let (front, ended, cs) := groups 8 true cs
  if front.length = 8 then some (front, cs)
  else if ended then none
  else
    let cs ← character ':' cs
    let cs ← character ':' cs
    let (back, _, cs) := groups (7 - front.length) true cs
    return (front ++ List.replicate (8 - front.length - back.length) 0 ++ back, cs)

def port (cs : List Char) : Option (Nat × List Char) := do
  number 10 65536 none true (← character ':' cs)

def ofText? (s : String) : Option Endpoint :=
  let four : Option Endpoint := do
    let (octets, cs) ← octets 4 s.toList
    let (port, cs) ← port cs
    if cs.isEmpty then some (.v4 octets port) else none
  let six : Option Endpoint := do
    let cs ← character '[' s.toList
    let (groups, cs) ← address6 cs
    let (scope, cs) ← match character '%' cs with
      | some cs => number 10 UInt32.size none true cs
      | none => some (0, cs)
    let cs ← character ']' cs
    let (port, cs) ← port cs
    if cs.isEmpty then some (.v6 groups scope port) else none
  four <|> six

def octets? : Endpoint → Option (List Nat)
  | v4 octets _ => some octets
  | v6 [0, 0, 0, 0, 0, 0xffff, a, b] _ _ => some [a / 256, a % 256, b / 256, b % 256]
  | v6 _ _ _ => none

/-- The address stands for every address of the host. -/
def isWildcard (e : Endpoint) : Bool :=
  match e with
  | v4 octets _ => octets.all (· = 0)
  | v6 groups _ _ => groups.all (· = 0) || e.octets? = some [0, 0, 0, 0]

/-- A host without a network takes every address of four octets for its own, and of the longer ones
only those that stand for all or for four octets. -/
def isAvailable (e : Endpoint) : Bool := e.octets?.isSome || e.isWildcard

def portNumber : Endpoint → Nat
  | v4 _ port | v6 _ _ port => port

/-- Two listeners cannot share a port, unless it is chosen for them, at addresses that overlap. -/
def conflicts (e f : Endpoint) : Bool :=
  e.portNumber ≠ 0 && e.portNumber = f.portNumber &&
    (e.isWildcard || f.isWildcard || e.octets? = f.octets?)

end Endpoint

end ModbusSlave
