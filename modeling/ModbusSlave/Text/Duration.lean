/-!
# Spans of time

A span counts nanoseconds. Timers run in whole milliseconds and round up, so that nothing happens
early. As text a span takes the largest of the units s, ms, µs and ns that leaves a whole part, with
as many decimals as it needs and no more.
-/
namespace ModbusSlave

structure Duration where
  nanoseconds : Nat
deriving DecidableEq, Repr, Inhabited

namespace Duration

def ofMicroseconds (n : Nat) : Duration := ⟨n * 1000⟩

def ofSeconds (n : Nat) : Duration := ⟨n * 1000000000⟩

def microseconds (d : Duration) : Nat := d.nanoseconds / 1000

/-- Timer ticks of a millisecond, rounded up. -/
def ticks (d : Duration) : Nat := (d.nanoseconds + 999999) / 1000000

theorem le_ticks (d : Duration) : d.nanoseconds ≤ d.ticks * 1000000 := by
  unfold ticks
  omega

def decimals (digits n : Nat) : List Char :=
  let written := (Nat.toDigits 10 n)
  let padded := List.replicate (digits - written.length) '0' ++ written
  (padded.reverse.dropWhile (· == '0')).reverse

def scaled (digits n : Nat) : String :=
  let whole := toString (n / Nat.pow 10 digits)
  match decimals digits (n % Nat.pow 10 digits) with
  | [] => whole
  | fraction => whole ++ "." ++ String.ofList fraction

def text (d : Duration) : String :=
  if 1000000000 ≤ d.nanoseconds then scaled 9 d.nanoseconds ++ "s"
  else if 1000000 ≤ d.nanoseconds then scaled 6 d.nanoseconds ++ "ms"
  else if 1000 ≤ d.nanoseconds then scaled 3 d.nanoseconds ++ "µs"
  else scaled 0 d.nanoseconds ++ "ns"

end Duration

end ModbusSlave
