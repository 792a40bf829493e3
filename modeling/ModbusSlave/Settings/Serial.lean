import ModbusSlave.Text.Duration

/-!
# Settings of a serial line

Beside the electrical settings a line has a silent interval of three and a half characters that
separates two frames. Above 19200 baud the interval is fixed at 1750 µs.
-/
namespace ModbusSlave

inductive DataBits
  | five
  | six
  | seven
  | eight
deriving DecidableEq, Repr

inductive FlowControl
  | none
  | software
  | hardware
deriving DecidableEq, Repr

inductive StopBits
  | one
  | two
deriving DecidableEq, Repr

inductive Parity
  | none
  | odd
  | even
deriving DecidableEq, Repr

namespace DataBits

def all : List DataBits := [five, six, seven, eight]

def name : DataBits → String
  | five => "Five"
  | six => "Six"
  | seven => "Seven"
  | eight => "Eight"

def bits : DataBits → Nat
  | five => 5
  | six => 6
  | seven => 7
  | eight => 8

end DataBits

namespace FlowControl

def all : List FlowControl := [none, software, hardware]

def name : FlowControl → String
  | none => "None"
  | software => "Software"
  | hardware => "Hardware"

end FlowControl

namespace StopBits

def all : List StopBits := [one, two]

def name : StopBits → String
  | one => "One"
  | two => "Two"

def bits : StopBits → Nat
  | one => 1
  | two => 2

end StopBits

namespace Parity

def all : List Parity := [none, odd, even]

def name : Parity → String
  | none => "None"
  | odd => "Odd"
  | even => "Even"

def bits : Parity → Nat
  | none => 0
  | odd | even => 1

end Parity

structure SerialSettings where
  baudRate : UInt32
  dataBits : DataBits
  flowControl : FlowControl
  stopBits : StopBits
  parity : Parity
deriving DecidableEq, Repr

namespace SerialSettings

instance : Inhabited SerialSettings := ⟨⟨9600, .eight, .none, .one, .none⟩⟩

/-- Start bit, data, parity and stop bits. -/
def bitsPerCharacter (s : SerialSettings) : Nat :=
  1 + s.dataBits.bits + s.parity.bits + s.stopBits.bits

/-- The silence in front of a frame, in whole microseconds. -/
def silence (s : SerialSettings) : Duration :=
  if s.baudRate.toNat = 0 ∨ 19200 < s.baudRate.toNat then .ofMicroseconds 1750
  else .ofMicroseconds (3500000 * s.bitsPerCharacter / s.baudRate.toNat)

end SerialSettings

end ModbusSlave
