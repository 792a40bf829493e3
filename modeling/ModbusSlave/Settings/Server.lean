import ModbusSlave.Memory
import ModbusSlave.Protocol.DecodeLevel
import ModbusSlave.Protocol.Unit
import ModbusSlave.Text.Duration

/-!
# Settings of a server

What is fixed when a server starts: the unit it answers for, the size of its memory, how long one
response may take to write, and how many network sessions each listener keeps. The decode level can
be changed later.
-/
namespace ModbusSlave

structure ServerSettings where
  unit : UnitId
  capacity : BankCapacity
  writeTimeout : Duration
  maxSessions : Option Nat
  decode : DecodeLevel
deriving DecidableEq, Repr

instance : Inhabited ServerSettings := ⟨⟨default, .full, .ofSeconds 1, none, .nothing⟩⟩

end ModbusSlave
