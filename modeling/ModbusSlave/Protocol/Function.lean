import ModbusSlave.Text.Hex

/-!
# Function codes

Eight functions are standard. In a response the highest bit of the code marks an exception, so the
text of a code looks at the other seven bits and mentions the mark behind them.
-/
namespace ModbusSlave

inductive StandardFunction
  | readCoils
  | readDiscreteInputs
  | readHoldingRegisters
  | readInputRegisters
  | writeSingleCoil
  | writeSingleRegister
  | writeMultipleCoils
  | writeMultipleRegisters
deriving DecidableEq, Repr

/-- The bit of a function code that marks an exception response. -/
def exceptionMark : UInt8 := 0x80

namespace StandardFunction

def code : StandardFunction → UInt8
  | readCoils => 0x01
  | readDiscreteInputs => 0x02
  | readHoldingRegisters => 0x03
  | readInputRegisters => 0x04
  | writeSingleCoil => 0x05
  | writeSingleRegister => 0x06
  | writeMultipleCoils => 0x0F
  | writeMultipleRegisters => 0x10

def all : List StandardFunction :=
  [readCoils, readDiscreteInputs, readHoldingRegisters, readInputRegisters, writeSingleCoil,
    writeSingleRegister, writeMultipleCoils, writeMultipleRegisters]

def ofCode? (b : UInt8) : Option StandardFunction := all.find? (·.code == b)

@[simp] theorem ofCode?_code (f : StandardFunction) : ofCode? f.code = some f := by
  cases f <;> rfl

theorem code_of_ofCode? {b : UInt8} {f : StandardFunction} (h : ofCode? b = some f) :
    f.code = b := by
  simpa using List.find?_some h

def name : StandardFunction → String
  | readCoils => "ReadCoils"
  | readDiscreteInputs => "ReadDiscreteInputs"
  | readHoldingRegisters => "ReadHoldingRegisters"
  | readInputRegisters => "ReadInputRegisters"
  | writeSingleCoil => "WriteSingleCoil"
  | writeSingleRegister => "WriteSingleRegister"
  | writeMultipleCoils => "WriteMultipleCoils"
  | writeMultipleRegisters => "WriteMultipleRegisters"

def title : StandardFunction → String
  | readCoils => "READ COILS"
  | readDiscreteInputs => "READ DISCRETE INPUTS"
  | readHoldingRegisters => "READ HOLDING REGISTERS"
  | readInputRegisters => "READ INPUT REGISTERS"
  | writeSingleCoil => "WRITE SINGLE COIL"
  | writeSingleRegister => "WRITE SINGLE REGISTER"
  | writeMultipleCoils => "WRITE MULTIPLE COILS"
  | writeMultipleRegisters => "WRITE MULTIPLE REGISTERS"

def text (f : StandardFunction) : String := f.title ++ " (" ++ Hex.byte f.code ++ ")"

end StandardFunction

def functionText (code : UInt8) : String :=
  let plain := code &&& ~~~exceptionMark
  let base := match StandardFunction.ofCode? plain with
    | some f => f.text
    | none => "CUSTOM FUNCTION CODE (" ++ Hex.byte plain ++ ")"
  if code &&& exceptionMark != 0 then base ++ " EXCEPTION" else base

end ModbusSlave
