import ModbusSlave.Protocol.Exception
import ModbusSlave.Settings.Document
import ModbusSlave.Settings.Serial
import ModbusSlave.Settings.Server

/-!
# The written form of settings

One form for every type that a configuration can mention. Counts of cells and sessions are limited
by the machine word, and a span of time is whole seconds with nanoseconds that may carry over.
-/
namespace ModbusSlave

namespace Form

def byte : Form Nat := natural 255

/-- What fits a machine word of 64 bits. -/
def size : Form Nat := natural (UInt64.size - 1)

end Form

def Field.required (name : String) : Field := ⟨name, false⟩

def UnitId.form : Form UnitId where
  read d :=
    match d.fields [.required "value"] with
    | some [value] => (Form.byte.read value).map fun n => ⟨UInt8.ofNat n⟩
    | _ => none
  write unit := .record [("value", Form.byte.write unit.value.toNat)]

/-- A code without a meaning is written with its number. -/
def ExceptionCode.form : Form ExceptionCode where
  read
    | .record [("Unknown", code)] =>
      (Form.byte.read code).map fun n => .unknown (UInt8.ofNat n)
    | d => (Form.oneOf ExceptionCode.named ExceptionCode.name).read d
  write
    | .unknown code => .record [("Unknown", Form.byte.write code.toNat)]
    | e => .text e.name

def AppLevel.form : Form AppLevel := .oneOf AppLevel.all AppLevel.name

def FrameLevel.form : Form FrameLevel := .oneOf FrameLevel.all FrameLevel.name

def PhysicalLevel.form : Form PhysicalLevel := .oneOf PhysicalLevel.all PhysicalLevel.name

def DecodeLevel.form : Form DecodeLevel where
  read d :=
    match d.fields [.required "app", .required "frame", .required "physical"] with
    | some [app, frame, physical] => do
      return ⟨← AppLevel.form.read app, ← FrameLevel.form.read frame,
        ← PhysicalLevel.form.read physical⟩
    | _ => none
  write level := .record
    [("app", AppLevel.form.write level.app), ("frame", FrameLevel.form.write level.frame),
      ("physical", PhysicalLevel.form.write level.physical)]

def BankCapacity.form : Form BankCapacity where
  read d :=
    match d.fields [.required "discrete_inputs", .required "coils", .required "holding_registers",
        .required "input_registers"] with
    | some [discreteInputs, coils, holdingRegisters, inputRegisters] => do
      return ⟨← Form.size.read discreteInputs, ← Form.size.read coils,
        ← Form.size.read holdingRegisters, ← Form.size.read inputRegisters⟩
    | _ => none
  write c := .record
    [("discrete_inputs", Form.size.write c.discreteInputs), ("coils", Form.size.write c.coils),
      ("holding_registers", Form.size.write c.holdingRegisters),
      ("input_registers", Form.size.write c.inputRegisters)]

/-- Seconds and nanoseconds, and nothing else. A whole number of seconds in the nanoseconds is
carried over, as long as the sum still fits. -/
def Duration.form : Form Duration where
  read d := do
    let known : Bool := match d with
      | .record members => members.all fun (name, _) => name == "secs" || name == "nanos"
      | _ => true
    match d.fields [.required "secs", .required "nanos"] with
    | some [seconds, nanoseconds] =>
      let seconds ← Form.size.read seconds
      let nanoseconds ← (Form.natural (UInt32.size - 1)).read nanoseconds
      if known ∧ seconds + nanoseconds / 1000000000 < UInt64.size then
        return ⟨seconds * 1000000000 + nanoseconds⟩
      else none
    | _ => none
  write d := .record
    [("secs", Form.size.write (d.nanoseconds / 1000000000)),
      ("nanos", .integer (d.nanoseconds % 1000000000))]

def SerialSettings.form : Form SerialSettings where
  read d :=
    match d.fields [.required "baud_rate", .required "data_bits", .required "flow_control",
        .required "stop_bits", .required "parity"] with
    | some [baudRate, dataBits, flowControl, stopBits, parity] => do
      return ⟨UInt32.ofNat (← (Form.natural (UInt32.size - 1)).read baudRate),
        ← (Form.oneOf DataBits.all DataBits.name).read dataBits,
        ← (Form.oneOf FlowControl.all FlowControl.name).read flowControl,
        ← (Form.oneOf StopBits.all StopBits.name).read stopBits,
        ← (Form.oneOf Parity.all Parity.name).read parity⟩
    | _ => none
  write s := .record
    [("baud_rate", .integer s.baudRate.toNat), ("data_bits", .text s.dataBits.name),
      ("flow_control", .text s.flowControl.name), ("stop_bits", .text s.stopBits.name),
      ("parity", .text s.parity.name)]

/-- The limit of sessions may be left out. -/
def ServerSettings.form : Form ServerSettings where
  read d :=
    match d.fields [.required "unit_id", .required "capacity", .required "write_timeout",
        ⟨"max_sessions", true⟩, .required "decode"] with
    | some [unit, capacity, writeTimeout, maxSessions, decode] => do
      return ⟨← UnitId.form.read unit, ← BankCapacity.form.read capacity,
        ← Duration.form.read writeTimeout, ← Form.size.optional.read maxSessions,
        ← DecodeLevel.form.read decode⟩
    | _ => none
  write s := .record
    [("unit_id", UnitId.form.write s.unit), ("capacity", BankCapacity.form.write s.capacity),
      ("write_timeout", Duration.form.write s.writeTimeout),
      ("max_sessions", Form.size.optional.write s.maxSessions),
      ("decode", DecodeLevel.form.write s.decode)]

end ModbusSlave
