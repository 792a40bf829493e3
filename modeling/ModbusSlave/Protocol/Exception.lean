/-!
# Exceptions

A request that cannot be served is answered with an exception code. Codes without a meaning of their
own are kept as they are.
-/
namespace ModbusSlave

inductive ExceptionCode
  | illegalFunction
  | illegalDataAddress
  | illegalDataValue
  | serverDeviceFailure
  | acknowledge
  | serverDeviceBusy
  | memoryParityError
  | gatewayPathUnavailable
  | gatewayTargetDeviceFailedToRespond
  | unknown (code : UInt8)
deriving DecidableEq, Repr

namespace ExceptionCode

def code : ExceptionCode → UInt8
  | illegalFunction => 0x01
  | illegalDataAddress => 0x02
  | illegalDataValue => 0x03
  | serverDeviceFailure => 0x04
  | acknowledge => 0x05
  | serverDeviceBusy => 0x06
  | memoryParityError => 0x08
  | gatewayPathUnavailable => 0x0A
  | gatewayTargetDeviceFailedToRespond => 0x0B
  | unknown code => code

/-- The codes with a meaning, in ascending order. -/
def named : List ExceptionCode :=
  [illegalFunction, illegalDataAddress, illegalDataValue, serverDeviceFailure, acknowledge,
    serverDeviceBusy, memoryParityError, gatewayPathUnavailable,
    gatewayTargetDeviceFailedToRespond]

def ofCode (b : UInt8) : ExceptionCode := (named.find? (·.code == b)).getD (unknown b)

theorem code_ofCode (b : UInt8) : (ofCode b).code = b := by
  unfold ofCode
  cases h : named.find? (·.code == b) with
  | none => rfl
  | some e => simpa using List.find?_some h

def name : ExceptionCode → String
  | illegalFunction => "IllegalFunction"
  | illegalDataAddress => "IllegalDataAddress"
  | illegalDataValue => "IllegalDataValue"
  | serverDeviceFailure => "ServerDeviceFailure"
  | acknowledge => "Acknowledge"
  | serverDeviceBusy => "ServerDeviceBusy"
  | memoryParityError => "MemoryParityError"
  | gatewayPathUnavailable => "GatewayPathUnavailable"
  | gatewayTargetDeviceFailedToRespond => "GatewayTargetDeviceFailedToRespond"
  | unknown code => "Unknown(" ++ toString code.toNat ++ ")"

def message : ExceptionCode → String
  | illegalFunction =>
    "function code received in the query is not an allowable action for the server"
  | illegalDataAddress =>
    "data address received in the query is not an allowable address for the server"
  | illegalDataValue => "value contained in the request is not an allowable value for server"
  | serverDeviceFailure =>
    "unrecoverable error occurred while the server was attempting to perform the requested action"
  | acknowledge => "server has accepted the request and is processing it"
  | serverDeviceBusy =>
    "server is engaged in processing a long-duration program command, try again later"
  | memoryParityError =>
    "server attempted to read a record file, but detected a parity error in the memory"
  | gatewayPathUnavailable =>
    "gateway was unable to allocate an internal communication path from the input port to the " ++
      "output port for processing the request"
  | gatewayTargetDeviceFailedToRespond =>
    "gateway did not receive a response from the target device"
  | unknown code => "unknown exception code: " ++ toString code.toNat

end ExceptionCode

end ModbusSlave
