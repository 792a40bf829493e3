import ModbusSlave.Text.Hex

/-!
# What can go wrong

Faults are told apart by cause, and each cause has one text. A session ends with a `RequestFault`;
adding a listener or a port fails with a `ListenFault`.
-/
namespace ModbusSlave

/-- The server no longer takes anything on. -/
def shutdownMessage : String := "the server has been shut down"

inductive IoKind
  | notFound
  | permissionDenied
  | connectionRefused
  | connectionReset
  | connectionAborted
  | notConnected
  | addrInUse
  | networkUnreachable
  | brokenPipe
  | wouldBlock
  | invalidInput
  | invalidData
  | timedOut
  | writeZero
  | interrupted
  | unexpectedEof
  | other
  /-- What no other kind stands for. -/
  | uncategorized
deriving DecidableEq, Repr

namespace IoKind

def all : List IoKind :=
  [notFound, permissionDenied, connectionRefused, connectionReset, connectionAborted, notConnected,
    addrInUse, networkUnreachable, brokenPipe, wouldBlock, invalidInput, invalidData, timedOut,
    writeZero, interrupted, unexpectedEof, other, uncategorized]

def name : IoKind → String
  | notFound => "NotFound"
  | permissionDenied => "PermissionDenied"
  | connectionRefused => "ConnectionRefused"
  | connectionReset => "ConnectionReset"
  | connectionAborted => "ConnectionAborted"
  | notConnected => "NotConnected"
  | addrInUse => "AddrInUse"
  | networkUnreachable => "NetworkUnreachable"
  | brokenPipe => "BrokenPipe"
  | wouldBlock => "WouldBlock"
  | invalidInput => "InvalidInput"
  | invalidData => "InvalidData"
  | timedOut => "TimedOut"
  | writeZero => "WriteZero"
  | interrupted => "Interrupted"
  | unexpectedEof => "UnexpectedEof"
  | other => "Other"
  | uncategorized => "Uncategorized"

def ofName? (s : String) : Option IoKind := all.find? (·.name == s)

def message : IoKind → String
  | notFound => "entity not found"
  | permissionDenied => "permission denied"
  | connectionRefused => "connection refused"
  | connectionReset => "connection reset"
  | connectionAborted => "connection aborted"
  | notConnected => "not connected"
  | addrInUse => "address in use"
  | networkUnreachable => "network unreachable"
  | brokenPipe => "broken pipe"
  | wouldBlock => "operation would block"
  | invalidInput => "invalid input parameter"
  | invalidData => "invalid data"
  | timedOut => "timed out"
  | writeZero => "write zero"
  | interrupted => "operation interrupted"
  | unexpectedEof => "unexpected end of file"
  | other => "other error"
  | uncategorized => "uncategorized error"

end IoKind

/-- Received bytes that are no frame. -/
inductive FrameFault
  | mbapLengthZero
  | missingFunctionCode
  | mbapLengthTooBig (length limit : Nat)
  | unknownProtocolId (id : UInt16)
  | checksumMismatch (received calculated : UInt16)
  | frameTooLong (length limit : Nat)
  | frameTooShort (length : Nat)
deriving DecidableEq, Repr

namespace FrameFault

def name : FrameFault → String
  | mbapLengthZero => "MbapLengthZero"
  | missingFunctionCode => "MissingFunctionCode"
  | mbapLengthTooBig _ _ => "MbapLengthTooBig"
  | unknownProtocolId _ => "UnknownProtocolId"
  | checksumMismatch _ _ => "CrcValidationFailure"
  | frameTooLong _ _ => "FrameLengthTooBig"
  | frameTooShort _ => "FrameLengthTooSmall"

def message : FrameFault → String
  | mbapLengthZero => "received TCP frame with the length field set to zero"
  | missingFunctionCode => "received TCP frame without a function code"
  | mbapLengthTooBig length limit =>
    "received TCP frame with length (" ++ toString length ++ ") that exceeds max allowed size (" ++
      toString limit ++ ")"
  | unknownProtocolId id =>
    "received TCP frame with non-Modbus protocol id: " ++ toString id.toNat
  | checksumMismatch received calculated =>
    "received serial frame with CRC (" ++ Hex.word received ++
      ") that doesn't match the calculated CRC (" ++ Hex.word calculated ++ ")"
  | frameTooLong length limit =>
    "received serial frame of length (" ++ toString length ++
      ") that exceeds max allowed size (" ++ toString limit ++ ")"
  | frameTooShort length =>
    "received serial frame of length (" ++ toString length ++ ") that is too short to be valid"

end FrameFault

/-- More bytes were asked of a buffer than it holds. -/
structure Shortage where
  wanted : Nat
  remaining : Nat
deriving DecidableEq, Repr

namespace Shortage

def name : String := "InsufficientBytesForRead"

def message (s : Shortage) : String :=
  "attempted to read " ++ toString s.wanted ++ " bytes with only " ++ toString s.remaining ++
    " remaining"

end Shortage

inductive RequestFault
  | io (kind : IoKind)
  | badFrame (fault : FrameFault)
  | internal (shortage : Shortage)
  | shutdown
deriving DecidableEq, Repr

namespace RequestFault

def name : RequestFault → String
  | io kind => "Io." ++ kind.name
  | badFrame fault => "BadFrame." ++ fault.name
  | internal _ => "Internal." ++ Shortage.name
  | shutdown => "Shutdown"

def message : RequestFault → String
  | io kind => "i/o error: " ++ kind.message
  | badFrame fault => "bad frame: " ++ fault.message
  | internal shortage => "internal error: " ++ shortage.message
  | shutdown => "the session was shut down"

end RequestFault

/-- Why a listener or a port could not be added; the host words its own refusals. -/
inductive ListenFault
  | io (kind : IoKind) (detail : String)
  | serial (detail : String)
  | shutdown
deriving DecidableEq, Repr

namespace ListenFault

def name : ListenFault → String
  | io kind _ => "Io." ++ kind.name
  | serial _ => "Serial"
  | shutdown => "Shutdown"

def message : ListenFault → String
  | io _ detail => "i/o error: " ++ detail
  | serial detail => "serial port error: " ++ detail
  | shutdown => shutdownMessage

end ListenFault

end ModbusSlave
