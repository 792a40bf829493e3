import ModbusSlave.Frame
import ModbusSlave.Protocol.Fault
import ModbusSlave.Text.Duration

/-!
# The log

Everything that is worth a line in the log is an event. An event carries what it speaks of, not its
text, and traffic carries the level it is shown at; `Event.line` writes it out.
-/
namespace ModbusSlave

inductive Severity
  | debug
  | info
  | warn
  | error
deriving DecidableEq, Repr

def Severity.name : Severity → String
  | debug => "DEBUG"
  | info => "INFO"
  | warn => "WARN"
  | error => "ERROR"

/-- Why a response could not be written. -/
inductive WriteFault
  | io (kind : IoKind)
  | timedOut (limit : Duration)
deriving DecidableEq, Repr

def WriteFault.message : WriteFault → String
  | io kind => kind.message
  | timedOut limit => "timed out after " ++ limit.text

inductive Event
  | bytesReceived (level : PhysicalLevel) (bytes : Bytes)
  | bytesSent (level : PhysicalLevel) (bytes : Bytes)
  | frameReceived (level : FrameLevel) (frame : Frame)
  | frameSent (level : FrameLevel) (frame : Frame)
  | requestReceived (level : AppLevel) (frame : Frame)
  | responseSent (level : AppLevel) (frame : Frame)
  | reservedUnit (unit : UnitId)
  | discarded (fault : FrameFault)
  | foreignUnit (unit own : UnitId)
  | oversized (function : UInt8) (length : Nat)
  | writeFailed (persistent : Bool) (fault : WriteFault)
  | releaseTimedOut (limit : Duration)
  | registered (code : UInt8)
  | removed (code : UInt8)
  | workerStopped
  | workerAlreadyStopped
  | listening (address : String)
  | accepted (id : Nat) (peer : String)
  | evicted (id : Nat)
  | sessionEnded (id : Nat) (fault : RequestFault)
  | acceptFailed (kind : IoKind)
  | closingListener (sessions : Nat)
  | listenerClosed (address : String)
  | portOpened (name : String)
  | portServing (name : String)
  | portEnded (name : String) (fault : RequestFault)
  | portClosed (name : String)
  | serverClosed
deriving DecidableEq, Repr

/-- The number of bytes, followed by the bytes themselves if the level shows them. -/
def bytesText (level : PhysicalLevel) (bytes : Bytes) : String :=
  toString bytes.length ++ " bytes" ++ (if level.showsData then Hex.dump bytes else "")

def Framing.name : Framing → String
  | mbap _ => "MBAP"
  | rtu => "RTU"

namespace Event

def severity : Event → Severity
  | reservedUnit _ | discarded _ | oversized _ _ | writeFailed _ _ | releaseTimedOut _
  | evicted _ => .warn
  | portEnded _ fault => if fault = .shutdown then .info else .warn
  | foreignUnit _ _ | registered _ | removed _ | workerAlreadyStopped => .debug
  | acceptFailed _ => .error
  | _ => .info

def message : Event → String
  | bytesReceived level bytes => "PHYS RX - " ++ bytesText level bytes
  | bytesSent level bytes => "PHYS TX - " ++ bytesText level bytes
  | frameReceived level frame => frame.framing.name ++ " RX - " ++ frame.text level
  | frameSent level frame => "FRAME TX - " ++ frame.text level
  | requestReceived level frame => "PDU RX - " ++ frame.pduText level
  | responseSent level frame => "PDU TX - " ++ frame.pduText level
  | reservedUnit unit =>
    "received reserved unit ID " ++ unit.text ++
      ", violating the Modbus RTU standard. Passing it through nevertheless."
  | discarded fault => "discarding received data: " ++ fault.message
  | foreignUnit unit own =>
    "ignoring frame for unit " ++ unit.text ++ " (this unit is " ++ own.text ++ ")"
  | oversized function length =>
    "handler for function code " ++ Hex.byte function ++ " returned " ++ toString length ++
      " bytes, which exceeds the PDU size"
  | writeFailed persistent fault =>
    (if persistent then "unable to write response: "
      else "unable to write response, closing connection: ") ++ fault.message
  | releaseTimedOut limit => "connection shutdown timed out after " ++ limit.text
  | registered code => "registered handler for function code " ++ Hex.byte code
  | removed code => "removed handler for function code " ++ Hex.byte code
  | workerStopped => "dispatch worker shut down"
  | workerAlreadyStopped => "worker already stopped"
  | listening address => "listening on " ++ address
  | accepted id peer => "accepted connection " ++ toString id ++ " from: " ++ peer
  | evicted id => "exceeded max connections, closing oldest session: " ++ toString id
  | sessionEnded id fault => "shutdown session " ++ toString id ++ ": " ++ fault.message
  | acceptFailed kind => "error accepting connection: " ++ kind.message
  | closingListener sessions => "closing listener and " ++ toString sessions ++ " session(s)"
  | listenerClosed address => "closed listener " ++ address
  | portOpened name => "opened port " ++ name
  | portServing name => "serving port " ++ name
  | portEnded name fault =>
    if fault = .shutdown then "port " ++ name ++ " shut down"
    else "port " ++ name ++ " stopped serving requests: " ++ fault.message
  | portClosed name => "closed port " ++ name
  | serverClosed => "server closed"

def line (e : Event) : String := e.severity.name ++ " " ++ e.message

end Event

end ModbusSlave
