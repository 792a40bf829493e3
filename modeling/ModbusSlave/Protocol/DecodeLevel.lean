/-!
# Decode levels

How much of the traffic is written to the log, chosen for each of three layers on its own. On every
layer a level includes the levels before it.
-/
namespace ModbusSlave

inductive AppLevel
  | nothing
  | functionCode
  | dataHeaders
  | dataValues
deriving DecidableEq, Repr, Inhabited

inductive FrameLevel
  | nothing
  | header
  | payload
deriving DecidableEq, Repr, Inhabited

inductive PhysicalLevel
  | nothing
  | length
  | data
deriving DecidableEq, Repr, Inhabited

namespace AppLevel

def all : List AppLevel := [nothing, functionCode, dataHeaders, dataValues]

def name : AppLevel → String
  | nothing => "Nothing"
  | functionCode => "FunctionCode"
  | dataHeaders => "DataHeaders"
  | dataValues => "DataValues"

def showsCode (l : AppLevel) : Bool := l != nothing

def showsHeaders (l : AppLevel) : Bool := l = dataHeaders || l = dataValues

def showsValues (l : AppLevel) : Bool := l = dataValues

end AppLevel

namespace FrameLevel

def all : List FrameLevel := [nothing, header, payload]

def name : FrameLevel → String
  | nothing => "Nothing"
  | header => "Header"
  | payload => "Payload"

def showsHeader (l : FrameLevel) : Bool := l != nothing

def showsPayload (l : FrameLevel) : Bool := l = payload

end FrameLevel

namespace PhysicalLevel

def all : List PhysicalLevel := [nothing, length, data]

def name : PhysicalLevel → String
  | nothing => "Nothing"
  | length => "Length"
  | data => "Data"

def showsLength (l : PhysicalLevel) : Bool := l != nothing

def showsData (l : PhysicalLevel) : Bool := l = data

end PhysicalLevel

structure DecodeLevel where
  app : AppLevel
  frame : FrameLevel
  physical : PhysicalLevel
deriving DecidableEq, Repr, Inhabited

namespace DecodeLevel

def nothing : DecodeLevel := ⟨.nothing, .nothing, .nothing⟩

def everything : DecodeLevel := ⟨.dataValues, .payload, .data⟩

def ofApp (app : AppLevel) : DecodeLevel := ⟨app, .nothing, .nothing⟩

end DecodeLevel

end ModbusSlave
