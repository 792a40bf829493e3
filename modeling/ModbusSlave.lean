import ModbusSlave.Bench.Behaviour
import ModbusSlave.Bench.Conversation
import ModbusSlave.Bench.Step
import ModbusSlave.Bench.Trial
import ModbusSlave.Console.Arguments
import ModbusSlave.Console.Command
import ModbusSlave.Console.Endpoint
import ModbusSlave.Console.Lines
import ModbusSlave.Console.Program
import ModbusSlave.Dispatch
import ModbusSlave.Event
import ModbusSlave.Frame
import ModbusSlave.Functions
import ModbusSlave.Main
import ModbusSlave.Memory
import ModbusSlave.Protocol.Address
import ModbusSlave.Protocol.DecodeLevel
import ModbusSlave.Protocol.Exception
import ModbusSlave.Protocol.Fault
import ModbusSlave.Protocol.Function
import ModbusSlave.Protocol.Unit
import ModbusSlave.Settings.Document
import ModbusSlave.Settings.Forms
import ModbusSlave.Settings.Serial
import ModbusSlave.Settings.Server
import ModbusSlave.Station.Action
import ModbusSlave.Station.Basic
import ModbusSlave.Station.Link
import ModbusSlave.Station.Lock
import ModbusSlave.Station.Pipe
import ModbusSlave.Station.Progress
import ModbusSlave.Station.Schedule
import ModbusSlave.Station.Service
import ModbusSlave.Station.Session
import ModbusSlave.Station.Tracker
import ModbusSlave.Stream.Mbap
import ModbusSlave.Stream.ReadBuffer
import ModbusSlave.Stream.Reader
import ModbusSlave.Stream.Rtu
import ModbusSlave.Stream.Script
import ModbusSlave.Stream.Transcript
import ModbusSlave.Text.Duration
import ModbusSlave.Text.Hex
import ModbusSlave.Wire.Bits
import ModbusSlave.Wire.Checksum
import ModbusSlave.Wire.Word
import ModbusSlave.Proofs.Service.Sequential
import ModbusSlave.Proofs.Station.Queue
import ModbusSlave.Proofs.Station.Worker
import ModbusSlave.Proofs.Station.Linearization
import ModbusSlave.Proofs.Stream.Buffer
import ModbusSlave.Proofs.Stream.MbapDecoding
import ModbusSlave.Proofs.Stream.MbapReading
import ModbusSlave.Proofs.Wire.Positions
import ModbusSlave.Proofs.Service.Cells
import ModbusSlave.Proofs.Service.RegisterFile
import ModbusSlave.Proofs.Station.Neighbours
import ModbusSlave.Proofs.Station.Intake
import ModbusSlave.Proofs.Station.Delivery
import ModbusSlave.Proofs.Station.Turns
import ModbusSlave.Proofs.Station.Acceptance
import ModbusSlave.Proofs.Station.Answered
import ModbusSlave.Proofs.Stream.RtuDecoding
import ModbusSlave.Proofs.Stream.RtuReading
import ModbusSlave.Proofs.Station.Integrity
import ModbusSlave.Proofs.Station.Response
import ModbusSlave.Proofs.Stream.MbapFrames
import ModbusSlave.Proofs.Stream.RtuFrames
import ModbusSlave.Proofs.Station.Links
import ModbusSlave.Proofs.Station.Sessions
import ModbusSlave.Proofs.Station.Listeners
import ModbusSlave.Proofs.Station.SessionLimit
import ModbusSlave.Proofs.Station.Departure
import ModbusSlave.Proofs.Station.Admission
import ModbusSlave.Proofs.Station.Release
import ModbusSlave.Proofs.Service.Framings
import ModbusSlave.Proofs.Station.Calls
import ModbusSlave.Proofs.Station.Transports
import ModbusSlave.Proofs.Station.Stages
import ModbusSlave.Proofs.Station.Shutdown
import ModbusSlave.Proofs.Stream.Renewal
import ModbusSlave.Proofs.Station.Lookalikes
import ModbusSlave.Proofs.Station.Recovery
import ModbusSlave.Proofs.Service.Verdicts
import ModbusSlave.Proofs.Service.Writes
import ModbusSlave.Proofs.Station.Output
import ModbusSlave.Proofs.Station.Veils
import ModbusSlave.Proofs.Station.Semblance
import ModbusSlave.Proofs.Station.Decoding
import ModbusSlave.Proofs.Station.Prompt
import ModbusSlave.Proofs.Station.Foreign
import ModbusSlave.Proofs.Service.Reads
import ModbusSlave.Proofs.Service.Parts
import ModbusSlave.Proofs.Station.Registrations
import ModbusSlave.Proofs.Stream.RtuBursts
import ModbusSlave.Proofs.Stream.LooseBuffer
import ModbusSlave.Proofs.Stream.LooseParsing
import ModbusSlave.Proofs.Stream.Rounds
import ModbusSlave.Proofs.Stream.Handling
import ModbusSlave.Proofs.Stream.Progress
import ModbusSlave.Proofs.Station.Locks
import ModbusSlave.Proofs.Station.Clock
import ModbusSlave.Proofs.Station.Punctual
import ModbusSlave.Proofs.Station.Silence
import ModbusSlave.Proofs.Stream.ByteQueue
import ModbusSlave.Proofs.Wire.Packing
