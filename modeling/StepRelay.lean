import StepRelay.Cell
import StepRelay.Clock
import StepRelay.Config.Basic
import StepRelay.Config.Document
import StepRelay.Config.Load
import StepRelay.Double.Basic
import StepRelay.Double.Decimal
import StepRelay.Double.Layout
import StepRelay.Environment
import StepRelay.Event
import StepRelay.Files
import StepRelay.Json.Basic
import StepRelay.Json.Fault
import StepRelay.Json.Printer
import StepRelay.Json.Reader
import StepRelay.Json.Record
import StepRelay.Json.Scalar
import StepRelay.Json.Skip
import StepRelay.Json.TreeField
import StepRelay.Log.Entry
import StepRelay.Log.Ring
import StepRelay.Log.Sink
import StepRelay.OrderedMap
import StepRelay.Path.Basic
import StepRelay.Proofs.Acceptance
import StepRelay.Proofs.Ambiguity
import StepRelay.Proofs.ArchiveRecords
import StepRelay.Proofs.Attribution
import StepRelay.Proofs.Beginning
import StepRelay.Proofs.BrokenPublish
import StepRelay.Proofs.Cancellation
import StepRelay.Proofs.CellText
import StepRelay.Proofs.Commuting
import StepRelay.Proofs.ConfigFile
import StepRelay.Proofs.ConfigPath
import StepRelay.Proofs.Conversion
import StepRelay.Proofs.Decoders
import StepRelay.Proofs.Documents
import StepRelay.Proofs.Equality
import StepRelay.Proofs.EventStream
import StepRelay.Proofs.EventText
import StepRelay.Proofs.Execution
import StepRelay.Proofs.Finiteness
import StepRelay.Proofs.Grammar
import StepRelay.Proofs.InFlight
import StepRelay.Proofs.IntegerLiterals
import StepRelay.Proofs.Invocation
import StepRelay.Proofs.Isolation
import StepRelay.Proofs.Kept
import StepRelay.Proofs.LogBuffers
import StepRelay.Proofs.LogRetention
import StepRelay.Proofs.LogicalTimes
import StepRelay.Proofs.OrderedMap
import StepRelay.Proofs.RawTree
import StepRelay.Proofs.Readers
import StepRelay.Proofs.Records
import StepRelay.Proofs.Reencoding
import StepRelay.Proofs.Refusals
import StepRelay.Proofs.Restamped
import StepRelay.Proofs.RoundTrip
import StepRelay.Proofs.Rounding
import StepRelay.Proofs.Run
import StepRelay.Proofs.SameBut
import StepRelay.Proofs.Scalars
import StepRelay.Proofs.ScriptLogs
import StepRelay.Proofs.Simulation
import StepRelay.Proofs.SinkTrees
import StepRelay.Proofs.Skipping
import StepRelay.Proofs.SpelledRecords
import StepRelay.Proofs.Spelling
import StepRelay.Proofs.Supervisor
import StepRelay.Proofs.Table
import StepRelay.Proofs.Timeless
import StepRelay.Proofs.TimestampText
import StepRelay.Proofs.Transport
import StepRelay.Proofs.Uncancelled
import StepRelay.Proofs.WriteLog
import StepRelay.Proofs.Writers
import StepRelay.Session
import StepRelay.Step.Error
import StepRelay.Step.Invocation
import StepRelay.Step.Script
import StepRelay.Step.Store
import StepRelay.Supervisor.Archive
import StepRelay.Supervisor.Basic
import StepRelay.Supervisor.Execution
import StepRelay.Table
import StepRelay.Text.Blank
import StepRelay.Text.Quoted
import StepRelay.Text.Shown
import StepRelay.Time.Timestamp
import StepRelay.Trace
import StepRelay.Value.Basic
import StepRelay.Value.Error
import StepRelay.Value.Item
import StepRelay.Value.Text
import StepRelay.Value.Tree
import StepRelay.Wire.Cell
import StepRelay.Wire.Config
import StepRelay.Wire.Dated
import StepRelay.Wire.Event
import StepRelay.Wire.LogEntry
import StepRelay.Yaml.Glyph
import StepRelay.Yaml.Node
import StepRelay.Yaml.Scalar
import StepRelay.Yaml.Token
