import ScriptBackend.Binary64.Basic
import ScriptBackend.Binary64.Round
import ScriptBackend.Code.Buffer
import ScriptBackend.Code.Chunk
import ScriptBackend.Code.FlatCode
import ScriptBackend.Command
import ScriptBackend.Command.Arguments
import ScriptBackend.Command.Demo
import ScriptBackend.Decimal.General
import ScriptBackend.Decimal.Rounded
import ScriptBackend.Decimal.Shortest
import ScriptBackend.Diagnostic
import ScriptBackend.Failure
import ScriptBackend.Files
import ScriptBackend.Files.Tree
import ScriptBackend.FloatPool
import ScriptBackend.Image
import ScriptBackend.Image.Link
import ScriptBackend.Image.Listing
import ScriptBackend.Literal
import ScriptBackend.Literal.Hex
import ScriptBackend.Literal.Numeral
import ScriptBackend.Locals
import ScriptBackend.Main
import ScriptBackend.Options
import ScriptBackend.Options.Load
import ScriptBackend.Proofs.Canonical
import ScriptBackend.Proofs.Code.Contents
import ScriptBackend.Proofs.Code.Finished
import ScriptBackend.Proofs.Code.Fixups
import ScriptBackend.Proofs.Code.Flatten
import ScriptBackend.Proofs.Code.Loops
import ScriptBackend.Proofs.Code.Plain
import ScriptBackend.Proofs.Code.Spans
import ScriptBackend.Proofs.Code.Storage
import ScriptBackend.Proofs.Decimal.General
import ScriptBackend.Proofs.Decimal.Rounding
import ScriptBackend.Proofs.FirstOccurrences
import ScriptBackend.Proofs.FloatInterning
import ScriptBackend.Proofs.FloatPool
import ScriptBackend.Proofs.HexNumerals
import ScriptBackend.Proofs.HexReading
import ScriptBackend.Proofs.History
import ScriptBackend.Proofs.Image.Atomicity
import ScriptBackend.Proofs.Image.Linking
import ScriptBackend.Proofs.Image.PoolScan
import ScriptBackend.Proofs.Image.RoundTrip
import ScriptBackend.Proofs.Interning
import ScriptBackend.Proofs.LiteralNumbers
import ScriptBackend.Proofs.Literals
import ScriptBackend.Proofs.LocalRecords
import ScriptBackend.Proofs.Locals
import ScriptBackend.Proofs.Numerals
import ScriptBackend.Proofs.PoolLayout
import ScriptBackend.Proofs.Quoted
import ScriptBackend.Proofs.ReferenceGroups
import ScriptBackend.Proofs.References
import ScriptBackend.Proofs.Reporting
import ScriptBackend.Proofs.Scope.Calls
import ScriptBackend.Proofs.Scope.Failures
import ScriptBackend.Proofs.Scope.Kinds
import ScriptBackend.Proofs.Scope.Registers
import ScriptBackend.Proofs.Session.Bodies
import ScriptBackend.Proofs.Session.Deferred
import ScriptBackend.Proofs.Session.Linkable
import ScriptBackend.Proofs.Session.Outcomes
import ScriptBackend.Proofs.Session.Reuse
import ScriptBackend.Proofs.Session.Slots
import ScriptBackend.Proofs.Session.Steps
import ScriptBackend.Proofs.Session.Strictness
import ScriptBackend.Proofs.StringPool
import ScriptBackend.Proofs.Terminated
import ScriptBackend.Proofs.Text
import ScriptBackend.Proofs.Tiling
import ScriptBackend.Proofs.Truncation
import ScriptBackend.Proofs.Wire
import ScriptBackend.References
import ScriptBackend.Reporter
import ScriptBackend.Scope
import ScriptBackend.Session
import ScriptBackend.StringPool
import ScriptBackend.Text.Blank
import ScriptBackend.Text.Case
import ScriptBackend.Text.Column
import ScriptBackend.Text.Hidden
import ScriptBackend.Text.Quoted
import ScriptBackend.Text.Terminated
import ScriptBackend.Text.Utf8
import ScriptBackend.Toml.Document
import ScriptBackend.Toml.Moment
import ScriptBackend.Toml.Number
import ScriptBackend.Toml.Parser
import ScriptBackend.Toml.Table
import ScriptBackend.Toml.Text
import ScriptBackend.Wire.Codec
import ScriptBackend.Wire.Varint
