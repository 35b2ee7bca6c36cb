import Transclude.Cache.Basic
import Transclude.Cache.Requests
import Transclude.Command.Arguments
import Transclude.Command.Footprint
import Transclude.Command.Session
import Transclude.Command.Run
import Transclude.Command.Usage
import Transclude.Compile
import Transclude.Condition.Basic
import Transclude.Condition.Error
import Transclude.Condition.Eval
import Transclude.Condition.Expr
import Transclude.Condition.Literal
import Transclude.Condition.Parser
import Transclude.Condition.Token
import Transclude.Condition.Value
import Transclude.Directive
import Transclude.Disk.Basic
import Transclude.Disk.Write
import Transclude.Double.Arithmetic
import Transclude.Double.Basic
import Transclude.Double.Decimal
import Transclude.Double.Shortest
import Transclude.Expansion
import Transclude.Fault
import Transclude.Host.Basic
import Transclude.Host.Disk
import Transclude.Host.Memory
import Transclude.Host.Search
import Transclude.Json.Basic
import Transclude.Json.Parser
import Transclude.Json.Printer
import Transclude.Main
import Transclude.ModuleFormat
import Transclude.Path.Basic
import Transclude.Report.Basic
import Transclude.Report.Failure
import Transclude.Report.Style
import Transclude.Settings
import Transclude.Text.Character
import Transclude.Text.Encoding
import Transclude.Toml.Basic
import Transclude.Toml.Parser
import Transclude.Toml.Scalar
import Transclude.Tree.Basic
import Transclude.Tree.Build
import Transclude.Tree.View
import Transclude.Proofs.Growth
import Transclude.Proofs.IncludeGraph
import Transclude.Proofs.Line
import Transclude.Proofs.Reference
import Transclude.Proofs.Condition.Grammar
import Transclude.Proofs.Condition.Lexeme
import Transclude.Proofs.Condition.Piece
import Transclude.Proofs.Condition.Reread
import Transclude.Proofs.NormalForm
import Transclude.Proofs.Occurrence
import Transclude.Proofs.TemplateBody
import Transclude.Proofs.Cycle
import Transclude.Proofs.Junction
import Transclude.Proofs.Leakage
import Transclude.Proofs.Coalescing
import Transclude.Proofs.Interleaving
import Transclude.Proofs.Schedule
import Transclude.Proofs.Sharing
import Transclude.Proofs.Ledger
import Transclude.Proofs.FixedPoint
import Transclude.Proofs.Text.Span
import Transclude.Proofs.DirectiveLine
import Transclude.Proofs.Condition.Scanning
import Transclude.Proofs.Condition.Quoted
import Transclude.Proofs.Condition.Spacing
import Transclude.Proofs.Condition.Blame
import Transclude.Proofs.Condition.Diagnosis
import Transclude.Proofs.Double.Integer
import Transclude.Proofs.Condition.Word
import Transclude.Proofs.Double.Decimal
import Transclude.Proofs.Condition.Numeral
import Transclude.Proofs.Condition.Number
import Transclude.Proofs.Condition.Coercion
import Transclude.Proofs.Condition.IntegerText
import Transclude.Proofs.Text.Units
import Transclude.Proofs.Condition.Comparison
import Transclude.Proofs.Condition.Phrase
import Transclude.Proofs.Condition.NumberText
import Transclude.Proofs.Condition.Formula
import Transclude.Proofs.CachedHost
import Transclude.Proofs.OptionNames
import Transclude.Proofs.Path.Components
import Transclude.Proofs.Path.Resolution
import Transclude.Proofs.Path.Suggestion
import Transclude.Proofs.Tree.Rows
import Transclude.Proofs.Tree.Repetition
import Transclude.Proofs.Tree.Deduplication
import Transclude.Proofs.Json.Reread
import Transclude.Proofs.Tree.Outline
import Transclude.Proofs.Host.Search
import Transclude.Proofs.Segments
import Transclude.Proofs.Dependencies
import Transclude.Proofs.Condition.NameToken
