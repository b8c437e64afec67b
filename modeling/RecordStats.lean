import RecordStats.Builtin.Apply
import RecordStats.Builtin.Basic
import RecordStats.Check
import RecordStats.CommandLine
import RecordStats.Decimal.Digits
import RecordStats.Decimal.Read
import RecordStats.Decimal.Text
import RecordStats.Decimal.Wide
import RecordStats.Diagnostic
import RecordStats.Dict
import RecordStats.Double.Elementary
import RecordStats.Double.Parts
import RecordStats.Double.Special
import RecordStats.Evaluation.Call
import RecordStats.Evaluation.Expression
import RecordStats.Evaluation.Failure
import RecordStats.Evaluation.ListMethod
import RecordStats.Evaluation.Operation
import RecordStats.Glob.Pattern
import RecordStats.Grammar.Expression
import RecordStats.Grammar.Parser
import RecordStats.Grammar.Statement
import RecordStats.Json.Basic
import RecordStats.Json.Reader
import RecordStats.Json.Token
import RecordStats.Json.Writer
import RecordStats.Kinematics.Vector
import RecordStats.Main
import RecordStats.Path
import RecordStats.Program.Basic
import RecordStats.Program.Operator
import RecordStats.Proofs.Double.Arithmetic
import RecordStats.Proofs.Double.Integer
import RecordStats.Proofs.Double.Number
import RecordStats.Proofs.Double.Rounded
import RecordStats.Proofs.Double.Rounding
import RecordStats.Proofs.Double.Tens
import RecordStats.Proofs.Double.Whole
import RecordStats.Proofs.Evaluation.Arithmetic
import RecordStats.Proofs.Evaluation.Builtin
import RecordStats.Proofs.Evaluation.Call
import RecordStats.Proofs.Evaluation.Comparison
import RecordStats.Proofs.Evaluation.Ending
import RecordStats.Proofs.Evaluation.Handing
import RecordStats.Proofs.Evaluation.Hereditary
import RecordStats.Proofs.Evaluation.Immediate
import RecordStats.Proofs.Evaluation.Made
import RecordStats.Proofs.Evaluation.Operation
import RecordStats.Proofs.Evaluation.RoundTens
import RecordStats.Proofs.Evaluation.Sound
import RecordStats.Proofs.Glob.Bracket
import RecordStats.Proofs.Glob.Wildcard
import RecordStats.Proofs.Grammar.Alongside
import RecordStats.Proofs.Grammar.AlongsideExpression
import RecordStats.Proofs.Grammar.AlongsideStatement
import RecordStats.Proofs.Grammar.Ensures
import RecordStats.Proofs.Grammar.Expression
import RecordStats.Proofs.Grammar.Heads
import RecordStats.Proofs.Grammar.Lines
import RecordStats.Proofs.Grammar.MadeExpression
import RecordStats.Proofs.Grammar.MadeStatement
import RecordStats.Proofs.Grammar.Phrase
import RecordStats.Proofs.Grammar.Printed
import RecordStats.Proofs.Grammar.ReadExpression
import RecordStats.Proofs.Grammar.ReadFunction
import RecordStats.Proofs.Grammar.Reading
import RecordStats.Proofs.Grammar.RoundTrip
import RecordStats.Proofs.Grammar.Separated
import RecordStats.Proofs.Grammar.SeparatedBody
import RecordStats.Proofs.Grammar.SpannedExpression
import RecordStats.Proofs.Grammar.SpannedStatement
import RecordStats.Proofs.Grammar.Statement
import RecordStats.Proofs.Grammar.StatementLoop
import RecordStats.Proofs.Grammar.Stream
import RecordStats.Proofs.Grammar.Written
import RecordStats.Proofs.Grammar.Yields
import RecordStats.Proofs.Likeness.Basic
import RecordStats.Proofs.Likeness.Block
import RecordStats.Proofs.Likeness.Call
import RecordStats.Proofs.Likeness.Declaration
import RecordStats.Proofs.Likeness.Operation
import RecordStats.Proofs.Likeness.Record
import RecordStats.Proofs.Likeness.Reflexive
import RecordStats.Proofs.Likeness.Run
import RecordStats.Proofs.Likeness.Value
import RecordStats.Proofs.Likeness.Scope
import RecordStats.Proofs.Likeness.Tree
import RecordStats.Proofs.Likeness.Unplaced
import RecordStats.Proofs.Likeness.WellFormed
import RecordStats.Proofs.Outcome
import RecordStats.Proofs.Program.Axes
import RecordStats.Proofs.Program.Names
import RecordStats.Proofs.Program.Outline
import RecordStats.Proofs.Program.Pieces
import RecordStats.Proofs.Record.Resolved
import RecordStats.Proofs.Program.Unplaced
import RecordStats.Proofs.Program.WellFormed
import RecordStats.Proofs.Record.Bindings
import RecordStats.Proofs.Record.Binned
import RecordStats.Proofs.Record.Effect
import RecordStats.Proofs.Record.Ending
import RecordStats.Proofs.Record.Entries
import RecordStats.Proofs.Record.Faultless
import RecordStats.Proofs.Record.Interruption
import RecordStats.Proofs.Record.Reach
import RecordStats.Proofs.Record.Route
import RecordStats.Proofs.Record.Scoping
import RecordStats.Proofs.Record.Simulation
import RecordStats.Proofs.Record.Slot
import RecordStats.Proofs.Record.Standing
import RecordStats.Proofs.Record.Swapped
import RecordStats.Proofs.Record.Under
import RecordStats.Proofs.Regex.Matching
import RecordStats.Proofs.Run.Agreement
import RecordStats.Proofs.Run.Alignment
import RecordStats.Proofs.Run.Binned
import RecordStats.Proofs.Run.Reachable
import RecordStats.Proofs.Run.Collected
import RecordStats.Proofs.Run.Columns
import RecordStats.Proofs.Run.Shape
import RecordStats.Proofs.Run.Ending
import RecordStats.Proofs.Run.Replay
import RecordStats.Proofs.Run.Expanded
import RecordStats.Proofs.Run.Faultless
import RecordStats.Proofs.Run.Positioned
import RecordStats.Proofs.Run.Records
import RecordStats.Proofs.Run.Resolved
import RecordStats.Proofs.Run.Swapped
import RecordStats.Proofs.Run.Symbols
import RecordStats.Proofs.Run.Unused
import RecordStats.Proofs.Source.Joined
import RecordStats.Proofs.Source.Located
import RecordStats.Proofs.Source.NextLine
import RecordStats.Proofs.Source.Places
import RecordStats.Proofs.Source.Scan
import RecordStats.Proofs.Source.Spelling
import RecordStats.Proofs.Source.Tokenized
import RecordStats.Proofs.Tree.Accepted
import RecordStats.Proofs.Tree.Blamed
import RecordStats.Proofs.Tree.Built
import RecordStats.Proofs.Tree.Emptied
import RecordStats.Proofs.Tree.Fits
import RecordStats.Proofs.Tree.Leaves
import RecordStats.Proofs.Tree.Lookup
import RecordStats.Proofs.Tree.Placed
import RecordStats.Proofs.Tree.Renamed
import RecordStats.Proofs.Value.Equality
import RecordStats.Proofs.Value.Snapshot
import RecordStats.Record.Action
import RecordStats.Record.Execution
import RecordStats.Record.Fill
import RecordStats.Record.Statement
import RecordStats.Regex.Basic
import RecordStats.Regex.CharSet
import RecordStats.Run
import RecordStats.Source.Lexeme
import RecordStats.Source.Span
import RecordStats.Source.Token
import RecordStats.Text.Basic
import RecordStats.Text.Printable
import RecordStats.Text.Quoted
import RecordStats.Tree.Bins
import RecordStats.Tree.Declaration
import RecordStats.Tree.Node
import RecordStats.Tree.Report
import RecordStats.Tree.Scalar
import RecordStats.Tree.Statistic
import RecordStats.Value.Basic
import RecordStats.Value.Scope
import RecordStats.Value.Scopes
import RecordStats.Value.Text
import RecordStats.Proofs.Double.Order
import RecordStats.Proofs.Tree.Routing
import RecordStats.Proofs.Exact.Arithmetic
import RecordStats.Proofs.Exact.Bins
import RecordStats.Proofs.Exact.Profile
import RecordStats.Proofs.Exact.Fraction
import RecordStats.Proofs.Run.Growth
import RecordStats.Proofs.Grammar.Shape
import RecordStats.Proofs.Grammar.Total
import RecordStats.Proofs.Grammar.IntegerLiteral
import RecordStats.Proofs.Grammar.ComparisonChain
import RecordStats.Proofs.Tree.PathText
import RecordStats.Proofs.Value.Document
import RecordStats.Proofs.Evaluation.Extreme
import RecordStats.Proofs.Evaluation.Combination
