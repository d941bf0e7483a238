import ClassSort.Candidate
import ClassSort.Checker
import ClassSort.ClassList
import ClassSort.CommandLine
import ClassSort.Config.Search
import ClassSort.Config.Source
import ClassSort.Edit
import ClassSort.Files.Discovery
import ClassSort.Files.Glob
import ClassSort.Files.Ignore
import ClassSort.Files.Path
import ClassSort.Files.Tree
import ClassSort.Json.Decode
import ClassSort.Json.Read
import ClassSort.Json.Value
import ClassSort.Json.Write
import ClassSort.Main
import ClassSort.Markup.Attribute
import ClassSort.Markup.Braces
import ClassSort.Markup.Point
import ClassSort.Markup.Scan
import ClassSort.Node
import ClassSort.Number.Binary64
import ClassSort.Number.Shortest
import ClassSort.Options
import ClassSort.Order.Error
import ClassSort.Order.Expiring
import ClassSort.Order.Key
import ClassSort.Order.Resolver
import ClassSort.Order.Service
import ClassSort.Order.Sort
import ClassSort.Order.Table
import ClassSort.Proofs.Candidate.Places
import ClassSort.Proofs.Candidate.Reached
import ClassSort.Proofs.Checker.Isolation
import ClassSort.Proofs.Checker.Passes
import ClassSort.Proofs.Checker.Reporting
import ClassSort.Proofs.ClassList.Context
import ClassSort.Proofs.ClassList.Inverse
import ClassSort.Proofs.ClassList.Joined
import ClassSort.Proofs.ClassList.Layout
import ClassSort.Proofs.ClassList.Repeats
import ClassSort.Proofs.Config.Looks
import ClassSort.Proofs.Config.Nearest
import ClassSort.Proofs.Config.Upwards
import ClassSort.Proofs.Edit.Splicing
import ClassSort.Proofs.Files.Components
import ClassSort.Proofs.Files.Location
import ClassSort.Proofs.Files.Writing
import ClassSort.Proofs.Json.RoundTrip
import ClassSort.Proofs.Markup.Attributes
import ClassSort.Proofs.Markup.Balanced
import ClassSort.Proofs.Markup.Bounds
import ClassSort.Proofs.Markup.Braced
import ClassSort.Proofs.Markup.Crossing
import ClassSort.Proofs.Markup.Exchanged
import ClassSort.Proofs.Markup.Forward
import ClassSort.Proofs.Markup.Lengthened
import ClassSort.Proofs.Markup.Matched
import ClassSort.Proofs.Markup.Recovered
import ClassSort.Proofs.Markup.Rescanned
import ClassSort.Proofs.Markup.Runs
import ClassSort.Proofs.Markup.Standing
import ClassSort.Proofs.Markup.StyleTags
import ClassSort.Proofs.Markup.Tags
import ClassSort.Proofs.Markup.Written
import ClassSort.Proofs.Order.Coherence
import ClassSort.Proofs.Order.Decimal
import ClassSort.Proofs.Order.Expiring
import ClassSort.Proofs.Order.Insertions
import ClassSort.Proofs.Order.Printing
import ClassSort.Proofs.Order.Resolving
import ClassSort.Proofs.Order.Serving
import ClassSort.Proofs.Order.Sharing
import ClassSort.Proofs.Order.StableSort
import ClassSort.Proofs.Rule.Applicable
import ClassSort.Proofs.Rule.AtKeywords
import ClassSort.Proofs.Rule.Batched
import ClassSort.Proofs.Rule.Chunks
import ClassSort.Proofs.Rule.CutOff
import ClassSort.Proofs.Rule.Interpolated
import ClassSort.Proofs.Rule.Marked
import ClassSort.Proofs.Rule.Offsets
import ClassSort.Proofs.Rule.OnePass
import ClassSort.Proofs.Rule.Quoting
import ClassSort.Proofs.Rule.Regrouped
import ClassSort.Proofs.Rule.Rows
import ClassSort.Proofs.Rule.Settled
import ClassSort.Proofs.Rule.SortedText
import ClassSort.Proofs.Run.Turns
import ClassSort.Proofs.Script.BuiltIn
import ClassSort.Proofs.Script.Expressions
import ClassSort.Proofs.Script.Lowered
import ClassSort.Proofs.Script.Moved
import ClassSort.Proofs.Script.Nesting
import ClassSort.Proofs.Script.Operators
import ClassSort.Proofs.Script.Phrases
import ClassSort.Proofs.Script.Quoted
import ClassSort.Proofs.Script.Reading
import ClassSort.Proofs.Script.Spelling
import ClassSort.Proofs.Script.Statements
import ClassSort.Proofs.Script.Templates
import ClassSort.Proofs.Script.Tokens
import ClassSort.Proofs.Script.Types
import ClassSort.Proofs.Source.Documents
import ClassSort.Proofs.Source.Embedded
import ClassSort.Proofs.Source.Inside
import ClassSort.Proofs.Source.Mustaches
import ClassSort.Proofs.Source.Placed
import ClassSort.Proofs.Source.Reach
import ClassSort.Proofs.Source.Readings
import ClassSort.Proofs.Source.Shifted
import ClassSort.Proofs.Source.Spans
import ClassSort.Proofs.Source.Texts
import ClassSort.Proofs.Text.Cuts
import ClassSort.Proofs.Text.Positions
import ClassSort.Proofs.Text.Trim
import ClassSort.Proofs.Worker.Attempts
import ClassSort.Proofs.Worker.Attribution
import ClassSort.Proofs.Worker.Framing
import ClassSort.Proofs.Worker.Reading
import ClassSort.Proofs.Worker.Restarts
import ClassSort.Proofs.Worker.Streams
import ClassSort.Report
import ClassSort.Rule.Grouping
import ClassSort.Rule.Sorting
import ClassSort.Rule.StyleLang
import ClassSort.Run
import ClassSort.Script.Bindings
import ClassSort.Script.Cursor
import ClassSort.Script.Elements
import ClassSort.Script.Expressions
import ClassSort.Script.Grammar
import ClassSort.Script.Operators
import ClassSort.Script.Parse
import ClassSort.Script.Parser
import ClassSort.Script.Roots
import ClassSort.Script.Statements
import ClassSort.Script.Tree
import ClassSort.Script.Types
import ClassSort.Settings
import ClassSort.Source.Kind
import ClassSort.Source.Roots
import ClassSort.Text.Blank
import ClassSort.Text.Position
import ClassSort.Text.Printable
import ClassSort.Text.Quoted
import ClassSort.Text.Slice
import ClassSort.Text.Span
import ClassSort.Toml.Moment
import ClassSort.Toml.Number
import ClassSort.Toml.Read
import ClassSort.Toml.Table
import ClassSort.Toml.Text
import ClassSort.Toml.Value
import ClassSort.Worker.Client
import ClassSort.Worker.Context
import ClassSort.Worker.Frame
import ClassSort.Worker.Message
