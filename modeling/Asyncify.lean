import Asyncify.Await
import Asyncify.Batch
import Asyncify.Call
import Asyncify.Callback
import Asyncify.Cli.Arguments
import Asyncify.Cli.Run
import Asyncify.Config
import Asyncify.Config.Load
import Asyncify.Config.Search
import Asyncify.Cursor
import Asyncify.Decimal
import Asyncify.Decimal.Reading
import Asyncify.Diff
import Asyncify.Diff.Matching
import Asyncify.Document
import Asyncify.Draft
import Asyncify.Draft.Change
import Asyncify.Draft.Replacement
import Asyncify.Exchange
import Asyncify.Fault
import Asyncify.Files
import Asyncify.Grammar
import Asyncify.Main
import Asyncify.ParseTable
import Asyncify.Pipeline
import Asyncify.Point
import Asyncify.Promotion
import Asyncify.Proofs.Depiction
import Asyncify.Proofs.Growth
import Asyncify.Proofs.Landing
import Asyncify.Proofs.Moves
import Asyncify.Proofs.Passes
import Asyncify.Proofs.Places
import Asyncify.Proofs.Plans
import Asyncify.Proofs.Printer
import Asyncify.Proofs.Rewrites
import Asyncify.Proofs.Runs
import Asyncify.Proofs.Sketch
import Asyncify.Proofs.Spans
import Asyncify.Proofs.Splice
import Asyncify.Proofs.WellFormed
import Asyncify.Registry
import Asyncify.Registry.Package
import Asyncify.Rule
import Asyncify.Rule.Catalogue
import Asyncify.Rule.Collections
import Asyncify.Rule.CursorMethods
import Asyncify.Rule.FastRender
import Asyncify.Rule.MethodCalls
import Asyncify.Rule.Rename
import Asyncify.Rule.Roles
import Asyncify.Survey
import Asyncify.Text.Blank
import Asyncify.Text.DigitRanges
import Asyncify.Text.HiddenRanges
import Asyncify.Text.Lines
import Asyncify.Text.Position
import Asyncify.Text.Quoted
import Asyncify.Text.Reindent
import Asyncify.Text.Span
import Asyncify.Text.Utf8
import Asyncify.Text.Wildcard
import Asyncify.Text.Word
import Asyncify.Text.WordRanges
import Asyncify.Trace
import Asyncify.Tree.Defect
import Asyncify.Tree.Kind
import Asyncify.Tree.Node
import Asyncify.Tree.Place
import Asyncify.Value
import Asyncify.Value.Display
import Asyncify.Value.Json
import Asyncify.Value.Reading
import Asyncify.Proofs.Mirror
import Asyncify.Proofs.Reflection
import Asyncify.Proofs.Revisit
import Asyncify.Proofs.Idempotence
import Asyncify.Proofs.Turns
import Asyncify.Proofs.Keywords
import Asyncify.Proofs.Layout
import Asyncify.Proofs.Occurrence
import Asyncify.Proofs.Script
import Asyncify.Proofs.Awaits
import Asyncify.Proofs.Conversion
import Asyncify.Proofs.MethodCalls
import Asyncify.Proofs.Legality
import Asyncify.Proofs.Constructors
import Asyncify.Proofs.LineEndings
import Asyncify.Proofs.Batches
import Asyncify.Proofs.Registrations
import Asyncify.Proofs.Contents
import Asyncify.Proofs.Blocks
import Asyncify.Proofs.Settings
import Asyncify.Proofs.Hunks
import Asyncify.Proofs.Diffs
import Asyncify.Proofs.Descent
import Asyncify.Proofs.Arms
import Asyncify.Proofs.Folds
import Asyncify.Proofs.Literals
import Asyncify.Proofs.Markers
import Asyncify.Proofs.Parentheses
import Asyncify.Proofs.Cursors
import Asyncify.Proofs.Reordering
import Asyncify.Proofs.Survivors
import Asyncify.Proofs.Reports
import Asyncify.Proofs.Frames
import Asyncify.Proofs.Decomposition
import Asyncify.Proofs.Globs
import Asyncify.Proofs.Selection
import Asyncify.Proofs.UnknownKeys
import Asyncify.Proofs.Positions
import Asyncify.Proofs.Routes
import Asyncify.Proofs.Defects
import Asyncify.Proofs.Ascent
import Asyncify.Proofs.Indentation
import Asyncify.Proofs.Recursion
import Asyncify.Proofs.Navigation
