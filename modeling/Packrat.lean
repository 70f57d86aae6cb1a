import Packrat.CommandLine
import Packrat.Config
import Packrat.Engine.Construction
import Packrat.Engine.Entry
import Packrat.Engine.Fuel
import Packrat.Engine.Recognition
import Packrat.Engine.Run
import Packrat.Error
import Packrat.Grammar.Assembly
import Packrat.Grammar.Basic
import Packrat.Grammar.Bindings
import Packrat.Grammar.Listing
import Packrat.Grammar.Parser
import Packrat.Grammar.Rule
import Packrat.Json.Basic
import Packrat.Json.Document
import Packrat.Json.Stored
import Packrat.Main
import Packrat.Memo
import Packrat.Proofs.Demand
import Packrat.Proofs.Derivation
import Packrat.Proofs.Ensures
import Packrat.Proofs.Growth
import Packrat.Proofs.Ledger
import Packrat.Proofs.Recognition
import Packrat.Proofs.Resolution
import Packrat.Report
import Packrat.Sample.Basic
import Packrat.Sample.Catalog
import Packrat.Sample.IntList
import Packrat.Sample.Lambda
import Packrat.Sample.Term
import Packrat.Session
import Packrat.Text.Buffer
import Packrat.Text.CharClass
import Packrat.Text.Cursor
import Packrat.Text.Decimal
import Packrat.Text.Lines
import Packrat.Text.Printable
import Packrat.Text.Quoted
import Packrat.Text.Span
import Packrat.Value
import Packrat.Proofs.Completeness
import Packrat.Proofs.Semantics
import Packrat.Proofs.Transparency
import Packrat.Proofs.Keeping
import Packrat.Proofs.OnceOnly
import Packrat.Proofs.Alignment
import Packrat.Proofs.Assembled
import Packrat.Proofs.Reference
import Packrat.Proofs.Agreement
import Packrat.Proofs.Giving
import Packrat.Proofs.OnePass
import Packrat.Proofs.WellFormed
import Packrat.Proofs.Termination
import Packrat.Proofs.Quiet
import Packrat.Proofs.ParseTree
import Packrat.Proofs.Construction
import Packrat.Proofs.Spans
import Packrat.Proofs.Actions
import Packrat.Proofs.Reading
import Packrat.Proofs.Descent
import Packrat.Proofs.Stepwise
import Packrat.Proofs.Lookups
import Packrat.Proofs.Settling
import Packrat.Proofs.Layers
import Packrat.Proofs.Twins
import Packrat.Proofs.Scenes
import Packrat.Proofs.FoundOnce
import Packrat.Proofs.Steady
import Packrat.Proofs.Reuse
import Packrat.Proofs.BreadthFirst
import Packrat.Proofs.Listing
import Packrat.Proofs.Watching
import Packrat.Proofs.Positions
import Packrat.Proofs.EntryPoints
import Packrat.Proofs.PrintedTerms
import Packrat.Proofs.NumberLists
import Packrat.Proofs.Flatness
import Packrat.Proofs.Sequences
import Packrat.Proofs.LineStarts
import Packrat.Proofs.Comparison
import Packrat.Proofs.Suffixes
import Packrat.Proofs.Laws
import Packrat.Proofs.Filling
import Packrat.Proofs.Absorption
import Packrat.Proofs.Marks
import Packrat.Proofs.CharacterRuns
import Packrat.Proofs.Joining
import Packrat.Proofs.Cycles
import Packrat.Proofs.FirstOutcomes
