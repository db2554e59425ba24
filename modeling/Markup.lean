import Markup.Token.Scan
import Markup.Node.Parse
import Markup.Node.Outline
import Markup.Text.Line
import Markup.Text.Placeholder
import Markup.Snippet
import Markup.Table
import Markup.Disk
import Markup.Compile
import Markup.Toml.Read
import Markup.CommandLine.Watch
import Markup.Main
import Markup.LanguageServer
import Markup.Proofs.ParseLanguage
import Markup.Proofs.Tiling
import Markup.Proofs.ParseStarts
import Markup.Proofs.Locality
import Markup.Proofs.ExpandSteps
import Markup.Proofs.DepthLimit
import Markup.Proofs.RankedNames
import Markup.Proofs.Escaping
import Markup.Proofs.Returns
import Markup.Proofs.Likeness
import Markup.Proofs.ScanErrors
import Markup.Proofs.UnifiedTokens
import Markup.Proofs.PrintedNumbers
import Markup.Proofs.UnifiedRuns
import Markup.Proofs.LineEndings
import Markup.Proofs.DocumentChanges
import Markup.Proofs.Sessions
import Markup.Proofs.FailurePoints
import Markup.Proofs.ErrorLedger
import Markup.Proofs.Diagnostics
import Markup.Proofs.FirstRefusal
import Markup.Proofs.TokenContract
import Markup.Proofs.TwinRuns
import Markup.Proofs.UnrelatedNames
import Markup.Proofs.Joining
import Markup.Proofs.JoinedRuns
import Markup.Proofs.Attempts
import Markup.Proofs.Watching
import Markup.Proofs.Crashes
import Markup.Proofs.Substitution
import Markup.Proofs.ImportedEntries
import Markup.Proofs.ModuleSearch
import Markup.Proofs.ShownLines
import Markup.Proofs.ValueLines
import Markup.Proofs.ScanFailures
import Markup.Proofs.ErrorPlaces
import Markup.Proofs.SpanNesting
import Markup.Proofs.CallGroups
import Markup.Proofs.InertNodes
import Markup.Proofs.Cycles
import Markup.Proofs.PlainText
import Markup.Proofs.NearestNumbers
import Markup.Proofs.WholeNumbers
import Markup.Proofs.DigitRuns
import Markup.Proofs.Resuming
import Markup.Proofs.Presets
import Markup.Proofs.Preludes
import Markup.Proofs.Outlines
import Markup.Proofs.TrimmedValues
import Markup.Proofs.TextMacros
