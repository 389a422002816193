import StyleBundle.Table
import StyleBundle.Sheet.Parser
import StyleBundle.Sheet.Edit
import StyleBundle.Sheet.Symbols
import StyleBundle.Assembly
import StyleBundle.Fetch
import StyleBundle.Resolution.Resolver
import StyleBundle.Resolution.Directory
import StyleBundle.Config
import StyleBundle.Command.Run
import StyleBundle.Main
import StyleBundle.Proofs.Refinement
import StyleBundle.Proofs.Timing
import StyleBundle.Proofs.Descent
import StyleBundle.Proofs.SingleLoads
import StyleBundle.Proofs.DepthFirst
import StyleBundle.Proofs.BundleReading
import StyleBundle.Proofs.TraceRecords
import StyleBundle.Proofs.EntryLast
import StyleBundle.Proofs.Concatenation
import StyleBundle.Proofs.Edits
import StyleBundle.Proofs.ModulePaths
import StyleBundle.Proofs.Confinement
import StyleBundle.Proofs.StrictBuilds
import StyleBundle.Proofs.ExportBlocks
import StyleBundle.Proofs.ItemEnds
import StyleBundle.Proofs.PlacedTokens
import StyleBundle.Proofs.WholeSymbols
import StyleBundle.Proofs.NodeSpans
import StyleBundle.Proofs.PostOrder
import StyleBundle.Proofs.Assembling
import StyleBundle.Proofs.ReportedFaults
import StyleBundle.Proofs.Nesting
import StyleBundle.Proofs.Schedules
import StyleBundle.Proofs.Removal
import StyleBundle.Proofs.ReplacedNodes
import StyleBundle.Proofs.TextRuns
import StyleBundle.Proofs.RawText
import StyleBundle.Proofs.Recognition
