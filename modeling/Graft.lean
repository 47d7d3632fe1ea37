import Graft.Duration
import Graft.Json.Basic
import Graft.Json.Number
import Graft.Json.Parser
import Graft.Json.Printer
import Graft.Name
import Graft.Number.Binary64
import Graft.Number.Decimal
import Graft.Number.Power
import Graft.Pass.Basic
import Graft.Pass.Bypass
import Graft.Pass.Catalog
import Graft.Pass.Script
import Graft.Pass.Timing
import Graft.Report
import Graft.Proofs.BypassFixpoint
import Graft.Proofs.Compose
import Graft.Proofs.ControlPaths
import Graft.Proofs.DepthBalance
import Graft.Proofs.FormLaws
import Graft.Proofs.Marking
import Graft.Proofs.Plan
import Graft.Proofs.Rebuild
import Graft.Proofs.Recovery
import Graft.Proofs.Redirect
import Graft.Proofs.SteadyWalk
import Graft.Proofs.Stock
import Graft.Proofs.StockPlan
import Graft.Proofs.StockRuns
import Graft.Proofs.TimingPaths
import Graft.Proofs.TimingResult
import Graft.Proofs.Translation
import Graft.Proofs.Watch
import Graft.RuntimeCall
import Graft.Session
import Graft.Settings
import Graft.Stopwatch
import Graft.Text.Alphabetic
import Graft.Text.Lines
import Graft.Text.Numeric
import Graft.Text.Quoted
import Graft.Tree.Attributes
import Graft.Tree.Basic
import Graft.Tree.Decode
import Graft.Tree.Encode
import Graft.Tree.Form
import Graft.Tree.Induction
import Graft.Tree.Kind
import Graft.Tree.Make
import Graft.Tree.Operator
import Graft.Tree.Slot
import Graft.Tree.Source
import Graft.Walk.Journal
import Graft.Walk.Runner
import Graft.Walk.Visit
import Graft.Proofs.Slots
import Graft.Proofs.Refill
import Graft.Proofs.Visits
import Graft.Proofs.HookOrder
import Graft.Proofs.Removal
import Graft.Proofs.Unchanged
import Graft.Proofs.Decoding
import Graft.Proofs.Erasure
import Graft.Proofs.Mirror
import Graft.Proofs.History
import Graft.Proofs.Indentation
import Graft.Proofs.Bodies
import Graft.Proofs.Outline
import Graft.Proofs.Joints
import Graft.Proofs.Uses
import Graft.Proofs.Comments
import Graft.Proofs.Samples
import Graft.Proofs.Places
import Graft.Proofs.Operations
import Graft.Proofs.UniqueReading
import Graft.Proofs.Signs
import Graft.Proofs.Nanoseconds
import Graft.Proofs.Statistics
import Graft.Proofs.NameReading
import Graft.Proofs.Rows
import Graft.Proofs.RowStarts
import Graft.Proofs.InertComments
import Graft.Proofs.QuotedReading
