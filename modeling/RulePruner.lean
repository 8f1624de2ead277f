import RulePruner.CommandLine
import RulePruner.Main
import RulePruner.Proofs.Block.Bytes
import RulePruner.Proofs.ClassList
import RulePruner.Proofs.CommandLine
import RulePruner.Proofs.Cutting.Append
import RulePruner.Proofs.Options.Json
import RulePruner.Proofs.Options.Rendering
import RulePruner.Proofs.Report.Account
import RulePruner.Proofs.Report.Printing
import RulePruner.Proofs.Rule.Agreement
import RulePruner.Proofs.Rule.Containment
import RulePruner.Proofs.Rule.Exactness
import RulePruner.Proofs.Rule.Leftmost
import RulePruner.Proofs.Rule.Local
import RulePruner.Proofs.Rule.Offsets
import RulePruner.Proofs.Rule.Pattern
import RulePruner.Proofs.Rule.Survivors
import RulePruner.Proofs.Rule.WholeBlocks
import RulePruner.Proofs.Run.Accounting
import RulePruner.Proofs.Run.Capping
import RulePruner.Proofs.Run.Course
import RulePruner.Proofs.Run.Frame
import RulePruner.Proofs.Run.Idempotence
import RulePruner.Proofs.Run.LineEnds
import RulePruner.Proofs.Run.Nesting
import RulePruner.Proofs.Run.OrderFree
import RulePruner.Proofs.Run.Paths
import RulePruner.Proofs.Run.Strategies
import RulePruner.Proofs.Sink
import RulePruner.Proofs.Text.Capping
import RulePruner.Proofs.Block.Partner
