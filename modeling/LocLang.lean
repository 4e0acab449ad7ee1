import LocLang.Report.Raised
import LocLang.Code
import LocLang.Main
import LocLang.Proofs.Semantics.Program
import LocLang.Proofs.Literals.Conversions
import LocLang.Proofs.Lowering.DistinctNames
import LocLang.Proofs.Lowering.Initialization
import LocLang.Proofs.Matches.Foreign
import LocLang.Proofs.Layout
import LocLang.Proofs.Lowering.Appended
import LocLang.Proofs.Build.Outputs
import LocLang.Proofs.Build.AllOrNothing
import LocLang.Proofs.Parser.Nesting
import LocLang.Proofs.Parser.Precedence
import LocLang.Proofs.ScopeTable
import LocLang.Proofs.Lowering.Trimmed
import LocLang.Proofs.Matches.Shape
import LocLang.Proofs.Semantics.Operands
import LocLang.Proofs.Analysis.Declarations
import LocLang.Proofs.Parser.Progress
import LocLang.Proofs.Parser.Labels
import LocLang.Proofs.Report.Underlining
