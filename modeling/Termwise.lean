import Termwise.Main
import Termwise.Host.Function
import Termwise.Pattern.Build
import Termwise.Proofs.Eval.Alternatives
import Termwise.Proofs.Eval.ArgumentOrder
import Termwise.Proofs.Eval.Deadlines
import Termwise.Proofs.Eval.Depth
import Termwise.Proofs.Eval.FirstError
import Termwise.Proofs.Eval.InForce
import Termwise.Proofs.Eval.Isolation
import Termwise.Proofs.Eval.Match
import Termwise.Proofs.Eval.SettledOrder
import Termwise.Proofs.Eval.Stable
import Termwise.Proofs.Rule.Lookup
import Termwise.Proofs.Rule.Partial
import Termwise.Proofs.Rule.Unique
import Termwise.Proofs.Kernel.Readings
import Termwise.Proofs.Kernel.Registry
import Termwise.Proofs.Eval.Atomic
import Termwise.Proofs.Eval.Protected
import Termwise.Proofs.Eval.Gathering
import Termwise.Proofs.Eval.Generations
import Termwise.Proofs.Eval.Inert
import Termwise.Proofs.Rule.Place
import Termwise.Proofs.Text.Views
import Termwise.Proofs.Term.Readable
import Termwise.Proofs.Term.CopyOnWrite
import Termwise.Proofs.Rule.Interchange
import Termwise.Proofs.Rule.Precedence
import Termwise.Proofs.Rule.Survivors
import Termwise.Proofs.Pattern.Guarded
import Termwise.Proofs.Term.Leaves
import Termwise.Proofs.Number.Value
import Termwise.Proofs.Pattern.Dissolved
import Termwise.Proofs.Rule.Dissolved
import Termwise.Proofs.Host.Comparing
import Termwise.Proofs.Host.Folding
import Termwise.Proofs.Eval.LimitReports
import Termwise.Proofs.Eval.Filling
import Termwise.Proofs.Rule.Outermost
import Termwise.Proofs.Eval.Scoped
import Termwise.Proofs.Eval.Approximation
