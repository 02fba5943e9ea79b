import Termwise.Eval.Step

/-!
# Termwise.Eval.Evaluate

The evaluator.  Evaluation and rewriting call each other; each call uses up one unit
of *fuel*, and without fuel they fail with an error of its own.  Fuel bounds only how
deep they nest, not how long they run, and `Evaluator.full` has more of it than any
evaluation can use up.
-/

namespace Termwise

mutual

/-- Evaluate a term in a context. -/
def evaluateWith : Nat → ContextId → Term → EvalM Term
  | 0, _, _ => throw .outOfFuel
  | fuel + 1, c, t => Evaluator.evaluateFully ⟨evaluateWith fuel, rewriteWith fuel⟩ c t

/-- Rewrite a subject with a left-hand and a right-hand side. -/
def rewriteWith : Nat → ContextId → Term → Term → Term → EvalM (Option Term)
  | 0, _, _, _, _ => throw .outOfFuel
  | fuel + 1, c, lhs, rhs, subject =>
    Evaluator.rewriteWith ⟨evaluateWith fuel, rewriteWith fuel⟩ c lhs rhs subject

end

namespace Evaluator

/-- The evaluator with so much fuel. -/
def ofFuel (fuel : Nat) : Evaluator := ⟨Termwise.evaluateWith fuel, Termwise.rewriteWith fuel⟩

/-- The evaluator with fuel in plenty. -/
def full : Evaluator := ofFuel (2 ^ 62)

end Evaluator

/-! ## evaluation -/

/-- Evaluate a term in a context. -/
def evaluate (c : ContextId) (t : Term) : EvalM Term := Evaluator.full.evaluate c t

/-- Evaluate a term in a context without failing: what is thrown is held, an abort gives `$Aborted`,
and after any other error the term stays as it is. -/
def evaluateTop (c : ContextId) (t : Term) : EvalM Term := do
  let t ← share t
  match ← (evaluate c t).outcome with
  | .ok value => return value
  | .error (.thrown value) => do
    modify fun k => (k.catchException c).2
    return .app .hold [.app .raise [value]]
  | .error .aborted => return .symbol .aborted
  | .error .outOfFuel => throw .outOfFuel
  | .error _ => return t

end Termwise
