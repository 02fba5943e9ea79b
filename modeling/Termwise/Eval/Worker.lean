import Termwise.Eval.Search

/-!
# Termwise.Eval.Worker

Evaluations in child contexts.  A child sees the local definitions of its parent and
keeps its own to itself, so evaluations in several children do not disturb each other;
here they run one after the other.
-/

namespace Termwise

namespace Evaluator

/-- Evaluate a term in a child of a context. -/
def evaluateChild (r : Evaluator) (c : ContextId) (t : Term) : EvalM Term := do
  r.evaluate (← spawnChild c) t

/-- Evaluate terms, each in its own child; the first failure is the result. -/
def evaluateAll (r : Evaluator) (c : ContextId) (ts : List Term) : EvalM (List Term) :=
  ts.mapM (r.evaluateChild c)

/-- Evaluate terms, each in its own child, and give the outcome of each. -/
def outcomes (r : Evaluator) (c : ContextId) (ts : List Term) :
    EvalM (List (Except EvalError Term)) :=
  ts.mapM fun t => (r.evaluateChild c t).outcome

end Evaluator

/-- Number of workers of a pool that was asked to have so many: at least one. -/
def poolSize (threads : Nat) : Nat := max 1 threads

end Termwise
