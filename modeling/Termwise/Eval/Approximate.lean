import Termwise.Eval.Search
import Termwise.Term.Order

/-!
# Termwise.Eval.Approximate

Approximation and formatting, two services beside evaluation.

Approximation evaluates a term and then works from the inside out: integers become
floating-point numbers, arguments that are not held are approximated, the call is
evaluated again, and then the approximation rules and the native code of its
topmost symbol may replace it.  Formatting applies the first format rule, once.
-/

namespace Termwise

/-- Run native code for approximation. -/
def ApproxNative.run (code : ApproxNative) (c : ContextId) (t : Term) : EvalM (Option Term) :=
  match code with
  | .function f => return f t
  | .note => do
    message .general "approx" [t]
    return none
  | .throwTerm => raise c t

namespace Evaluator

/-- Approximate a term by the rules of a symbol, or else by its native code. -/
def approximateWith (r : Evaluator) (c : ContextId) (s : Symbol) (t : Term) :
    EvalM (Option Term) := do
  match ← r.findRule? c s .approx t with
  | some result => return some result
  | none =>
    match ((← get).record s).code.approx with
    | some code => code.run c t
    | none => return none

/-- Approximate an atom. -/
def approximateAtom (r : Evaluator) (c : ContextId) (t : Term) : EvalM Term := do
  checkAbort c
  match t with
  | .int n => return .float (Term.nearest n)
  | .symbol s => return (← r.approximateWith c s t).getD t
  | t => return t

/-- Approximate a call whose arguments are approximated already. -/
def approximateCall (r : Evaluator) (c : ContextId) (t : Term) : EvalM Term := do
  let value ← r.evaluate c t
  match value with
  | .node .. =>
    match value.topmost? with
    | none => return value
    | some s =>
      match ← r.approximateWith c s value with
      | some result => r.evaluate c result
      | none => return value
  | atom => r.approximateAtom c atom

mutual

/-- Approximate an evaluated term. -/
def approximateValue (r : Evaluator) (c : ContextId) : Term → EvalM Term
  | .node _ head args => do
    checkAbort c
    let k ← get
    let attrs := match head with
      | .symbol s => k.attributes s
      | _ => .none
    let args ← approximateArgs r c attrs 1 args
    r.approximateCall c (.call head args)
  | t => r.approximateAtom c t

/-- Approximate the arguments that are not held, the first one being at a given position. -/
def approximateArgs (r : Evaluator) (c : ContextId) (attrs : Attributes) :
    Nat → List Term → EvalM (List Term)
  | _, [] => return []
  | i, t :: ts => do
    let value ← if attrs.holds i then pure t else approximateValue r c t
    return value :: (← approximateArgs r c attrs (i + 1) ts)

end

/-- Evaluate a term and replace exact numbers by floating-point numbers. -/
def approximate (r : Evaluator) (c : ContextId) (t : Term) : EvalM Term := do
  r.approximateValue c (← r.evaluate c t)

/-- Apply the first format rule of the topmost symbol of a term. -/
def format (r : Evaluator) (c : ContextId) (t : Term) : EvalM Term := do
  match t.topmost? with
  | none => return t
  | some s => return (← r.findRule? c s .format t).getD t

end Evaluator

end Termwise
