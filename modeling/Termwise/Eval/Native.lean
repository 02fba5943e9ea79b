import Termwise.Eval.Approximate
import Termwise.Eval.Define
import Termwise.Eval.Gather
import Termwise.Eval.Worker

/-!
# Termwise.Eval.Native

What native code does with a call.  A result takes the place of the call; without a
result the call stays as it is, and that is also what happens when the arguments are
not of the form the code expects.
-/

namespace Termwise

namespace Evaluator

/-! ## catching -/

/-- Evaluate a term; what it throws is the result, and no longer pending. -/
def capture (r : Evaluator) (c : ContextId) (t : Term) : EvalM Term := do
  match ← (r.evaluate c t).outcome with
  | .ok value => return value
  | .error (.thrown value) =>
    modify fun k => (k.catchException c).2
    return value
  | .error e => throw e

/-- Evaluate a term and describe how that ended: the list of the value, or the list of the kind and
the text of the error.  A pending exception stays pending. -/
def attempt (r : Evaluator) (c : ContextId) (t : Term) : EvalM Term := do
  match ← (r.evaluate c t).outcome with
  | .ok value => return .list [value]
  | .error .outOfFuel => throw .outOfFuel
  | .error e => return .list [.ofString e.kind, .ofString e.message]

/-- Evaluate a term while a gather is open; the result is the value and what was emitted. -/
def gather (r : Evaluator) (c : ContextId) (t pattern : Term) : EvalM Term := do
  modify fun k => k.gatherBegin c pattern
  let result ← (r.evaluate c t).outcome
  let values ← modifyGet fun k => k.gatherEnd c
  match result with
  | .ok value => return .list [value, .list values]
  | .error e => throw e

/-! ## replacing -/

/-- Apply rules to the whole of a term, or to all its parts. -/
def replace (r : Evaluator) (c : ContextId) (everywhere : Bool) (rules : List Rule) (t : Term) :
    EvalM Term :=
  if everywhere then t.replaceAllM (r.firstOf c rules) else t.replaceM (r.firstOf c rules)

/-! ## running -/

/-- What native code makes of a call. -/
def run (r : Evaluator) (c : ContextId) (code : Native) (call : Term) : EvalM (Option Term) := do
  match code, call.args with
  | .function f, _ => return f call
  | .raise, [value] => Termwise.raise c value
  | .capture, [body] => some <$> r.capture c body
  | .gather, [body] => some <$> r.gather c body (.app .blank [])
  | .gather, [body, pattern] => some <$> r.gather c body pattern
  | .emit, [value] => do
    r.emit c value .null
    return some value
  | .emit, [value, tag] => do
    r.emit c value tag
    return some value
  | .release, [value] => return some value
  | .release, values => return some (.app .sequence values)
  | .note, args => do
    message .general "note" args
    return none
  | .throwArguments, args => do Termwise.raise c (← share (.list args))
  | .abort, _ => throw .aborted
  | .requestAbort, _ => do
    modify fun k => { k with aborting := true }
    return some .null
  | .attempt, [body] => some <$> r.attempt c body
  | .takePending, [] => do
    return some ((← modifyGet fun k => k.catchException c).getD .null)
  | .depth, [] => return some (.int (.ofNat ((← get).depth c)))
  | .assign .immediate, [lhs, rhs] => do
    r.assign c lhs rhs
    return some .null
  | .assign .delayed, [lhs, rhs] => do
    assignDelayed c lhs rhs
    return some .null
  | .unassign, [lhs] => return some (.ofBool (← Termwise.unassign c lhs))
  | .setAttributes, [.symbol s, .int bits] => do
    change fun k => k.setAttributes s (.ofNat bits.toUInt64.toNat)
    return some .null
  | .setLocal, [.symbol s, value] => do
    modify fun k => k.setLocal c s value
    return some value
  | .unsetLocal, [.symbol s] => do
    return some ((← modifyGet fun k => k.unsetLocal c s).getD .null)
  | .remove, [.symbol s] => return some (.ofBool (← Termwise.remove s))
  | .replace everywhere, t :: rules => do
    match rules.mapM (Rule.ofTerm? (← get).attributes) with
    | some rules => some <$> r.replace c everywhere rules t
    | none => return none
  | .isMatch, [t, pattern] => return some (.ofBool (← r.isMatch c t pattern))
  | .parallel, ts => return some (.list (← r.evaluateAll c ts))
  | .spawn, [t] => some <$> r.evaluateChild c t
  | .child, [t] => some <$> r.evaluateChild c t
  | .timed nanos, [t] => do
    return some ((← timeConstrained c nanos (r.evaluate c t)).getD (.ofString "TimedOut"))
  | .pause nanos, [] => do
    Termwise.pause c nanos
    return some .null
  | .gatherBegin, [pattern] => do
    modify fun k => k.gatherBegin c pattern
    return some .null
  | .gatherEnd, [] => return some (.list (← modifyGet fun k => k.gatherEnd c))
  | .swapGather, _ => do
    modify fun k => (k.gatherEnd c).2.gatherBegin c (.app .blank [])
    return some (.ofBool true)
  | .approximate, [t] => some <$> r.approximate c t
  | .format, [t] => some <$> r.format c t
  | _, _ => return none

end Evaluator

end Termwise
