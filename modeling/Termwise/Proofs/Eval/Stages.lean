import Mathlib.Data.List.Forall2
import Termwise.Eval.Step
import Termwise.Proofs.Eval.Run

/-!
# Termwise.Proofs.Eval.Stages

The stages of evaluation, by name.  A call goes through `evaluateParts`, `evaluateOn`,
`arrangeCall` and `finishCall`, where one of the `attempts` may replace it; a round on a
term is a `roundStep` and then an `endRound`, and what comes after a round is
`afterRound`.
-/

namespace Termwise

namespace Evaluator

/-! ## calls -/

/-- The symbol that a head is. -/
def symbol? : Term → Option Symbol
  | .symbol s => some s
  | _ => none

/-- What is tried in turn on a call in normal form, out of what the rules of a symbol, its local rules
and its native code make of the call; `head` is the symbol its head evaluated to. -/
def attempts {α : Type} (rules : RuleCache → Symbol → α) (localRules : Symbol → α)
    (code : CodeUsage → Symbol → α) (attrs : Attributes) (head : Option Symbol) (call : Term) :
    List α :=
  let ups := upSymbols attrs call
  let byHead : List α × List α :=
    match head with
    | some s => ([localRules s, rules .down s], [code .down s])
    | none =>
      match call.key.topmost? with
      | some s => ([rules .sub s], [code .sub s])
      | none => ([], [])
  ups.map (rules .up) ++ byHead.1 ++ ups.map (code .up) ++ byHead.2

theorem firstResult_eq (xs : List (EvalM (Option Term))) : firstResult xs = xs.findSomeM? id := by
  induction xs with
  | nil => rfl
  | cons x xs ih =>
      rw [firstResult, List.findSomeM?_cons, ih]
      refine bind_congr fun result => ?_
      cases result <;> rfl

theorem reduce_eq (r : Evaluator) (c : ContextId) (attrs : Attributes) (head : Option Symbol)
    (call : Term) : r.reduce c attrs head call =
      (attempts (fun cache s => r.findRule? c s cache call) (fun s => r.findLocalRule? c s call)
        (fun usage s => r.runCode? c usage call s) attrs head call).findSomeM? id :=
  firstResult_eq _

/-- What is tried on two calls corresponds where what each symbol makes of them does. -/
theorem forall₂_attempts {α β : Type} {R : α → β → Prop} {rules : RuleCache → Symbol → α}
    {rules' : RuleCache → Symbol → β} {localRules : Symbol → α} {localRules' : Symbol → β}
    {code : CodeUsage → Symbol → α} {code' : CodeUsage → Symbol → β} {attrs : Attributes}
    {call call' : Term} (hrules : ∀ cache s, R (rules cache s) (rules' cache s))
    (hlocal : ∀ s, R (localRules s) (localRules' s))
    (hcode : ∀ usage s, R (code usage s) (code' usage s))
    (hups : upSymbols attrs call = upSymbols attrs call')
    (hkey : call.key.topmost? = call'.key.topmost?) (head : Option Symbol) :
    List.Forall₂ R (attempts rules localRules code attrs head call)
      (attempts rules' localRules' code' attrs head call') := by
  have hmap : ∀ {f : Symbol → α} {g : Symbol → β}, (∀ s, R (f s) (g s)) →
      List.Forall₂ R ((upSymbols attrs call).map f) ((upSymbols attrs call').map g) := by
    intro f g hfg
    rw [hups]
    exact List.forall₂_map_left_iff.mpr
      (List.forall₂_map_right_iff.mpr (List.forall₂_same.mpr fun s _ => hfg s))
  unfold attempts
  dsimp only
  refine List.rel_append (List.rel_append (List.rel_append (hmap (hrules .up)) ?_)
    (hmap (hcode .up))) ?_
  · cases head with
    | some s => exact .cons (hlocal s) (.cons (hrules .down s) .nil)
    | none =>
        rw [hkey]
        cases call'.key.topmost? with
        | some s => exact .cons (hrules .sub s) .nil
        | none => exact .nil
  · cases head with
    | some s => exact .cons (hcode .down s) .nil
    | none =>
        rw [hkey]
        cases call'.key.topmost? with
        | some s => exact .cons (hcode .sub s) .nil
        | none => exact .nil

/-- The end of a round on a call, given in normal form. -/
def finishCall (r : Evaluator) (c : ContextId) (generation : Option Nat) (attrs : Attributes)
    (head : Option Symbol) (normal : Term) : EvalM Step := do
  let normal ← share normal
  match ← r.reduce c attrs head normal with
  | some result => return .rewritten result
  | none => do
    modify fun k => k.stamp c normal generation
    return .done normal

/-- A round on a call whose parts are evaluated. -/
def arrangeCall (r : Evaluator) (c : ContextId) (generation : Option Nat) (attrs : Attributes)
    (head : Option Symbol) (call : Term) : EvalM Step := do
  match ← normalize attrs (← share call) with
  | .rewritten threaded => return .rewritten threaded
  | .done normal => r.finishCall c generation attrs head normal

/-- A round on a call whose head is evaluated. -/
def evaluateOn (r : Evaluator) (c : ContextId) (generation : Option Nat) (call head : Term)
    (attrs : Attributes) : EvalM Step := do
  let args ← r.evaluateArgs c attrs 1 call.args
  r.arrangeCall c generation attrs (symbol? head) (rebuild call head args)

theorem evaluateParts_eq (r : Evaluator) (c : ContextId) (generation : Option Nat) (call : Term) :
    r.evaluateParts c generation call = (do
      let head ← r.evaluate c call.key
      let k ← get
      r.evaluateOn c generation call head
        (match symbol? head with | some s => k.attributes s | none => .none)) := rfl

/-! ## rounds -/

/-- The step of a round on a term with all nodes named. -/
def roundStep (r : Evaluator) (c : ContextId) : Term → EvalM Step
  | .symbol s => do
    match ← r.evaluateSymbol c s with
    | some value => return .rewritten value
    | none => return .done (.symbol s)
  | .node id head args => do
    let k ← get
    if (k.stampGeneration? c).any (k.isEvaluated (.node id head args)) then
      return .done (.node id head args)
    else r.evaluateCall c (.node id head args)
  | t => return .done t

/-- The end of a round on a term: a rewriting that gives back an equal term is none. -/
def endRound (c : ContextId) (t : Term) : Step → EvalM Step
  | .done value => return .done value
  | .rewritten next => do
    let next ← share next
    if next == t then do
      modify fun k => k.stamp c next (k.stampGeneration? c)
      return .done next
    else return .rewritten next

theorem evaluateRound_eq (r : Evaluator) (c : ContextId) (t : Term) :
    r.evaluateRound c t = (do
      checkAbort c
      let t ← share t
      let step ← r.roundStep c t
      endRound c t step) := by
  unfold evaluateRound
  refine bind_congr fun _ => bind_congr fun t => ?_
  cases t with
  | symbol s =>
      rw [roundStep, bind_assoc]
      refine bind_congr fun value => ?_
      cases value <;> rfl
  | node id head args =>
      rw [roundStep, bind_assoc]
      refine bind_congr fun k => ?_
      dsimp only
      split <;> rfl
  | _ => rfl

/-- What comes after a round, with so many rewritings left. -/
def afterRound (r : Evaluator) (c : ContextId) : Nat → Step → EvalM Term
  | _, .done value => return value
  | 0, .rewritten next => do
    message .general "itlim" [.int (.ofNat (← get).config.maxIterations)]
    hold c next
  | left + 1, .rewritten next => r.evaluateRounds c left next

theorem evaluateRounds_eq (r : Evaluator) (c : ContextId) (left : Nat) (t : Term) :
    r.evaluateRounds c left t = (do r.afterRound c left (← r.evaluateRound c t)) := by
  cases left with
  | zero =>
      refine bind_congr fun step => ?_
      cases step <;> rfl
  | succ left =>
      refine bind_congr fun step => ?_
      cases step <;> rfl

/-- Nothing comes after a round that is done. -/
theorem run_evaluateRounds_done {r : Evaluator} {c : ContextId} {t v : Term} {k k' : Kernel}
    (h : (r.evaluateRound c t).run k = (.ok (.done v), k')) (left : Nat) :
    (r.evaluateRounds c left t).run k = (.ok v, k') := by
  rw [evaluateRounds_eq, EvalM.run_bind_ok h]
  cases left <;> rfl

end Evaluator

end Termwise
