import Termwise.Kernel.Contexts
import Termwise.Rule.Replace

/-!
# Termwise.Eval.Search

Matching and rewriting inside a kernel.  Tests run through the evaluator, which
matching in turn is a part of; so everything here is given the evaluator it calls
(`Evaluator`), and `Eval.Evaluate` ties the knot.

The default of an argument that was left out is looked up among the default values
of the head of the call: first for its place and the number of places, then for its
place, then for the head alone.
-/

namespace Termwise

/-- What evaluation calls itself by. -/
structure Evaluator where
  /-- Evaluate a term in a context. -/
  evaluate : ContextId → Term → EvalM Term
  /-- Rewrite a subject with a left-hand and a right-hand side. -/
  rewrite : ContextId → Term → Term → Term → EvalM (Option Term)

/-- The keys under which the default for a slot is looked up, in order. -/
def Slot.keys (slot : Slot) : List Term :=
  let index : Term := .int (.ofNat slot.index)
  let count : Term := .int (.ofNat slot.count)
  [.app .defaultValue [slot.head, index, count], .app .defaultValue [slot.head, index],
    .app .defaultValue [slot.head]]

namespace Evaluator

/-! ## rule lists -/

/-- Rewrite a subject with the first rule of a list that applies. -/
def find? (r : Evaluator) (c : ContextId) (list : RuleList) (subject : Term) :
    EvalM (Option Term) := do
  let k ← get
  (list.ready k.attributes k.structureEpoch subject).find?
    (fun rule => rule.applyWith (r.rewrite c) subject) subject

/-- Rewrite a subject with the rules that a symbol has for a use. -/
def findRule? (r : Evaluator) (c : ContextId) (s : Symbol) (cache : RuleCache) (subject : Term) :
    EvalM (Option Term) := do
  match (← get).rules? s cache with
  | some list => r.find? c list subject
  | none => return none

/-- Rewrite a subject with the first of several rules that applies. -/
def firstOf (r : Evaluator) (c : ContextId) (rules : List Rule) (subject : Term) :
    EvalM (Option Term) :=
  rules.findSomeM? fun rule => rule.applyWith (r.rewrite c) subject

/-! ## implicit defaults -/

/-- The default for a slot. -/
def default? (r : Evaluator) (c : ContextId) (slot : Slot) : EvalM (Option Term) := do
  match slot.head.topmost? with
  | none => return none
  | some s =>
    match (← get).rules? s .default with
    | none => return none
    | some list => slot.keys.findSomeM? fun key => do r.find? c list (← share key)

end Evaluator

/-! ## searches -/

/-- The state of one search. -/
structure SearchState where
  /-- Number of steps so far. -/
  steps : Nat := 0
  /-- The slot entered last. -/
  slot : Option Slot := none

/-- An action of one search. -/
abbrev SearchM := StateT SearchState EvalM

namespace Evaluator

/-- What a search in a context gets from outside.  It looks for an abort once in so many steps. -/
def surroundings (r : Evaluator) (c : ContextId) : Surroundings SearchM where
  tick := do
    modify fun s => { s with steps := s.steps + 1 }
    let steps := (← get).steps
    let k : Kernel ← liftM (m := EvalM) get
    if steps % max 1 k.config.pollInterval = 0 then checkAbort c
  attributes := do
    let k : Kernel ← liftM (m := EvalM) get
    return k.attributes
  evaluate t := r.evaluate c t
  share t := Termwise.share t
  enter slot := modify fun s => { s with slot := some slot }
  default? := do
    match (← get).slot with
    | some slot => r.default? c slot
    | none => return none

/-- The bindings of the first match of a subject. -/
def match? (r : Evaluator) (c : ContextId) (subject pattern : Term) : EvalM (Option Bindings) :=
  ((Pattern.ofTerm pattern).match? (r.surroundings c) subject).run' {}

/-- Whether a subject matches a pattern. -/
def isMatch (r : Evaluator) (c : ContextId) (subject pattern : Term) : EvalM Bool := do
  return (← r.match? c subject pattern).isSome

/-- One rewriting of a subject, with the evaluator for what it calls. -/
def rewriteWith (r : Evaluator) (c : ContextId) (lhs rhs subject : Term) : EvalM (Option Term) := do
  match ← (Rule.rewrite (r.surroundings c) lhs rhs subject).run' {} with
  | some result => return some (← share result)
  | none => return none

end Evaluator

end Termwise
