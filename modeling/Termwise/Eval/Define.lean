import Termwise.Eval.Search

/-!
# Termwise.Eval.Define

Definitions.  What a definition is stored as is read off its left-hand side:

```text
x              value of x (immediate) or rule for x itself (delayed)
f(...)         rule for calls of f
f(...)(...)    rule for calls of calls of f
```

`HoldPattern(...)` and `Condition(..., test)` around a left-hand side do not count.
A left-hand side is checked (`Term.defect?`) before anything is stored.
-/

namespace Termwise

/-! ## targets -/

namespace Pattern

/-- The symbol and the use that a left-hand side defines. -/
def target : Pattern → Except PatternError (Symbol × RuleCache)
  | hold p | condition p _ => p.target
  | atom (.symbol s) => .ok (s, .own)
  | call whole _ _ =>
    match whole.key with
    | .symbol s => .ok (s, .down)
    | f =>
      match f.topmost? with
      | some s => if s.isPatternHead then .error (.noTarget whole) else .ok (s, .sub)
      | none => .error (.noTarget whole)
  | p => .error (.noTarget p.toTerm)

/-- Whether an argument of a left-hand side carries a symbol: as its head, or as the type of a
blank. -/
def carries (s : Symbol) (p : Pattern) : Bool :=
  let bare := match p with
    | named _ p => p
    | p => p
  bare.toTerm.topmost? == some s ||
    match bare with
    | blank (some (.symbol type)) => type == s
    | _ => false

/-- The arguments of a left-hand side, with one wrapper looked through. -/
def slots (p : Pattern) : List Pattern :=
  ofTerms (match p with
    | hold p | condition p _ => p
    | p => p).toTerm.args

end Pattern

/-! ## storing -/

/-- Fail if a term has a defect as a pattern. -/
def validate (lhs : Term) : EvalM Unit :=
  match lhs.defect? with
  | some e => throw (.pattern e)
  | none => return ()

/-- The symbol and the use that a left-hand side defines. -/
def definitionTarget (lhs : Term) : EvalM (Symbol × RuleCache) :=
  match (Pattern.ofTerm lhs).target with
  | .ok target => return target
  | .error e => throw (.pattern e)

/-- Store a rule of a symbol. -/
def storeRule (s : Symbol) (cache : RuleCache) (mode : AccessMode) (lhs rhs : Term)
    (kind : RuleKind) : EvalM Unit := do
  let r ← makeRule lhs rhs kind
  let _ ← insertRule s mode cache r

/-- Define a left-hand side. -/
def define (c : ContextId) (lhs rhs : Term) (kind : RuleKind) : EvalM Unit := do
  validate lhs
  let (s, cache) ← definitionTarget lhs
  if kind = .immediate ∧ lhs.isSymbol s then
    let rhs ← share rhs
    if ((← get).attributes s).has .threadLocal then modify fun k => k.setLocal c s rhs
    else change fun k => k.setValue s (some rhs)
  else storeRule s cache .write lhs rhs kind

/-- Define a left-hand side to rewrite to a right-hand side evaluated on each use. -/
def assignDelayed (c : ContextId) (lhs rhs : Term) : EvalM Unit := define c lhs rhs .delayed

/-- Define a left-hand side to rewrite to what a right-hand side evaluates to now. -/
def Evaluator.assign (r : Evaluator) (c : ContextId) (lhs rhs : Term) : EvalM Unit := do
  let value ← r.evaluate c rhs
  define c lhs value .immediate

/-! ## other uses -/

/-- Store a rule for calls that carry a symbol in an argument. -/
def assignUp (tag : Symbol) (lhs rhs : Term) : EvalM Unit := do
  validate lhs
  if (Pattern.ofTerm lhs).slots.any (Pattern.carries tag) then
    storeRule tag .up .write lhs rhs .delayed
  else throw (.pattern (.noTarget lhs))

/-- Store a rule for the approximation of a symbol or of its calls. -/
def assignApprox (s : Symbol) (lhs rhs : Term) : EvalM Unit := do
  validate lhs
  storeRule s .approx .write lhs rhs .delayed

/-- Store a rule for the display of a symbol or of its calls. -/
def assignFormat (s : Symbol) (lhs rhs : Term) : EvalM Unit := do
  validate lhs
  storeRule s .format .write lhs rhs .delayed

/-- Store a default value for arguments left out of calls of a symbol; protected symbols
allow it. -/
def setDefault (s : Symbol) (key value : Term) : EvalM Unit :=
  storeRule s .default .writeOptions key value .immediate

/-! ## removing -/

/-- Remove what is defined for exactly a left-hand side; the result tells whether there was
anything. -/
def unassign (c : ContextId) (lhs : Term) : EvalM Bool := do
  let (s, cache) ← definitionTarget lhs
  let cleared ←
    if lhs.isSymbol s then
      if ((← get).attributes s).has .threadLocal then
        pure (← modifyGet fun k => k.unsetLocal c s).isSome
      else if ((← get).value? s).isSome then do
        change fun k => k.setValue s none
        pure true
      else pure false
    else pure false
  if ((← get).rules? s cache).isSome then
    let attrs := (← get).attributes
    let removed ← changeRules s .write cache fun list => list.remove attrs lhs
    return cleared || removed == some true
  else return cleared

end Termwise
