import Termwise.Kernel.SymbolTable

/-!
# Termwise.Kernel.Definitions

Reading and changing what a kernel knows about a symbol: attributes, value, rules
and native code.  Changes are refused

1. by removed symbols;
2. by protected symbols, except that protection itself can be taken off and that
   default values can be changed;
3. by rules opened for reading.

A change that is made moves the generation; a refused one changes nothing but may
leave an empty rule store behind.
-/

namespace Termwise

/-- Why the list for a use cannot be changed when rules are opened in a mode. -/
def AccessMode.refusal? (mode : AccessMode) (cache : RuleCache) (s : Symbol) :
    Option SymbolError :=
  match mode with
  | .read => some .readOnly
  | .write => none
  | .writeOptions => if cache = .default then none else some (.isProtected s.name)

namespace Kernel

/-! ## attributes and values -/

/-- Why a change of a symbol that is not protected from it would be refused. -/
def checkLive (k : Kernel) (s : Symbol) : Except SymbolError Unit :=
  if (k.record s).removed then .error (.removed s.name) else .ok ()

/-- Give a symbol attributes, whatever it has now. -/
def storeAttributes (k : Kernel) (s : Symbol) (attrs : Attributes) : Kernel :=
  let epoch := if (k.attributes s).restructured attrs then 1 else 0
  { k.updateRecord s (fun r => { r with attributes := attrs }) with
    structureEpoch := k.structureEpoch + epoch
    generation := k.generation + 1 }

/-- Set the attributes of a symbol; a protected symbol refuses unless the new set drops the
protection. -/
def setAttributes (k : Kernel) (s : Symbol) (attrs : Attributes) : Except SymbolError Kernel := do
  k.checkLive s
  if (k.attributes s).has .isProtected && attrs.has .isProtected then throw (.isProtected s.name)
  else return k.storeAttributes s attrs

/-- The value of a symbol. -/
def value? (k : Kernel) (s : Symbol) : Option Term := (k.record s).value

/-- Set or clear the value of a symbol. -/
def setValue (k : Kernel) (s : Symbol) (value : Option Term) : Except SymbolError Kernel := do
  k.checkLive s
  if (k.attributes s).has .isProtected then throw (.isProtected s.name)
  else return (k.updateRecord s fun r => { r with value := value }).bump

/-! ## rules -/

/-- The rules of a symbol for a use, unless there are none. -/
def rules? (k : Kernel) (s : Symbol) (cache : RuleCache) : Option RuleList := do
  let list := (← (k.record s).rules).get cache
  if list.isEmpty then none else some list

/-- Open the rules of a symbol.  For a change, rules that are absent are made empty first. -/
def openRules (k : Kernel) (s : Symbol) (mode : AccessMode) :
    Except SymbolError (Option RuleStore × Kernel) :=
  match mode with
  | .read => return ((k.record s).rules, k)
  | .write => do
    k.checkLive s
    if (k.attributes s).has .isProtected then throw (.isProtected s.name) else return made
  | .writeOptions => do
    k.checkLive s
    return made
where
  /-- The rules of the symbol, made if absent. -/
  made : Option RuleStore × Kernel :=
    match (k.record s).rules with
    | some store => (some store, k)
    | none => (some {}, k.updateRecord s fun r => { r with rules := some {} })

/-- Put another list of rules in the place of the one for a use. -/
def putRules (k : Kernel) (s : Symbol) (cache : RuleCache) (list : RuleList) : Kernel :=
  k.updateRecord s fun r => { r with rules := some ((r.rules.getD {}).set cache list) }

/-! ## native code -/

/-- Bind native code to a symbol. -/
def register (k : Kernel) (s : Symbol) (usage : CodeUsage) (code : Native) : Kernel :=
  (k.updateRecord s fun r => { r with code := r.code.set usage code }).bump

/-- Bind native code for approximation to a symbol. -/
def registerApprox (k : Kernel) (s : Symbol) (code : ApproxNative) : Kernel :=
  (k.updateRecord s fun r => { r with code := { r.code with approx := some code } }).bump

end Kernel

/-! ## actions -/

/-- Make a change that a symbol may refuse. -/
def change (f : Kernel → Except SymbolError Kernel) : EvalM Unit := do
  match f (← get) with
  | .ok k => set k
  | .error e => throw (.symbol e)

/-- Open the rules of a symbol. -/
def openRules (s : Symbol) (mode : AccessMode) : EvalM (Option RuleStore) := do
  match (← get).openRules s mode with
  | .ok (store, k) => do
    set k
    return store
  | .error e => throw (.symbol e)

/-- Open the rules of a symbol and change the list for a use; nothing when there are none. -/
def changeRules {α : Type} (s : Symbol) (mode : AccessMode) (cache : RuleCache)
    (f : RuleList → RuleList × α) : EvalM (Option α) := do
  match ← openRules s mode with
  | none => return none
  | some store =>
    match mode.refusal? cache s with
    | some e => throw (.symbol e)
    | none =>
      let (list, result) := f (store.get cache)
      modify fun k => (k.putRules s cache list).bump
      return some result

/-- The rule that a left-hand and a right-hand side make while attributes are as they are. -/
def makeRule (lhs rhs : Term) (kind : RuleKind) : EvalM Rule := do
  let lhs ← share lhs
  let rhs ← share rhs
  return Rule.make (← get).attributes lhs rhs kind

/-- Add a rule to a symbol. -/
def insertRule (s : Symbol) (mode : AccessMode) (cache : RuleCache) (r : Rule) :
    EvalM (Option Unit) :=
  changeRules s mode cache fun list => (list.insert r, ())

end Termwise
