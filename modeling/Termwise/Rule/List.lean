import Termwise.Rule.Basic
import Termwise.Term.Order

/-!
# Termwise.Rule.List

A list of rules, in two parts:

1. *constant rules*, at most one for each left-hand side, in the order of their
   left-hand sides;
2. *pattern rules*, most specific first, older ones first among equals.

A lookup gives the constant rule of the subject if there is one, and else the
first pattern rule that applies.  So that not every pattern rule has to be tried, a
*dispatch table* groups them by dispatch key.  It is made on the first lookup that
needs it and dropped by every change of the list.  It is made anew when some symbol
has become flat or orderless, or is no longer: a constant rule whose left-hand side
then is no constant any more is read again as a pattern rule, tried before the
others.
-/

namespace Termwise

/-! ## dispatch tables -/

/-- The pattern rules of a list, grouped by dispatch key. -/
structure DispatchTable where
  /-- Positions of the rules with a dispatch key, by key. -/
  byKey : List (Term × List Nat)
  /-- Positions of the rules without a dispatch key. -/
  anyKey : List Nat
  /-- Constant rules whose left-hand sides are no constants any more. -/
  demoted : List Rule
  /-- The generation of the list when the table was made. -/
  builtAt : Nat
  /-- The structure epoch when the table was made. -/
  epoch : Nat

namespace DispatchTable

/-- Add a position to the group of a key. -/
def addKey (key : Term) (i : Nat) : List (Term × List Nat) → List (Term × List Nat)
  | [] => [(key, [i])]
  | (k, is) :: rest => if k == key then (k, is ++ [i]) :: rest else (k, is) :: addKey key i rest

/-- Two ascending lists of positions as one. -/
def merge : List Nat → List Nat → List Nat
  | [], js => js
  | i :: is, js => js.takeWhile (· < i) ++ i :: merge is (js.dropWhile (· < i))

/-- The positions of the rules that may apply to a subject with a given key, in list order. -/
def candidates (t : DispatchTable) (key : Term) : List Nat :=
  merge (((t.byKey.find? (·.1 == key)).map (·.2)).getD []) t.anyKey

end DispatchTable

/-! ## rule lists -/

/-- A list of rules. -/
structure RuleList where
  /-- The constant rules, by left-hand side. -/
  literals : List Rule
  /-- The pattern rules, most specific first. -/
  patterns : List Rule
  /-- Number of changes so far. -/
  generation : Nat
  /-- The dispatch table, if one has been made since the last change. -/
  table : Option DispatchTable

namespace RuleList

/-- The list without rules. -/
def empty : RuleList := ⟨[], [], 0, none⟩

instance : Inhabited RuleList := ⟨empty⟩

/-- Number of rules. -/
def size (l : RuleList) : Nat := l.literals.length + l.patterns.length

/-- Whether there are no rules. -/
def isEmpty (l : RuleList) : Bool := l.literals.isEmpty && l.patterns.isEmpty

/-- All rules, the constant ones first. -/
def rules (l : RuleList) : List Rule := l.literals ++ l.patterns

/-- The same rules without a dispatch table. -/
def copy (l : RuleList) : RuleList := { l with table := none }

/-! ## changes -/

/-- Count a change and drop the dispatch table. -/
def touch (l : RuleList) : RuleList := { l with generation := l.generation + 1, table := none }

/-- Put a rule among constant rules, in the place of one with an equal left-hand side. -/
def insertLiteral (r : Rule) : List Rule → List Rule
  | [] => [r]
  | s :: rest =>
    if s.lhs == r.lhs then r :: rest
    else if r.lhs.compare s.lhs == .lt then r :: s :: rest
    else s :: insertLiteral r rest

/-- Put a rule among pattern rules, after all rules that are at least as specific. -/
def insertPattern (r : Rule) : List Rule → List Rule
  | [] => [r]
  | s :: rest =>
    if SpecificityKey.compare s.key r.key != .gt then s :: insertPattern r rest
    else r :: s :: rest

/-- Put an unconditional rule in the place of the first unconditional one with the same left-hand
side, if there is one. -/
def replacePattern? (r : Rule) : List Rule → Option (List Rule)
  | [] => none
  | s :: rest =>
    if !s.conditional && s.sameLhs r then some (r :: rest)
    else (replacePattern? r rest).map (s :: ·)

/-- Add a rule.  A rule with the same left-hand side gives way, unless one of the two carries a
test; then both are kept, the older one first. -/
def insert (l : RuleList) (r : Rule) : RuleList :=
  let l := l.touch
  if r.literal then { l with literals := insertLiteral r l.literals }
  else
    let replaced := if r.conditional then none else replacePattern? r l.patterns
    { l with patterns := replaced.getD (insertPattern r l.patterns) }

/-- Remove all rules with a left-hand side; the flag tells whether there were any. -/
def remove (l : RuleList) (attrs : Symbol → Attributes) (lhs : Term) : RuleList × Bool :=
  let key := lhs.specificityKey attrs
  let names := lhs.patternNames
  let rest : RuleList :=
    { l with
      literals := l.literals.filter fun r => !(r.lhs == lhs)
      patterns := l.patterns.filter fun r =>
        !(r.key == key && Term.alphaEqual r.names names r.lhs lhs) }
  if rest.size = l.size then (l, false) else (rest.touch, true)

/-- Remove all rules. -/
def clear (l : RuleList) : RuleList := { l.touch with literals := [], patterns := [] }

/-! ## lookup -/

/-- The dispatch table of a list. -/
def makeTable (l : RuleList) (attrs : Symbol → Attributes) (epoch : Nat) : DispatchTable where
  byKey := l.patterns.zipIdx.foldl (fun groups r =>
    match r.1.dispatch with
    | some key => DispatchTable.addKey key r.2 groups
    | none => groups) []
  anyKey := (l.patterns.zipIdx.filter fun r => r.1.dispatch.isNone).map (·.2)
  demoted := (l.literals.filter fun r => !r.lhs.isLiteral attrs).map fun r =>
    Rule.make attrs r.lhs r.rhs r.kind
  builtAt := l.generation
  epoch := epoch

/-- The list with a dispatch table for a structure epoch, the one it has if that is current. -/
def prepared (l : RuleList) (attrs : Symbol → Attributes) (epoch : Nat) : RuleList :=
  match l.table with
  | some t => if t.epoch = epoch then l else { l with table := some (l.makeTable attrs epoch) }
  | none => { l with table := some (l.makeTable attrs epoch) }

/-- The right-hand side of the constant rule for a subject. -/
def constant? (l : RuleList) (subject : Term) : Option Term :=
  (l.literals.find? (·.lhs == subject)).map (·.rhs)

/-- The rules that a lookup tries when no constant rule fits, in order. -/
def candidates (l : RuleList) (subject : Term) : List Rule :=
  match l.table with
  | some t => t.demoted ++ (t.candidates subject.key).filterMap (l.patterns[·]?)
  | none => l.patterns

/-- Whether a lookup of a subject has to go through the pattern rules. -/
def needsTable (l : RuleList) (subject : Term) : Bool :=
  (l.constant? subject).isNone && !l.isEmpty

/-- The list ready for a lookup of a subject. -/
def ready (l : RuleList) (attrs : Symbol → Attributes) (epoch : Nat) (subject : Term) : RuleList :=
  if l.needsTable subject then l.prepared attrs epoch else l

variable {m : Type → Type} [Monad m]

/-- The result of the first rule for a subject; `apply` applies one rule. -/
def find? (l : RuleList) (apply : Rule → m (Option Term)) (subject : Term) : m (Option Term) :=
  match l.constant? subject with
  | some rhs => pure (some rhs)
  | none => (l.candidates subject).findSomeM? apply

end RuleList

end Termwise
