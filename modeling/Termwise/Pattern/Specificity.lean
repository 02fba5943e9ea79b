import Termwise.Pattern.Literal

/-!
# Termwise.Pattern.Specificity

The order in which rules are tried, most specific first.  A pattern is walked
from the outside in; every node contributes the code of its class and, after its
parts, an end code.  The first code in which two walks differ decides:

```text
constants < calls < _h < _ < Except < Alternatives
  < PatternSequence < __h < __ < ___h < ___ < Optional < Repeated
```

A condition or a predicate puts the least code right after the first code of the
pattern under it, so a conditioned pattern comes just before its bare form.  A
name that occurs more than once does the same with a code that falls as the
number of occurrences grows.  Names themselves do not count.
-/

namespace Termwise

/-! ## names -/

/-- Names of a pattern with the numbers of their occurrences, in order of first occurrence. -/
abbrev NameCounts := List (Symbol × Nat)

namespace NameCounts

/-- Count one more occurrence of a name. -/
def add (name : Symbol) : NameCounts → NameCounts
  | [] => [(name, 1)]
  | (n, k) :: rest => if n = name then (n, k + 1) :: rest else (n, k) :: add name rest

/-- The number of occurrences of a name. -/
def count (names : NameCounts) (name : Symbol) : Nat :=
  ((names.find? (·.1 == name)).map (·.2)).getD 0

/-- The position of a name. -/
def position? (names : NameCounts) (name : Symbol) : Option Nat :=
  names.findIdx? (·.1 == name)

end NameCounts

namespace Term

mutual

/-- The names counted so far with those that a term adds as a pattern. -/
def addNames (names : NameCounts) : Term → NameCounts
  | .node _ head args =>
    match head, args with
    | .symbol s, [.symbol name, p] =>
      if s = .pattern then addNames (NameCounts.add name names) p
      else addNames names p
    | head, args => addAllNames (addNames names head) args
  | _ => names

/-- The names counted so far with those that terms add as patterns. -/
def addAllNames (names : NameCounts) : List Term → NameCounts
  | [] => names
  | t :: ts => addAllNames (addNames names t) ts

end

/-- The pattern names of a term. -/
def patternNames (t : Term) : NameCounts := t.addNames []

mutual

/-- Whether two terms agree up to a renaming of their pattern names. -/
def alphaEqual (names : NameCounts) (names' : NameCounts) : Term → Term → Bool
  | .symbol x, .symbol y =>
    match NameCounts.position? names x, NameCounts.position? names' y with
    | none, none => x == y
    | i, j => i == j
  | .node _ f xs, .node _ g ys => alphaEqual names names' f g && alphaEqualAll names names' xs ys
  | a, b => a == b

/-- Whether two lists of terms agree up to a renaming of pattern names. -/
def alphaEqualAll (names : NameCounts) (names' : NameCounts) : List Term → List Term → Bool
  | [], [] => true
  | x :: xs, y :: ys => alphaEqual names names' x y && alphaEqualAll names names' xs ys
  | _, _ => false

end

end Term

/-! ## keys -/

/-- The classes of nodes, most specific first. -/
inductive NodeClass where
  | constant | call | typedBlank | blank | except | alternatives | sequence
  | typedBlankSequence | blankSequence | typedBlankNullSequence | blankNullSequence
  | optional | repeated
deriving DecidableEq, Repr

/-- The code of a class, above all marks and the end code. -/
def NodeClass.code : NodeClass → Nat
  | constant => 6 | call => 7 | typedBlank => 8 | blank => 9 | except => 10
  | alternatives => 11 | sequence => 12 | typedBlankSequence => 13 | blankSequence => 14
  | typedBlankNullSequence => 15 | blankNullSequence => 16 | optional => 17 | repeated => 18

/-- The codes of a walk. -/
abbrev SpecificityKey := List Nat

namespace SpecificityKey

/-- Code of a condition. -/
def guarded : Nat := 0

/-- Code after the parts of a node. -/
def close : Nat := 5

/-- Code of a name that occurs `n` times. -/
def repeatedName (n : Nat) : Nat := close - min n 4

/-- The walk of a node of a class, from the walks of its parts. -/
def node (c : NodeClass) (parts : SpecificityKey) : SpecificityKey := c.code :: parts ++ [close]

/-- The walk of a node without parts. -/
def leaf (c : NodeClass) : SpecificityKey := node c []

/-- A walk with a code put right after its first one. -/
def mark (code : Nat) : SpecificityKey → SpecificityKey
  | [] => [code]
  | first :: rest => first :: code :: rest

/-- Walks compare code by code, a proper start before its extension. -/
def compare : SpecificityKey → SpecificityKey → Ordering
  | [], [] => .eq
  | [], _ :: _ => .lt
  | _ :: _, [] => .gt
  | x :: xs, y :: ys => (Ord.compare x y).then (compare xs ys)

end SpecificityKey

namespace Pattern

open SpecificityKey

mutual

/-- The walk of a pattern. -/
def specificityKey (attrs : Symbol → Attributes) (names : NameCounts) : Pattern → SpecificityKey
  | atom _ | literal _ => leaf .constant
  | blank type => leaf (if type.isSome then .typedBlank else .blank)
  | blankSequence type => leaf (if type.isSome then .typedBlankSequence else .blankSequence)
  | blankNullSequence type =>
    leaf (if type.isSome then .typedBlankNullSequence else .blankNullSequence)
  | named name p =>
    let key := p.specificityKey attrs names
    let n := NameCounts.count names name
    if 1 < n then mark (repeatedName n) key else key
  | hold p | longest p | shortest p => p.specificityKey attrs names
  | condition p _ | tested p _ => mark guarded (p.specificityKey attrs names)
  | except _ | exceptThen _ _ => leaf .except
  | alternatives _ => leaf .alternatives
  | sequence parts => node .sequence (specificityKeys attrs names parts)
  | optional p _ => node .optional (p.specificityKey attrs names)
  | repeated p _ _ _ => node .repeated (p.specificityKey attrs names)
  | call whole head args =>
    if whole.isLiteral attrs then leaf .constant
    else node .call (head.specificityKey attrs names ++ specificityKeys attrs names args)

/-- The walks of patterns, one after the other. -/
def specificityKeys (attrs : Symbol → Attributes) (names : NameCounts) :
    List Pattern → SpecificityKey
  | [] => []
  | p :: ps => p.specificityKey attrs names ++ specificityKeys attrs names ps

end

end Pattern

namespace Term

/-- The walk of a term as a pattern. -/
def specificityKey (attrs : Symbol → Attributes) (t : Term) : SpecificityKey :=
  (Pattern.ofTerm t).specificityKey attrs t.patternNames

/-- The order of terms as patterns, more specific ones first. -/
def compareSpecificity (attrs : Symbol → Attributes) (a b : Term) : Ordering :=
  SpecificityKey.compare (a.specificityKey attrs) (b.specificityKey attrs)

/-- Terms as patterns, most specific first; equally specific ones keep their order. -/
def sortBySpecificity (attrs : Symbol → Attributes) (ts : List Term) : List Term :=
  ts.mergeSort fun a b => compareSpecificity attrs a b != .gt

end Term

end Termwise
