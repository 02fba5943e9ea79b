import Termwise.Rule.List

/-!
# Termwise.Rule.Store

The rules of one symbol, a list for each use:

```text
own      rules for the symbol itself
down     rules for its calls
up       rules for calls with the symbol in an argument
sub      rules for calls of its calls
approx   rules for approximation
format   rules for display
default  values of optional arguments
```
-/

namespace Termwise

/-- The uses of rules. -/
inductive RuleCache where
  | own | down | up | sub | approx | format | default
deriving DecidableEq, Repr

namespace RuleCache

/-- All uses, in listing order. -/
def all : List RuleCache := [own, down, up, sub, approx, format, default]

end RuleCache

/-- How a caller means to use the rules of a symbol. -/
inductive AccessMode where
  /-- Look only. -/
  | read
  /-- Change any list; refused by protected symbols. -/
  | write
  /-- Change default values only. -/
  | writeOptions
deriving DecidableEq, Repr

/-- The rules of one symbol. -/
structure RuleStore where
  own : RuleList := .empty
  down : RuleList := .empty
  up : RuleList := .empty
  sub : RuleList := .empty
  approx : RuleList := .empty
  format : RuleList := .empty
  default : RuleList := .empty

namespace RuleStore

/-- The rules for a use. -/
def get (s : RuleStore) : RuleCache → RuleList
  | .own => s.own
  | .down => s.down
  | .up => s.up
  | .sub => s.sub
  | .approx => s.approx
  | .format => s.format
  | .default => s.default

/-- The store with other rules for a use. -/
def set (s : RuleStore) (cache : RuleCache) (l : RuleList) : RuleStore :=
  match cache with
  | .own => { s with own := l }
  | .down => { s with down := l }
  | .up => { s with up := l }
  | .sub => { s with sub := l }
  | .approx => { s with approx := l }
  | .format => { s with format := l }
  | .default => { s with default := l }

/-- Whether there are no rules at all. -/
def isEmpty (s : RuleStore) : Bool := RuleCache.all.all fun c => (s.get c).isEmpty

/-- The numbers of rules, in listing order of the uses. -/
def sizes (s : RuleStore) : List Nat := RuleCache.all.map fun c => (s.get c).size

@[simp]
theorem get_set_self (s : RuleStore) (c : RuleCache) (l : RuleList) : (s.set c l).get c = l := by
  cases c <;> rfl

theorem get_set_of_ne (s : RuleStore) (c d : RuleCache) (l : RuleList) (h : c ≠ d) :
    (s.set c l).get d = s.get d := by
  cases c <;> cases d <;> first | rfl | exact absurd rfl h

end RuleStore

end Termwise
