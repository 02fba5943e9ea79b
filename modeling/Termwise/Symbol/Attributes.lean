/-!
# Termwise.Symbol.Attributes

The evaluation-affecting properties of a symbol, as a set of twelve:

```text
HoldFirst HoldRest         leave the first argument, the other arguments unevaluated
HoldAllComplete            leave all arguments alone, sequences and up rules included
Flat Orderless             associative, commutative
OneIdentity                (recorded only)
Listable                   thread over list arguments
Protected                  refuse changes of definitions
Temporary                  (recorded only)
ThreadLocal                values live in the evaluating context
NumericFunction            (recorded only)
SequenceHold               leave sequence arguments alone
```
-/

namespace Termwise

/-- One evaluation-affecting property. -/
inductive Attribute where
  | holdFirst | holdRest | holdAllComplete | flat | orderless | oneIdentity | listable
  | isProtected | temporary | threadLocal | numericFunction | sequenceHold
deriving DecidableEq, Repr

namespace Attribute

/-- All attributes, in the order they are listed in. -/
def all : List Attribute :=
  [holdFirst, holdRest, holdAllComplete, flat, orderless, oneIdentity, listable,
    isProtected, temporary, threadLocal, numericFunction, sequenceHold]

/-- Position of an attribute in its bit set. -/
def index : Attribute → Nat
  | holdFirst => 0 | holdRest => 1 | holdAllComplete => 2 | flat => 3 | orderless => 4
  | oneIdentity => 5 | listable => 6 | isProtected => 7 | temporary => 8 | threadLocal => 9
  | numericFunction => 10 | sequenceHold => 11

/-- The name an attribute is listed under. -/
def name : Attribute → String
  | holdFirst => "HoldFirst" | holdRest => "HoldRest" | holdAllComplete => "HoldAllComplete"
  | flat => "Flat" | orderless => "Orderless" | oneIdentity => "OneIdentity"
  | listable => "Listable" | isProtected => "Protected" | temporary => "Temporary"
  | threadLocal => "ThreadLocal" | numericFunction => "NumericFunction"
  | sequenceHold => "SequenceHold"

end Attribute

/-- A set of attributes. -/
structure Attributes where
  /-- One bit for each attribute, at its index. -/
  bits : BitVec 12
deriving DecidableEq, Repr

namespace Attributes

/-! ## sets -/

/-- The set without members. -/
def none : Attributes := ⟨0⟩

instance : Inhabited Attributes := ⟨none⟩

/-- Whether an attribute is in the set. -/
def has (s : Attributes) (a : Attribute) : Bool := s.bits.getLsbD a.index

/-- The set with one more member. -/
def insert (a : Attribute) (s : Attributes) : Attributes := ⟨s.bits ||| BitVec.twoPow 12 a.index⟩

/-- The members of either set. -/
def union (s t : Attributes) : Attributes := ⟨s.bits ||| t.bits⟩

/-- The set of the given attributes. -/
def ofList (l : List Attribute) : Attributes := l.foldr insert none

/-- The set whose bits are the low twelve of a number. -/
def ofNat (n : Nat) : Attributes := ⟨BitVec.ofNat 12 n⟩

/-- The members, in listing order. -/
def toList (s : Attributes) : List Attribute := Attribute.all.filter s.has

/-- The attributes that a name stands for; `HoldAll` stands for two. -/
def named? (name : String) : Option Attributes :=
  if name = "HoldAll" then some (ofList [.holdFirst, .holdRest])
  else (Attribute.all.find? (·.name == name)).map fun a => ofList [a]

/-! ## meaning -/

/-- Whether the argument at a position, counted from 1, stays unevaluated. -/
def holds (s : Attributes) (position : Nat) : Bool :=
  s.has .holdAllComplete || s.has (if position = 1 then .holdFirst else .holdRest)

/-- Whether two sets disagree on what a call of the symbol can be rearranged to. -/
def restructured (s t : Attributes) : Bool :=
  s.has .flat != t.has .flat || s.has .orderless != t.has .orderless

theorem has_union (s t : Attributes) (a : Attribute) :
    (s.union t).has a = (s.has a || t.has a) := by
  simp [union, has]

theorem has_none (a : Attribute) : none.has a = false := by
  cases a <;> decide

theorem holds_ofList_first : (ofList [.holdFirst]).holds 1 = true := by decide

end Attributes

end Termwise
