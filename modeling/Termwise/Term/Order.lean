import Termwise.Term.Equality

/-!
# Termwise.Term.Order

The order of all terms, by which the arguments of orderless calls are sorted:

```text
magic values < numbers < strings < symbols < host objects < calls
```

Numbers go by value, an integer before a floating-point number of equal value;
strings by their code units; symbols by name; host objects by type and number;
calls by the number of their arguments, then head first, item by item.
-/

namespace Termwise

/-- The order of the magic values. -/
def Magic.index : Magic → Nat
  | .null => 0
  | .undefined => 1
  | .sequence => 2

/-- Host objects are ordered by type, then by number. -/
def HostObject.compare (a b : HostObject) : Ordering :=
  (Ord.compare a.kind b.kind).then (Ord.compare a.number b.number)

namespace Term

/-! ## numbers -/

/-- The floating-point number nearest to an integer. -/
def nearest (n : Int64) : Double := Double.ofInt n.toInt

/-- Compare an integer with a floating-point number; of equal values the integer comes first. -/
def compareIntFloat (n : Int64) (x : Double) : Ordering := ((nearest n).compare x).then .lt

/-! ## terms -/

mutual

/-- The order of terms. -/
def compare : Term → Term → Ordering
  | .magic a, .magic b => Ord.compare a.index b.index
  | .int a, .int b => Ord.compare a b
  | .float a, .float b => a.compare b
  | .int a, .float b => compareIntFloat a b
  | .float a, .int b => (compareIntFloat b a).swap
  | .text a, .text b => Text.Units.compare a.units b.units
  | .symbol a, .symbol b => a.compare b
  | .host a, .host b => a.compare b
  | .node _ f xs, .node _ g ys =>
    (Ord.compare xs.length ys.length).then ((compare f g).then (compareAll xs ys))
  | a, b => Ord.compare a.kind.rank b.kind.rank

/-- Lists of terms compare item by item. -/
def compareAll : List Term → List Term → Ordering
  | [], [] => .eq
  | [], _ :: _ => .lt
  | _ :: _, [] => .gt
  | x :: xs, y :: ys => (compare x y).then (compareAll xs ys)

end

/-- Whether a term comes no later than another one. -/
def le (a b : Term) : Bool := compare a b != .gt

/-- The terms in ascending order; equal terms keep their order. -/
def sort (ts : List Term) : List Term := ts.mergeSort le

end Term

end Termwise
