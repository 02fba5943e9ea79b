import Termwise.Term.Basic

/-!
# Termwise.Term.Equality

Three ways to compare terms, from coarse to fine:

```text
sameDigest   the structural hashes of two calls agree
==           structural equality: identities, buffers and host texts do not count
same         the very same node, buffer window or host object
```
-/

namespace Termwise.Term

/-! ## structural equality -/

mutual

/-- Structural equality. -/
def equal : Term → Term → Bool
  | .magic a, .magic b => a == b
  | .int a, .int b => a == b
  | .float a, .float b => a == b
  | .text a, .text b => a == b
  | .symbol a, .symbol b => a == b
  | .host a, .host b => a == b
  | .node _ f xs, .node _ g ys => equal f g && equalAll xs ys
  | _, _ => false

/-- Structural equality of lists, item by item. -/
def equalAll : List Term → List Term → Bool
  | [], [] => true
  | x :: xs, y :: ys => equal x y && equalAll xs ys
  | _, _ => false

end

instance : BEq Term := ⟨equal⟩

/-! ## identity -/

/-- Whether two terms are the same node, the same window of one buffer, the same host object, or
equal atoms of another kind. -/
def same : Term → Term → Bool
  | .magic a, .magic b => a == b
  | .int a, .int b => a == b
  | .float a, .float b => a == b
  | .text a, .text b => a.same b
  | .symbol a, .symbol b => a == b
  | .host a, .host b => a.id != 0 && a.id == b.id
  | .node i _ _, .node j _ _ => i != 0 && i == j
  | _, _ => false

/-! ## structural hash -/

/-- The 64 bits that a number contributes to a structural hash. -/
def numberBits : Term → UInt64
  | .int n => n.toUInt64
  | .float x => x.bits
  | _ => 0

mutual

/-- Whether two terms contribute the same to a structural hash.  The hash does not tell an integer
from a floating-point number with the same bits, nor the types of host objects apart. -/
def sameDigest : Term → Term → Bool
  | .magic a, .magic b => a == b
  | .int a, b => b.isNumber && numberBits (.int a) == numberBits b
  | .float a, b => b.isNumber && numberBits (.float a) == numberBits b
  | .text a, .text b => a == b
  | .symbol a, .symbol b => a == b
  | .host a, .host b => a.number == b.number
  | .node _ f xs, .node _ g ys => sameDigest f g && sameDigestAll xs ys
  | _, _ => false

/-- Whether two lists contribute the same to a structural hash. -/
def sameDigestAll : List Term → List Term → Bool
  | [], [] => true
  | x :: xs, y :: ys => sameDigest x y && sameDigestAll xs ys
  | _, _ => false

end

/-! ## identities removed -/

mutual

/-- The term on unnamed nodes, strings in buffers of their own, host objects without identity. -/
def strip : Term → Term
  | .text s => .text (Text.Window.ofUnits s.units)
  | .host o => .host { o with id := 0, text := none }
  | .node _ f xs => .node 0 (strip f) (stripAll xs)
  | .magic m => .magic m
  | .int n => .int n
  | .float x => .float x
  | .symbol s => .symbol s

/-- Every item with identities removed. -/
def stripAll : List Term → List Term
  | [] => []
  | x :: xs => strip x :: stripAll xs

end

theorem beq_def (a b : Term) : (a == b) = equal a b := rfl

mutual

theorem equal_self : ∀ t : Term, equal t t = true
  | .magic _ => by simp [equal]
  | .int _ => by simp [equal]
  | .float _ => by simp [equal]
  | .text s => by simp [equal, Text.Window.beq_def]
  | .symbol _ => by simp [equal]
  | .host o => by
    show (o.kind == o.kind && o.number == o.number) = true
    simp
  | .node _ f xs => by simp [equal, equal_self f, equalAll_self xs]

theorem equalAll_self : ∀ ts : List Term, equalAll ts ts = true
  | [] => by simp [equalAll]
  | x :: xs => by simp [equalAll, equal_self x, equalAll_self xs]

end

instance : ReflBEq Term := ⟨fun {t} => equal_self t⟩

end Termwise.Term
