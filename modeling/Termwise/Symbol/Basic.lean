/-!
# Termwise.Symbol.Basic

Symbols are names with an identity.  Two symbols are the same when both agree;
a name that was given up and taken again belongs to a new symbol with a later
identity.
-/

namespace Termwise

/-- A named atom of the term language. -/
structure Symbol where
  /-- Identity, in order of creation. -/
  id : Nat
  /-- The text the symbol is written as. -/
  name : String
deriving DecidableEq, Repr, Inhabited

namespace Symbol

/-- Symbols are ordered by name, symbols of one name by age. -/
def compare (a b : Symbol) : Ordering := (Ord.compare a.name b.name).then (Ord.compare a.id b.id)

end Symbol

end Termwise
