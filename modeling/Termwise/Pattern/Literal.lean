import Termwise.Pattern.Basic

/-!
# Termwise.Pattern.Literal

Which left-hand sides are constants, and what a subject has to start with to be
matched by one that is not.

A term is *literal* when matching it amounts to structural equality: no pattern
syntax anywhere in it and no call of a flat or orderless symbol.  The *dispatch
key* of a pattern is the head that every call it matches has, or the atom it
matches; patterns such as `x_` have none.
-/

namespace Termwise

/-! ## literal terms -/

/-- Whether calls of a symbol can match something other than themselves. -/
def Symbol.opensMatch (attrs : Symbol → Attributes) (s : Symbol) : Bool :=
  s.isPatternHead || (attrs s).has .flat || (attrs s).has .orderless

namespace Term

mutual

/-- Whether matching a term amounts to structural equality. -/
def isLiteral (attrs : Symbol → Attributes) : Term → Bool
  | .node _ (.symbol s) args => !s.opensMatch attrs && areLiteral attrs args
  | .node _ head args => isLiteral attrs head && areLiteral attrs args
  | _ => true

/-- Whether all terms are literal. -/
def areLiteral (attrs : Symbol → Attributes) : List Term → Bool
  | [] => true
  | t :: ts => isLiteral attrs t && areLiteral attrs ts

end

end Term

/-! ## dispatch keys -/

/-- The head that a call matched by a pattern has, or the atom it matches. -/
def Pattern.dispatchKey (attrs : Symbol → Attributes) : Pattern → Option Term
  | .hold p | .condition p _ | .named _ p => p.dispatchKey attrs
  | .literal x => some x.key
  | .call whole _ _ => if whole.key.isLiteral attrs then some whole.key else none
  | .atom t => some t
  | _ => none

end Termwise
