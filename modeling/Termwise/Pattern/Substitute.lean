import Termwise.Pattern.Bindings

/-!
# Termwise.Pattern.Substitute

Putting bound terms in the place of their names.  A run bound to a name is
spliced into the enclosing argument list, so with `x` bound to a run of `a` and
`b`, `g(x, c)` becomes `g(a, b, c)`.  A part without bound names stays the very
node it was.
-/

namespace Termwise.Term

mutual

/-- The term with bound names replaced, or nothing when it has none. -/
def substitute? (b : Bindings) : Term → Option Term
  | .symbol s => b.get? s
  | .node _ head args =>
    match substitute? b head with
    | some new => some (call new (spliceArgs b args))
    | none => (substituteArgs? b args).map (call head)
  | _ => none

/-- The argument list with bound names replaced, or nothing when it has none.  From the first
replaced argument on, runs are spliced in. -/
def substituteArgs? (b : Bindings) : List Term → Option (List Term)
  | [] => none
  | t :: ts =>
    match substitute? b t with
    | some new => some (new.run ++ spliceArgs b ts)
    | none => (substituteArgs? b ts).map (t :: ·)

/-- The argument list with bound names replaced and every run spliced in. -/
def spliceArgs (b : Bindings) : List Term → List Term
  | [] => []
  | t :: ts => ((substitute? b t).getD t).run ++ spliceArgs b ts

end

/-- The term with every bound name replaced by what it is bound to. -/
def substitute (b : Bindings) (t : Term) : Term := (t.substitute? b).getD t

end Termwise.Term
