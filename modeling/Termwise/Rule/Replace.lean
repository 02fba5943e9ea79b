import Termwise.Rule.Basic
import Termwise.Term.Node

/-!
# Termwise.Rule.Replace

Applying rules to a term on request: to the whole of it (`replaceM`), or to every
part of it, from the outside in (`replaceAllM`).  A replaced part is not searched
again.  Where nothing changes the very same node comes back.
-/

namespace Termwise

namespace Rule

variable {m : Type → Type} [Monad m]

/-- Apply one rule: a constant one by equality, any other one as `rewrite` does. -/
def applyWith (rewrite : Term → Term → Term → m (Option Term)) (r : Rule) (subject : Term) :
    m (Option Term) :=
  if r.literal then pure (if r.lhs == subject then some r.rhs else none)
  else rewrite r.lhs r.rhs subject

end Rule

namespace Term

variable {m : Type → Type} [Monad m]

/-- The result of the first rule that applies to the whole of a term, else the term; `first?` tries
the rules. -/
def replaceM (first? : Term → m (Option Term)) (t : Term) : m Term := do
  return (← first? t).getD t

mutual

/-- A term with every part rewritten by the first rule that applies, outermost parts first. -/
def replaceAllM (first? : Term → m (Option Term)) : Term → m Term
  | .node id head args => do
    match ← first? (.node id head args) with
    | some result => return result
    | none => do
      let newHead ← replaceAllM first? head
      let newArgs ← replaceAllsM first? args
      if newHead.same head && (newArgs.zip args).all (fun a => a.1.same a.2) then
        return .node id head args
      else return call newHead newArgs
  | t => replaceM first? t

/-- Every term of a list with all its parts rewritten. -/
def replaceAllsM (first? : Term → m (Option Term)) : List Term → m (List Term)
  | [] => return []
  | t :: ts => do
    let new ← replaceAllM first? t
    return new :: (← replaceAllsM first? ts)

end

end Term

end Termwise
