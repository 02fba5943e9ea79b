import Termwise.Eval.Search

/-!
# Termwise.Eval.Gather

Emitting a value into an open gather.  The gathers of the context are tried from
the innermost outwards, then those of its parent, and so on; the first one whose
pattern matches the tag gets the value.  Matching may run code that opens and closes
gathers: a gather that was closed meanwhile gets nothing, and the search goes on.

A value that no gather takes is reported, with its tag if there were gathers to
refuse it.
-/

namespace Termwise

namespace Kernel

/-- Append a value to an open gather of a context. -/
def collect (k : Kernel) (owner : ContextId) (id : Nat) (value : Term) : Kernel :=
  k.updateContext owner fun x =>
    { x with gathers := x.gathers.map fun g =>
        if g.id = id then { g with values := g.values ++ [value] } else g }

/-- Whether a gather of a context is open. -/
def isOpen (k : Kernel) (owner : ContextId) (id : Nat) : Bool :=
  (k.context owner).gathers.any (·.id == id)

end Kernel

namespace Evaluator

/-- Offer a value to one gather; the result tells whether it took the value. -/
def offer (r : Evaluator) (c owner : ContextId) (value tag : Term) (frame : GatherFrame) :
    EvalM (Option Unit) := do
  if ← r.isMatch c tag frame.pattern then
    if (← get).isOpen owner frame.id then
      modify fun k => k.collect owner frame.id value
      return some ()
  return none

/-- Offer a value to the gathers of contexts, one context after the other; `seen` tells whether
there have been any gathers. -/
def emitInto (r : Evaluator) (c : ContextId) (value tag : Term) : List ContextId → Bool → EvalM Unit
  | [], seen =>
    if seen then message .emit "nogather2" [value, tag] else message .emit "nogather" [value]
  | owner :: rest, seen => do
    let frames := ((← get).context owner).gathers
    match ← frames.findSomeM? (r.offer c owner value tag) with
    | some () => return ()
    | none => r.emitInto c value tag rest (seen || !frames.isEmpty)

/-- Emit a value under a tag. -/
def emit (r : Evaluator) (c : ContextId) (value tag : Term) : EvalM Unit := do
  r.emitInto c value tag (c :: ((← get).context c).ancestors) false

end Evaluator

end Termwise
