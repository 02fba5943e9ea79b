import Termwise.Term.Basic

/-!
# Termwise.Term.Share

Giving identities to nodes.  `share n t` names every node of `t` that has no
identity yet, with identities from `n` on.  A node with an identity is left
alone, and so is everything below it: nodes below a named node have names.
-/

namespace Termwise

/-- A host object with an identity, and the next free one. -/
def HostObject.share (next : Nat) (o : HostObject) : HostObject × Nat :=
  if o.id = 0 then ({ o with id := next }, next + 1) else (o, next)

/-- A string whose buffer has an identity, and the next free one. -/
def Text.Window.share (next : Nat) (w : Text.Window) : Text.Window × Nat :=
  if w.buffer = 0 then ({ w with buffer := next, inside := w.inside }, next + 1) else (w, next)

namespace Term

mutual

/-- The term with all nodes named, and the next free identity. -/
def share (next : Nat) : Term → Term × Nat
  | .node 0 head args =>
    let h := share (next + 1) head
    let a := shareAll h.2 args
    (.node next h.1 a.1, a.2)
  | .text w => let s := w.share next; (.text s.1, s.2)
  | .host o => let s := o.share next; (.host s.1, s.2)
  | t => (t, next)

/-- Terms with all nodes named, and the next free identity. -/
def shareAll (next : Nat) : List Term → List Term × Nat
  | [] => ([], next)
  | t :: ts =>
    let s := share next t
    let rest := shareAll s.2 ts
    (s.1 :: rest.1, rest.2)

end

end Term

end Termwise
