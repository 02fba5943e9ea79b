import Termwise.Kernel.State
import Termwise.Term.Node
import Termwise.Term.Order

/-!
# Termwise.Eval.Normalize

What the attributes of a head make of a call before any rule sees it:

```text
(always)    f(Sequence(a, b), c)   to   f(a, b, c)
Flat        f(f(a, b), c)          to   f(a, b, c)
Orderless   f(c, a, b)             to   f(a, b, c)
Listable    f(List(a, b), c)       to   List(f(a, c), f(b, c))
```

A call that is in this form already comes back as the very same node.
-/

namespace Termwise.Term

/-! ## sequences -/

/-- The call with sequences among its arguments spliced in, and its head with them when that is a
sequence too. -/
def spliceSequences (t : Term) : Term :=
  if t.args.any (·.hasHead .sequence) then
    ofItems (t.items.flatMap fun a => if a.hasHead .sequence then a.args else [a])
  else t

/-! ## flat heads -/

/-- Whether a term is a call of a given head. -/
def isCallOf (head : Term) : Term → Bool
  | .node _ f _ => f == head
  | _ => false

mutual

/-- What a term contributes to a call of a flat head: the term, or, for a call of that head, what
its arguments contribute. -/
def leaves (head : Term) : Term → List Term
  | .node id f args => if f == head then leavesAll head args else [.node id f args]
  | t => [t]

/-- What terms contribute to a call of a flat head, one after the other. -/
def leavesAll (head : Term) : List Term → List Term
  | [] => []
  | t :: ts => leaves head t ++ leavesAll head ts

end

/-- The call with nested calls of its head dissolved. -/
def flatten (t : Term) : Term :=
  if t.args.any (isCallOf t.key) then call t.key (leavesAll t.key t.args) else t

/-! ## orderless heads -/

/-- Whether no term comes after its successor. -/
def isSorted : List Term → Bool
  | a :: b :: rest => le a b && isSorted (b :: rest)
  | _ => true

/-- The call with its arguments in ascending order. -/
def sortArgs (t : Term) : Term := if isSorted t.args then t else call t.key (sort t.args)

/-! ## listable heads -/

/-- The lengths of the lists among terms. -/
def listLengths (ts : List Term) : List Nat :=
  (ts.filter (·.hasHead .list)).map (·.args.length)

/-- The `i`-th row of a call threaded over lists, counted from 0. -/
def row (t : Term) (i : Nat) : Term :=
  call t.key (t.args.map fun a => if a.hasHead .list then a.args.getD i null else a)

/-- Thread a call over the lists among its arguments.  Lists of different lengths are reported. -/
def threadListable (t : Term) : EvalM (Option Term) := do
  match listLengths t.args with
  | [] => return none
  | n :: rest =>
    if rest.all (· == n) then return some (list ((List.range n).map t.row))
    else do
      message .thread "tdlen" [t]
      return none

end Termwise.Term
