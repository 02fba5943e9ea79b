import Termwise.Term.Basic

/-!
# Termwise.Term.Node

Operations on calls seen as item lists, the head at index 0 and the arguments
from index 1 on.  An operation that changes something gives a new node; one that
changes nothing gives the node it was given.
-/

namespace Termwise.Term

/-! ## reading -/

/-- The head and the arguments of a call, none for an atom. -/
def items : Term → List Term
  | .node _ head args => head :: args
  | _ => []

/-- The item at an index, the empty result outside the call. -/
def item (t : Term) (i : Nat) : Term := t.items.getD i null

/-! ## building -/

/-- A call from its items; without items, a call of the empty result. -/
def ofItems : List Term → Term
  | [] => call null []
  | head :: args => call head args

/-- A call with `n` empty arguments. -/
def blankCall (head : Term) (n : Nat) : Term := call head (List.replicate n null)

/-- Bytes that one item takes. -/
def itemSize : Nat := 32

/-- A call with `n` empty arguments, or nothing when there is no room for them. -/
def blankCall? (head : Term) (n : Nat) : Option Term :=
  if itemSize * (n + 1) ≤ Text.Window.memoryLimit then some (blankCall head n) else none

/-! ## changing -/

/-- The call of the same head on `len` arguments from the `start`-th on, clamped. -/
def range (t : Term) (start len : Nat) : Term :=
  call t.key ((t.args.drop (start - 1)).take len)

/-- Replace an item; an index outside the call changes nothing. -/
def set (t : Term) (i : Nat) (value : Term) : Term :=
  if i < t.items.length then ofItems (t.items.set i value) else t

/-- Change the number of arguments, filling up with empty results. -/
def resize (t : Term) (n : Nat) : Term :=
  if n = t.args.length then t
  else call t.key (t.args.take n ++ List.replicate (n - t.args.length) null)

/-- Add arguments at the end. -/
def append (t : Term) (more : List Term) : Term := call t.key (t.args ++ more)

theorem items_set (t : Term) (i : Nat) (value : Term) (h : t.items ≠ []) :
    (t.set i value).items = t.items.set i value := by
  unfold set
  split
  · cases t <;> simp_all [items]
    cases i <;> rfl
  · rw [List.set_eq_of_length_le (by omega)]

end Termwise.Term
