/-!
# Termwise.Memory.Heap

Allocations that several handles keep together.  An allocation counts its
handles; when the last one lets go it is freed, and lets go of the allocations
that its contents keep:

```text
identity   contents   handles
0          f(#1, #1)  1
1          g(#3)      2
2          -          (freed)
3          h()        1
```

Identities are given out in order, none of them twice.  What the contents keep is
a parameter, `refs`.  An operation on an allocation that is not there, or that no
handle keeps, gives nothing.
-/

namespace Termwise.Memory

/-- An allocation and the number of handles that keep it. -/
structure Cell (α : Type) where
  contents : α
  handles : Nat
deriving DecidableEq, Repr

/-- Allocations by identity, nothing where one was freed. -/
structure Heap (α : Type) where
  cells : List (Option (Cell α)) := []
deriving DecidableEq, Repr

namespace Heap

variable {α : Type} (refs : α → List Nat)

/-! ## reading -/

/-- The allocation of an identity. -/
def cell? (h : Heap α) (id : Nat) : Option (Cell α) := h.cells[id]?.join

/-- The contents of an allocation. -/
def read (h : Heap α) (id : Nat) : Option α := (h.cell? id).map Cell.contents

/-- How many handles keep an allocation. -/
def handles (h : Heap α) (id : Nat) : Nat := ((h.cell? id).map Cell.handles).getD 0

/-! ## writing -/

/-- Put an allocation in a place, or free the place. -/
def put (h : Heap α) (id : Nat) (c : Option (Cell α)) : Heap α := ⟨h.cells.set id c⟩

/-- A new allocation, with one handle. -/
def alloc (h : Heap α) (contents : α) : Nat × Heap α :=
  (h.cells.length, ⟨h.cells ++ [some ⟨contents, 1⟩]⟩)

/-- Replace the contents of an allocation. -/
def write (h : Heap α) (id : Nat) (contents : α) : Option (Heap α) :=
  (h.cell? id).map fun c => h.put id (some { c with contents })

/-- One more handle of an allocation. -/
def retain (h : Heap α) (id : Nat) : Option (Heap α) :=
  (h.cell? id).map fun c => h.put id (some { c with handles := c.handles + 1 })

/-- One more handle of each allocation of a list. -/
def retainAll (h : Heap α) : List Nat → Option (Heap α)
  | [] => some h
  | id :: ids => (h.retain id).bind (·.retainAll ids)

/-! ## letting go -/

/-- Handles of all allocations together. -/
def total (h : Heap α) : Nat := h.cells.foldr (fun c n => (c.map Cell.handles).getD 0 + n) 0

theorem foldr_set_lt {β : Type} (f : β → Nat) {x y : β} (hlt : f y < f x) :
    ∀ {l : List β} {i : Nat}, l[i]? = some x →
      (l.set i y).foldr (fun b n => f b + n) 0 < l.foldr (fun b n => f b + n) 0
  | z :: l, 0, h => by
      obtain rfl : z = x := by simpa using h
      simp [hlt]
  | z :: l, i + 1, h => by
      have := foldr_set_lt f hlt (show l[i]? = some x by simpa using h)
      simpa using this

theorem total_put_lt {h : Heap α} {id : Nat} {c : Cell α} {new : Option (Cell α)}
    (hcell : h.cell? id = some c) (hlt : (new.map Cell.handles).getD 0 < c.handles) :
    (h.put id new).total < h.total := by
  have hplace : h.cells[id]? = some (some c) := Option.join_eq_some_iff.mp hcell
  exact foldr_set_lt (fun c : Option (Cell α) => (c.map Cell.handles).getD 0) hlt hplace

/-- Let go of handles one after the other.  The last handle frees the allocation and lets go of what
it kept. -/
def release (h : Heap α) : List Nat → Option (Heap α)
  | [] => some h
  | id :: ids =>
    match hcell : h.cell? id with
    | none => none
    | some ⟨_, 0⟩ => none
    | some ⟨v, 1⟩ => release (h.put id none) (refs v ++ ids)
    | some ⟨v, n + 2⟩ => release (h.put id (some ⟨v, n + 1⟩)) ids
termination_by h.total
decreasing_by all_goals exact total_put_lt hcell (by simp)

/-! ## sole ownership -/

/-- Make a handle the only one of its allocation: as it is when nothing else keeps it, else by
moving the handle to a copy. -/
def makeUnique (copy : α → α) (h : Heap α) (id : Nat) : Option (Nat × Heap α) := do
  let c ← h.cell? id
  if c.handles = 1 then some (id, h)
  else
    let h ← h.retainAll (refs c.contents)
    let (new, h) := h.alloc (copy c.contents)
    let h ← h.release refs [id]
    some (new, h)

end Heap

end Termwise.Memory
