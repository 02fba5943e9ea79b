/-!
# Termwise.Memory.Places

Numbered places for the handles of a program.  A new handle gets the next place;
an operation that uses a handle up leaves its place empty:

```text
0  a            0  -
1  b    join    1  b
        0 1     2  ab
```
-/

namespace Termwise.Memory

/-- Handles by place, nothing where one was used up. -/
structure Places (β : Type) where
  entries : List (Option β) := []
deriving DecidableEq, Repr

namespace Places

variable {β : Type}

/-- The handle in a place. -/
def get? (p : Places β) (r : Nat) : Option β := p.entries[r]?.join

/-- The handle in a place, and the places without it. -/
def take? (p : Places β) (r : Nat) : Option (β × Places β) :=
  (p.get? r).map fun x => (x, ⟨p.entries.set r none⟩)

/-- The next place taken. -/
def add (p : Places β) (x : β) : Places β := ⟨p.entries ++ [some x]⟩

/-- The allocations that the handles keep. -/
def held (refs : β → List Nat) (p : Places β) : List Nat :=
  p.entries.flatMap fun x => (x.map refs).getD []

end Places

end Termwise.Memory
