import Termwise.Term.Basic

/-!
# Termwise.Pattern.Bindings

What a match has found out about names so far: pairs in the order they were
bound.  The first pair of a name counts.
-/

namespace Termwise

/-- Names with the terms bound to them, oldest first. -/
structure Bindings where
  /-- The pairs, oldest first. -/
  entries : List (Symbol × Term)

namespace Bindings

/-- No names bound. -/
def empty : Bindings := ⟨[]⟩

instance : Inhabited Bindings := ⟨empty⟩

/-- The term bound to a name. -/
def get? (b : Bindings) (name : Symbol) : Option Term :=
  (b.entries.find? (·.1 == name)).map (·.2)

/-- Bind a name, after all others. -/
def push (b : Bindings) (name : Symbol) (value : Term) : Bindings := ⟨b.entries ++ [(name, value)]⟩

/-- Keep the oldest `n` pairs. -/
def truncate (b : Bindings) (n : Nat) : Bindings := ⟨b.entries.take n⟩

/-- Number of pairs. -/
def size (b : Bindings) : Nat := b.entries.length

/-- Whether no name is bound. -/
def isEmpty (b : Bindings) : Bool := b.entries.isEmpty

/-- Bindings from pairs, in their order. -/
def ofList (l : List (Symbol × Term)) : Bindings := ⟨l⟩

@[simp]
theorem get?_empty (name : Symbol) : empty.get? name = none := rfl

theorem get?_push (b : Bindings) (name other : Symbol) (value : Term) :
    (b.push name value).get? other =
      (b.get? other).or (if name = other then some value else none) := by
  by_cases h : name = other <;>
    cases hf : b.entries.find? (·.1 == other) <;>
      simp [get?, push, List.find?_append, hf, h]

theorem truncate_push (b : Bindings) (name : Symbol) (value : Term) :
    (b.push name value).truncate b.size = b := by
  simp [push, truncate, size]

end Bindings

end Termwise
