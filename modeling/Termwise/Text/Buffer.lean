import Termwise.Memory.Heap
import Termwise.Memory.Places
import Termwise.Text.Window

/-!
# Termwise.Text.Buffer

Strings in shared memory.  A `View` shows a window of a buffer, which other views
may share:

```text
buffer #0      h e l l o   w o r l d      2 views
view #0 6 3                [ w o r ]
view #0 0 11   [ h e l l o   w o r l d ]
```

Slicing makes another view of the same buffer.  A changing operation uses its view
up and writes into the buffer when nothing else views it, after moving the window
to the front; else it writes into a copy of the window.  `Window` is what a view
comes to as a value.
-/

namespace Termwise.Text

open Memory

/-! ## buffers -/

/-- Units in memory, with room for some more. -/
structure Buffer where
  units : List UInt16
  room : Nat
deriving DecidableEq, Repr

namespace Buffer

/-- A buffer that holds units, with room for `extra` more. -/
def ofUnits (us : List UInt16) (extra : Nat) : Buffer :=
  ⟨us, max (Window.capacity (us.length + extra)) us.length⟩

/-- A buffer with the same units and no room to spare. -/
def copy (b : Buffer) : Buffer := ⟨b.units, b.units.length⟩

/-- The units of a window, which must lie inside. -/
def window? (b : Buffer) (start len : Nat) : Option (List UInt16) :=
  if start + len ≤ b.units.length then some ((b.units.drop start).take len) else none

/-- Copy a window over the first units. -/
def moveDown? (b : Buffer) (start len : Nat) : Option Buffer :=
  (b.window? start len).map fun us => { b with units := us ++ b.units.drop len }

/-- Cut a buffer down to a window of it. -/
def cut? (b : Buffer) (start len : Nat) : Option Buffer :=
  (if start = 0 then some b else b.moveDown? start len).map fun b =>
    { b with units := b.units.take len }

/-- Make room for `n` units. -/
def reserve (b : Buffer) (n : Nat) : Buffer :=
  if b.room < n then { b with room := max b.room (Window.capacity n) } else b

/-- Replace a unit, which must be there. -/
def set? (b : Buffer) (i : Nat) (u : UInt16) : Option Buffer :=
  if i < b.units.length then some { b with units := b.units.set i u } else none

/-- Add units at the end. -/
def extend (b : Buffer) (us : List UInt16) : Buffer :=
  ⟨b.units ++ us, max b.room (b.units.length + us.length)⟩

/-- A buffer keeps no allocations. -/
def refs (_ : Buffer) : List Nat := []

end Buffer

/-! ## views -/

/-- A window of a buffer. -/
structure View where
  /-- Identity of the buffer. -/
  buffer : Nat
  /-- First visible unit. -/
  start : Nat
  /-- Number of visible units. -/
  length : Nat
deriving DecidableEq, Repr

/-- The buffers in memory. -/
abbrev Store := Heap Buffer

namespace View

/-- The visible units. -/
def units? (s : Store) (w : View) : Option (List UInt16) :=
  (s.read w.buffer).bind (·.window? w.start w.length)

/-- A view of a new buffer. -/
def ofUnits (s : Store) (us : List UInt16) : View × Store :=
  let (id, s) := s.alloc (.ofUnits us 0)
  (⟨id, 0, us.length⟩, s)

/-- Another view of the same window. -/
def clone (s : Store) (w : View) : Option (View × Store) :=
  (s.retain w.buffer).map (w, ·)

/-- A view of at most `len` units from the `start`-th visible one on, clamped to the window. -/
def slice (s : Store) (w : View) (start len : Nat) : Option (View × Store) :=
  let first := min start w.length
  (s.retain w.buffer).map (⟨w.buffer, w.start + first, min len (w.length - first)⟩, ·)

/-- Let go of a view. -/
def drop (s : Store) (w : View) : Option Store := s.release Buffer.refs [w.buffer]

/-- Move a view that is not the only one of its buffer to a copy of its window, with room for some
more units. -/
def unshare (s : Store) (w : View) (extra : Nat) : Option (View × Store) :=
  if s.handles w.buffer = 1 then some (w, s)
  else do
    let us ← w.units? s
    let (id, s) := s.alloc (.ofUnits us extra)
    let s ← w.drop s
    some (⟨id, 0, w.length⟩, s)

/-- Make a view the only one of a buffer that holds just its window, with room for `extra` more
units. -/
def own (s : Store) (w : View) (extra : Nat) : Option (View × Store) := do
  let (w, s) ← w.unshare s extra
  let (id, s) ← s.makeUnique Buffer.refs Buffer.copy w.buffer
  let b ← s.read id
  let b ← b.cut? w.start w.length
  let s ← s.write id (b.reserve (w.length + extra))
  some (⟨id, 0, w.length⟩, s)

/-- Replace one visible unit; an index outside the window changes nothing. -/
def set (s : Store) (w : View) (i : Nat) (u : UInt16) : Option (View × Store) :=
  if w.length ≤ i then some (w, s)
  else do
    let (w, s) ← w.own s 0
    let b ← s.read w.buffer
    let b ← b.set? i u
    let s ← s.write w.buffer b
    some (w, s)

/-- Add the visible units of a view at the end of another one; joining with an empty one gives the
other back. -/
def concat (s : Store) (a b : View) : Option (View × Store) :=
  if b.length = 0 then some (a, s)
  else if a.length = 0 then do
    let (b, s) ← b.clone s
    let s ← a.drop s
    some (b, s)
  else do
    -- what is in the buffer that is about to change is read before
    let early ← if a.buffer = b.buffer then (b.units? s).map some else some none
    let (a, s) ← a.own s b.length
    let us ← early.or (b.units? s)
    let buffer ← s.read a.buffer
    let s ← s.write a.buffer (buffer.extend us)
    some ({ a with length := a.length + b.length }, s)

end View

/-! ## programs -/

namespace View

/-- An operation on the views in places. -/
inductive Op where
  | ofUnits (us : List UInt16)
  | zeros (n : Nat)
  | clone (r : Nat)
  | slice (r start len : Nat)
  | set (r i : Nat) (u : UInt16)
  | concat (r other : Nat)
  | drop (r : Nat)
deriving DecidableEq, Repr

/-- The place of the view that an operation uses up. -/
def Op.uses? : Op → Option Nat
  | .set r _ _ => some r
  | .concat r _ => some r
  | .drop r => some r
  | _ => none

/-- Buffers, and the views of them. -/
structure Desk where
  store : Store := {}
  views : Places View := {}
deriving DecidableEq, Repr

namespace Desk

/-- A desk with one more view. -/
def add (views : Places View) (new : View × Store) : Desk := ⟨new.2, views.add new.1⟩

/-- One operation.  Nothing when there is no view in a place that it names, or when it fails. -/
def step (d : Desk) : Op → Option Desk
  | .ofUnits us => some (add d.views (View.ofUnits d.store us))
  | .zeros n => some (add d.views (View.ofUnits d.store (List.replicate n 0)))
  | .clone r => do
    let w ← d.views.get? r
    return add d.views (← w.clone d.store)
  | .slice r start len => do
    let w ← d.views.get? r
    return add d.views (← w.slice d.store start len)
  | .set r i u => do
    let (w, views) ← d.views.take? r
    return add views (← w.set d.store i u)
  | .concat r other => do
    let (a, views) ← d.views.take? r
    let b ← views.get? other
    return add views (← a.concat d.store b)
  | .drop r => do
    let (w, views) ← d.views.take? r
    return ⟨← w.drop d.store, views⟩

/-- The operations of a program, one after the other. -/
def run (d : Desk) (ops : List Op) : Option Desk := ops.foldlM step d

/-- What each view shows. -/
def shown (d : Desk) : List (Option (Option (List UInt16))) :=
  d.views.entries.map (Option.map (View.units? d.store))

end Desk

end View

end Termwise.Text
