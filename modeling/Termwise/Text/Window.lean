import Termwise.Number.Power
import Termwise.Text.Units

/-!
# Termwise.Text.Window

The string values of the term language.  A `Window` is a view of `length` code
units, from `start` on, into a buffer that several windows may share:

```text
buffer   h e l l o   w o r l d
window               [ w o r ]      start = 6, length = 3
```

Slicing moves the window and keeps the buffer.  The operations that change
text give a new buffer, so no window ever sees what another one wrote.
`buffer` is the identity of the shared buffer (0 while it has none): two windows
are the *same* string when they view the same stretch of the same buffer, and
*equal* when they show the same units.
-/

namespace Termwise.Text

/-- A view into a buffer of 16-bit code units. -/
structure Window where
  /-- Identity of the buffer, 0 for a buffer that nothing else refers to. -/
  buffer : Nat
  /-- All units of the buffer. -/
  contents : List UInt16
  /-- First visible unit. -/
  start : Nat
  /-- Number of visible units. -/
  length : Nat
  /-- The window lies inside its buffer. -/
  inside : start + length ≤ contents.length := by omega

namespace Window

/-! ## reading -/

/-- The visible units. -/
def units (w : Window) : List UInt16 := (w.contents.drop w.start).take w.length

/-- The visible unit at an index. -/
def unit? (w : Window) (i : Nat) : Option UInt16 := w.units[i]?

/-- Whether the window hides a part of its buffer. -/
def isSlice (w : Window) : Bool := w.start != 0 || w.length != w.contents.length

/-- Whether two windows view the same stretch of the same buffer. -/
def same (a b : Window) : Bool :=
  a.buffer != 0 && a.buffer == b.buffer && a.start == b.start && a.length == b.length

instance : BEq Window where
  beq a b := a.units == b.units

theorem beq_def (a b : Window) : (a == b) = (a.units == b.units) := rfl

@[simp]
theorem length_units (w : Window) : w.units.length = w.length := by
  have := w.inside
  simp only [units, List.length_take, List.length_drop]
  omega

/-! ## building -/

/-- A string that owns its whole buffer. -/
def ofUnits (units : List UInt16) : Window := ⟨0, units, 0, units.length, by omega⟩

/-- A string of text. -/
def ofString (s : String) : Window := ofUnits (Units.ofString s)

/-- A string of `n` zero units. -/
def zeros (n : Nat) : Window := ofUnits (List.replicate n 0)

@[simp]
theorem units_ofUnits (us : List UInt16) : (ofUnits us).units = us := by
  simp [units, ofUnits]

/-! ## changing -/

/-- A view of at most `len` units from the `start`-th visible one on, clamped to the window. -/
def slice (w : Window) (start len : Nat) : Window :=
  let first := min start w.length
  ⟨w.buffer, w.contents, w.start + first, min len (w.length - first), by
    have := w.inside
    omega⟩

/-- Replace one visible unit; an index outside the window changes nothing. -/
def set (w : Window) (i : Nat) (u : UInt16) : Window :=
  if i < w.length then ofUnits (w.units.set i u) else w

/-- Join two strings; joining with an empty one gives the other back. -/
def append (a b : Window) : Window :=
  if b.length = 0 then a
  else if a.length = 0 then b
  else ofUnits (a.units ++ b.units)

theorem units_slice (w : Window) (start len : Nat) :
    (w.slice start len).units = (w.units.drop start).take len := by
  simp only [units, slice, List.drop_take, List.drop_drop, List.take_take]
  by_cases h : start ≤ w.length
  · rw [Nat.min_eq_left h]
  · have hs : w.length - start = 0 := by omega
    simp [hs, Nat.min_eq_right (Nat.le_of_not_le h)]

theorem units_set (w : Window) (i : Nat) (u : UInt16) :
    (w.set i u).units = w.units.set i u := by
  unfold set
  split
  · simp
  · rw [List.set_eq_of_length_le (by simp; omega)]

theorem units_append (a b : Window) : (a.append b).units = a.units ++ b.units := by
  unfold append
  split
  · rename_i h
    rw [List.length_eq_zero_iff.mp (show b.units.length = 0 by simp [h])]
    simp
  · split
    · rename_i h
      rw [List.length_eq_zero_iff.mp (show a.units.length = 0 by simp [h])]
      simp
    · simp

/-! ## capacity -/

/-- Buffers up to this many units grow by doubling, longer ones by this many at a time. -/
def growthStep : Nat := 4096

/-- The largest size of memory, in units and in items. -/
def sizeLimit : Nat := 2 ^ 64 - 1

/-- The least power of two that is at least `n`. -/
def nextPowerOfTwo (n : Nat) : Nat := if n ≤ 1 then 1 else 2 ^ ((n - 1).log2 + 1)

/-- Units reserved for a string of `n`: a power of two, at least 8, below the growth step, and
a multiple of the step from there on. -/
def capacity (n : Nat) : Nat :=
  if n < growthStep then nextPowerOfTwo (max n 8)
  else min ((n + growthStep - 1) / growthStep * growthStep) sizeLimit

/-- Room for more than this many bytes is refused. -/
def memoryLimit : Nat := 2 ^ 40

/-- A string of `n` zero units, or nothing when there is no room for its buffer. -/
def zeros? (n : Nat) : Option Window :=
  if 2 * capacity n ≤ memoryLimit then some (zeros n) else none

end Window

end Termwise.Text
