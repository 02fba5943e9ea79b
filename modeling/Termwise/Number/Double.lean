import Termwise.Number.Power

/-!
# Termwise.Number.Double

Binary floating-point numbers as their 64 bits.  A finite number is
`± mantissa * 2 ^ exponent`, with the exponent of its last place:

```text
exponent field 0          fraction             * 2 ^ -1074      subnormal or zero
exponent field 1..2046    (2^52 + fraction)    * 2 ^ (field - 1075)
exponent field 2047       infinity (fraction 0) or not a number
```

Arithmetic is exact arithmetic on naturals followed by one rounding to nearest,
ties to even (`round`).  An operand that is not a number is the result, made
quiet; an invalid operation gives the negative quiet one without payload.
-/

namespace Termwise

/-- A 64-bit binary floating-point number. -/
structure Double where
  /-- The bits of the number. -/
  bits : UInt64
deriving DecidableEq, Repr, Inhabited

namespace Double

/-! ## parts -/

/-- Whether the sign bit is set. -/
def negative (x : Double) : Bool := x.bits.toNat.testBit 63

/-- The bits without the sign bit. -/
def magnitude (x : Double) : Nat := x.bits.toNat % 2 ^ 63

/-- The eleven exponent bits. -/
def field (x : Double) : Nat := x.magnitude / 2 ^ 52

/-- The 52 fraction bits. -/
def fraction (x : Double) : Nat := x.magnitude % 2 ^ 52

/-- Whether the bits stand for no number. -/
def isNaN (x : Double) : Bool := x.field == 2047 && x.fraction != 0

/-- Whether the number is one of the two infinities. -/
def isInfinite (x : Double) : Bool := x.field == 2047 && x.fraction == 0

/-- Whether the number is one of the two zeros. -/
def isZero (x : Double) : Bool := x.magnitude == 0

/-- The integer that counts the last places of a finite number. -/
def mantissa (x : Double) : Nat := if x.field = 0 then x.fraction else 2 ^ 52 + x.fraction

/-- The binary exponent of the last place of a finite number. -/
def exponent (x : Double) : Int := if x.field = 0 then -1074 else (x.field : Int) - 1075

/-- The signed mantissa. -/
def signed (x : Double) : Int := if x.negative then -(x.mantissa : Int) else x.mantissa

/-! ## building -/

/-- A number from its sign and the other 63 bits. -/
def ofMagnitude (negative : Bool) (magnitude : Nat) : Double :=
  ⟨((if negative then 2 ^ 63 else 0) + magnitude).toUInt64⟩

/-- The magnitude bits of infinity. -/
def infinityBits : Nat := 2047 * 2 ^ 52

/-- The infinity of a sign. -/
def infinity (negative : Bool) : Double := ofMagnitude negative infinityBits

/-- The result of an invalid operation. -/
def invalid : Double := ofMagnitude true (infinityBits + 2 ^ 51)

/-- The quiet form of a value that is not a number. -/
def quiet (x : Double) : Double :=
  if x.fraction < 2 ^ 51 then ⟨x.bits + (2 ^ 51 : Nat).toUInt64⟩ else x

/-! ## rounding -/

/-- The quotient by a power of two, rounded to nearest, ties to even. -/
def shiftRound (m s : Nat) : Nat :=
  let q := m / 2 ^ s
  let r := m % 2 ^ s
  if 2 * r < 2 ^ s then q
  else if 2 ^ s < 2 * r then q + 1
  else q + q % 2

/-- The number nearest to `± m * 2 ^ e`, the one with an even mantissa of two equally near. -/
def round (negative : Bool) (m : Nat) (e : Int) : Double :=
  if m = 0 then ofMagnitude negative 0
  else
    let place := max (-1074) (e + m.log2 - 52)
    let n := if place ≤ e then m * 2 ^ (e - place).toNat else shiftRound m (place - e).toNat
    ofMagnitude negative (min infinityBits ((place + 1074).toNat * 2 ^ 52 + n))

/-- The number nearest to an integer. -/
def ofInt (n : Int) : Double := round (n < 0) n.natAbs 0

/-! ## arithmetic -/

/-- The sum of two numbers, rounded once. -/
def add (x y : Double) : Double :=
  if x.isNaN then x.quiet
  else if y.isNaN then y.quiet
  else if x.isInfinite then
    if y.isInfinite && x.negative != y.negative then invalid else x
  else if y.isInfinite then y
  else
    let e := min x.exponent y.exponent
    let sum := x.signed * 2 ^ (x.exponent - e).toNat + y.signed * 2 ^ (y.exponent - e).toNat
    if sum = 0 then ofMagnitude (x.negative && y.negative) 0
    else round (sum < 0) sum.natAbs e

/-- The product of two numbers, rounded once. -/
def mul (x y : Double) : Double :=
  if x.isNaN then x.quiet
  else if y.isNaN then y.quiet
  else if x.isInfinite || y.isInfinite then
    if x.isZero || y.isZero then invalid else infinity (x.negative != y.negative)
  else round (x.negative != y.negative) (x.mantissa * y.mantissa) (x.exponent + y.exponent)

/-- Half of a number. -/
def half (x : Double) : Double := x.mul (round false 1 (-1))

/-! ## order -/

/-- Position of a number in the total order of all bit patterns: negative ones by falling
magnitude, then the others by rising magnitude. -/
def rank (x : Double) : Int := if x.negative then -1 - (x.magnitude : Int) else x.magnitude

/-- Total order of all bit patterns: negative not-a-numbers, negative infinity, the finite
numbers with -0 before 0, infinity, not-a-numbers. -/
def compare (x y : Double) : Ordering := Ord.compare x.rank y.rank

end Double

end Termwise
