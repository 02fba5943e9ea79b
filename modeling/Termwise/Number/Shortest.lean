import Termwise.Number.Double

/-!
# Termwise.Number.Shortest

The text of a floating-point number: the fewest decimal digits that read back
to it, and of several decimals with that many digits the nearest one.

1. A decimal reads back to a number exactly when it lies in its *rounding
   interval*, halfway to each neighbour; the ends belong to it when the mantissa
   is even.
2. For one digit, two digits, and so on, the two neighbours of the number on
   that decimal grid are tested; the first grid with a hit wins, of two hits
   the nearer one, of two equally near ones the greater.
3. Numbers from 10^-4 up to 10^16 are written positionally, with at least one
   digit after the point; all others with one digit before the point, `e` and
   the exponent.
-/

namespace Termwise

/-! ## decimals -/

/-- The decimal `digits * 10 ^ exponent`. -/
structure Decimal where
  /-- All significant digits as one natural. -/
  digits : Nat
  /-- The decimal exponent of the last digit. -/
  exponent : Int
deriving DecidableEq, Repr

/-- Compare `c * 10 ^ p` with `m * 2 ^ q`, exactly. -/
def Decimal.compareBinary (d : Decimal) (m : Nat) (q : Int) : Ordering :=
  Ord.compare (d.digits * 10 ^ d.exponent.toNat * 2 ^ (-q).toNat)
    (m * 2 ^ q.toNat * 10 ^ (-d.exponent).toNat)

/-- Move trailing zeros of the digits into the exponent, at most `fuel` of them. -/
def Decimal.strip : Nat → Decimal → Decimal
  | 0, d => d
  | fuel + 1, d =>
    if d.digits ≠ 0 ∧ d.digits % 10 = 0 then strip fuel ⟨d.digits / 10, d.exponent + 1⟩ else d

namespace Double

/-! ## digits -/

/-- Whether the gap to the number below is half the gap to the number above. -/
def narrowBelow (x : Double) : Bool := x.fraction == 0 && 1 < x.field

/-- Whether a decimal reads back to the magnitude of a finite number. -/
def readsBack (x : Double) (d : Decimal) : Bool :=
  let low := if x.narrowBelow then 4 * x.mantissa - 1 else 4 * x.mantissa - 2
  let high := 4 * x.mantissa + 2
  let closed := x.mantissa % 2 == 0
  let atLow := d.compareBinary low (x.exponent - 2)
  let atHigh := d.compareBinary high (x.exponent - 2)
  (atLow == .gt || (closed && atLow == .eq)) && (atHigh == .lt || (closed && atHigh == .eq))

/-- The least `k` with the magnitude below `10 ^ k`, searched upward from an estimate. -/
def scale (x : Double) : Int :=
  let estimate := ((x.mantissa.log2 : Int) + x.exponent) * 1233 / 4096 - 1
  let offset := (List.range 5).find? fun (i : Nat) =>
    (Decimal.mk 1 (estimate + i)).compareBinary x.mantissa x.exponent == .gt
  estimate + (offset.getD 4 : Nat)

/-- The decimal with `n` digits that reads back, if one of the two neighbours does. -/
def candidate? (x : Double) (n : Nat) : Option Decimal :=
  let p := x.scale - n
  let num := x.mantissa * 2 ^ x.exponent.toNat * 10 ^ (-p).toNat
  let den := 2 ^ (-x.exponent).toNat * 10 ^ p.toNat
  let below : Decimal := ⟨num / den, p⟩
  let above : Decimal := ⟨num / den + 1, p⟩
  if x.readsBack below then
    if x.readsBack above && (2 * (num / den) + 1) * den ≤ 2 * num then some above else some below
  else if x.readsBack above then some above
  else none

/-- The fewest digits that read back to the magnitude of a finite number other than zero. -/
def shortest (x : Double) : Decimal :=
  match (List.range 17).findSome? fun n => x.candidate? (n + 1) with
  | some d => d.strip 18
  | none => ⟨x.mantissa * 5 ^ (-x.exponent).toNat * 2 ^ x.exponent.toNat, min x.exponent 0⟩

/-! ## layout -/

/-- Numbers whose leading digit stands at an exponent in this range are written positionally. -/
def positional (e : Int) : Bool := -4 ≤ e && e < 16

/-- Digits with a point after the first `k` of them, zeros filling up on either side. -/
def plain (digits : List Char) (k : Int) : List Char :=
  if k ≤ 0 then ['0', '.'] ++ List.replicate (-k).toNat '0' ++ digits
  else if k.toNat < digits.length then digits.take k.toNat ++ '.' :: digits.drop k.toNat
  else digits ++ List.replicate (k.toNat - digits.length) '0' ++ ['.', '0']

/-- Digits with a point after the first one, and an exponent. -/
def scientific (digits : List Char) (e : Int) : List Char :=
  (match digits with
    | d :: rest => if rest.isEmpty then [d] else d :: '.' :: rest
    | [] => []) ++ 'e' :: (toString e).toList

/-- The text of the magnitude of a finite number. -/
def magnitudeText (x : Double) : List Char :=
  if x.isZero then ['0', '.', '0']
  else
    let d := x.shortest
    let digits := Nat.toDigits 10 d.digits
    let point := d.exponent + digits.length
    if positional (point - 1) then plain digits point else scientific digits (point - 1)

/-- The text of a number. -/
def toText (x : Double) : String :=
  if x.isNaN then "NaN"
  else
    let sign := if x.negative then ['-'] else []
    String.ofList (sign ++ if x.isInfinite then ['i', 'n', 'f'] else x.magnitudeText)

instance : ToString Double := ⟨toText⟩

end Double

end Termwise
