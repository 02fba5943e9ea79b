import Termwise.Kernel.Definitions
import Termwise.Term.Order

/-!
# Termwise.Host.Arithmetic

Arithmetic for a kernel: sums (`Plus`), products (`Times`) and comparisons (`Less`,
`Greater`) of numbers.

The numbers among the arguments of a sum or product are folded into one, the other
arguments are kept.  The fold is exact as long as all numbers are integers and no
intermediate result leaves 64 bits; otherwise it is done on floating-point numbers.
-/

namespace Termwise.Host

/-! ## folding -/

/-- An operation to fold numbers by. -/
structure Fold where
  /-- Its neutral element. -/
  unit : Int64
  /-- Its exact value on integers. -/
  exact : Int → Int → Int
  /-- Its value on floating-point numbers. -/
  rounded : Double → Double → Double

namespace Fold

/-- Addition. -/
def sum : Fold := ⟨0, (· + ·), Double.add⟩

/-- Multiplication. -/
def product : Fold := ⟨1, (· * ·), Double.mul⟩

/-- The operation on two integers, when the result has 64 bits. -/
def checked (f : Fold) (a b : Int64) : Option Int64 :=
  let exact := f.exact a.toInt b.toInt
  if -2 ^ 63 ≤ exact ∧ exact < 2 ^ 63 then some (.ofInt exact) else none

/-- The integer that numbers fold to, when all are integers and no result on the way leaves
64 bits. -/
def integer? (f : Fold) (numbers : List Term) : Option Int64 :=
  numbers.foldlM (fun acc n =>
    match n with
    | .int n => f.checked acc n
    | _ => none) f.unit

/-- The floating-point number that numbers fold to. -/
def float (f : Fold) (numbers : List Term) : Double :=
  numbers.foldl (fun acc n =>
    match n with
    | .int n => f.rounded acc (Term.nearest n)
    | .float x => f.rounded acc x
    | _ => acc) (Term.nearest f.unit)

/-- The number that numbers fold to. -/
def number (f : Fold) (numbers : List Term) : Term :=
  match f.integer? numbers with
  | some n => .int n
  | none => .float (f.float numbers)

/-- A call with the numbers among its arguments folded.  A single argument is its own fold; where
there is nothing to fold the call stays as it is. -/
def call (f : Fold) (t : Term) : Option Term :=
  match t.args with
  | [single] => some single
  | args =>
    let (numbers, rest) := args.partition Term.isNumber
    if numbers.length < 2 && !numbers.any (· == .int f.unit) then none
    else
      let number := f.number numbers
      let items := if number != .int f.unit || rest.isEmpty then number :: rest else rest
      match items with
      | [single] => some single
      | items => some (.call t.key items)

end Fold

/-! ## comparing -/

/-- Whether two numbers stand in a given order. -/
def compareNumbers (order : Ordering) (call : Term) : Option Term :=
  match call.args with
  | [a, b] => if a.isNumber && b.isNumber then some (.ofBool (a.compare b == order)) else none
  | _ => none

/-! ## installation -/

/-- The attributes of sums and products. -/
def numericAttributes : Attributes := .ofList [.flat, .orderless, .listable, .numericFunction]

/-- Give a kernel arithmetic. -/
def installArithmetic : EvalM Unit := do
  let plus ← intern "Plus"
  let times ← intern "Times"
  change fun k => k.setAttributes plus numericAttributes
  change fun k => k.setAttributes times numericAttributes
  modify fun k => k.register plus .down (.function Fold.sum.call)
  modify fun k => k.register times .down (.function Fold.product.call)
  let less ← intern "Less"
  let greater ← intern "Greater"
  modify fun k => k.register less .down (.function (compareNumbers .lt))
  modify fun k => k.register greater .down (.function (compareNumbers .gt))

end Termwise.Host
