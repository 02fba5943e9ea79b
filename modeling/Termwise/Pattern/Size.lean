import Termwise.Pattern.Basic
import Termwise.Pattern.Bindings

/-!
# Termwise.Pattern.Size

How many arguments a pattern may take when it fills one slot of a call, and in
which order the counts are tried:

```text
pattern             range        order
_  atoms  calls     1            -
__                  1 or more    most first
___                 any number   most first
Optional(p)         0 or as p    1, 2, ... first, then 0
Repeated(p, a..b)   p * (a..b)   most first
Longest Shortest    as p         most first, fewest first
bound name          the length of what it is bound to
```

Inside a call of a flat head every blank may take a run of arguments, wrapped in
that head, and a plain blank tries the shortest run first.  Counts never exceed
`Pattern.unbounded`.
-/

namespace Termwise

/-- The numbers of arguments that a slot may take, and their order. -/
structure Size where
  /-- The least number. -/
  least : Nat
  /-- The greatest number. -/
  most : Nat
  /-- Great numbers are tried first. -/
  longest : Bool
  /-- With 0 as the least number, 0 is tried last. -/
  preferNonempty : Bool
  /-- Runs are wrapped in the enclosing flat head. -/
  regroups : Bool
deriving DecidableEq, Repr

namespace Size

/-! ## sizes -/

/-- Sizes from one number to another, great numbers first. -/
def between (least most : Nat) : Size := ⟨least, most, true, false, false⟩

/-- Exactly one argument. -/
def one : Size := between 1 1

/-- Whether a slot takes exactly one argument, as it is. -/
def isOne (s : Size) : Bool := s.least == 1 && s.most == 1 && !s.regroups

/-- A sum of counts, cut off at `unbounded`. -/
def addCount (m n : Nat) : Nat := min (m + n) Pattern.unbounded

/-- A product of counts, cut off at `unbounded`. -/
def mulCount (m n : Nat) : Nat := min (m * n) Pattern.unbounded

/-- The size of a blank inside a call of a flat head, if there is one around it. -/
def inFlat (s : Size) (flat : Option Term) (shortest : Bool) : Size :=
  match flat with
  | none => s
  | some _ =>
    { s with most := Pattern.unbounded, regroups := true, longest := s.longest && !shortest }

/-- The size of a choice between two patterns, in the order of the first one. -/
def join (s t : Size) : Size :=
  { s with
    least := min s.least t.least
    most := max s.most t.most
    regroups := s.regroups && t.regroups }

/-- The size of one pattern after another. -/
def andThen (s t : Size) : Size :=
  { s with least := addCount s.least t.least, most := addCount s.most t.most }

/-- The counts to try when so many arguments are left, in order. -/
def counts (s : Size) (available : Nat) : List Nat :=
  let most := min s.most available
  if most < s.least then []
  else
    let ascending := List.range' s.least (most + 1 - s.least)
    if s.longest then ascending.reverse
    else if s.preferNonempty && s.least == 0 then List.range' 1 most ++ [0]
    else ascending

end Size

/-- The number of arguments that a bound term stands for. -/
def Term.boundLength (flat : Option Term) (value : Term) : Nat :=
  if value.isMarker then value.args.length
  else
    match value, flat with
    | .node _ head args, some f => if head == f then args.length else 1
    | _, _ => 1

namespace Pattern

/-! ## analysis -/

mutual

/-- The size of a pattern in a slot; `flat` is the enclosing head when it is flat. -/
def size (flat : Option Term) (b : Bindings) : Pattern → Size
  | blank _ => Size.one.inFlat flat true
  | blankSequence _ => (Size.between 1 unbounded).inFlat flat false
  | blankNullSequence _ => (Size.between 0 unbounded).inFlat flat false
  | named name p =>
    let s := p.size flat b
    match b.get? name with
    | some value => { s with least := value.boundLength flat, most := value.boundLength flat }
    | none => s
  | condition p _ | tested p _ | hold p | exceptThen _ p => p.size flat b
  | longest p => { p.size flat b with longest := true, preferNonempty := false }
  | shortest p => { p.size flat b with longest := false, preferNonempty := false }
  | optional p _ => { p.size flat b with least := 0, preferNonempty := true }
  | repeated p _ least most =>
    let s := p.size none b
    .between (Size.mulCount s.least least) (Size.mulCount s.most most)
  | alternatives choices =>
    match sizes flat b choices with
    | [] => .one
    | s :: rest => rest.foldl Size.join s
  | sequence parts => (sizes none b parts).foldl Size.andThen (.between 0 0)
  | except _ | literal _ | call .. | atom _ => .one

/-- The sizes of patterns in slots of one call. -/
def sizes (flat : Option Term) (b : Bindings) : List Pattern → List Size
  | [] => []
  | p :: ps => p.size flat b :: sizes flat b ps

end

/-- The least and the greatest number of arguments that slots take together. -/
def totalRange (ps : List Pattern) (b : Bindings) : Nat × Nat :=
  let total := (sizes none b ps).foldl Size.andThen (.between 0 0)
  (total.least, total.most)

end Pattern

end Termwise
