import Termwise.Term.Equality

/-!
# Termwise.Pattern.Basic

Patterns, read off terms.  Calls of fifteen symbols are pattern syntax when
they have the right arguments:

```text
Blank() Blank(h)                    one argument, of type h
BlankSequence()  BlankSequence(h)   one or more
BlankNullSequence() ...(h)          any number
Pattern(x, p)                       p, bound to x
Condition(p, t)                     p, if t holds under the bindings
PatternTest(p, f)                   p, if f holds of what it matches
Alternatives(p, ...)                one of several
Repeated(p) Repeated(p, range)      p again and again
Optional(p) Optional(p, d)          p, or nothing and the default instead
HoldPattern(p) Longest(p) Shortest(p)
Literal(x)                          x verbatim
PatternSequence(p, ...)             one after the other
Except(no) Except(no, p)            p (or one argument) but not no
```

Any other call is matched part by part, any other atom by equality; so is pattern
syntax with the wrong arguments.
-/

namespace Termwise

/-- A pattern. -/
inductive Pattern where
  | blank (type : Option Term)
  | blankSequence (type : Option Term)
  | blankNullSequence (type : Option Term)
  | named (name : Symbol) (body : Pattern)
  | condition (body : Pattern) (test : Term)
  | tested (body : Pattern) (predicate : Term)
  | alternatives (choices : List Pattern)
  | repeated (body : Pattern) (bounds : Option Term) (least most : Nat)
  | optional (body : Pattern) (default : Option Term)
  | hold (body : Pattern)
  | longest (body : Pattern)
  | shortest (body : Pattern)
  | literal (value : Term)
  | sequence (parts : List Pattern)
  | except (excluded : Pattern)
  | exceptThen (excluded body : Pattern)
  | call (whole : Term) (head : Pattern) (args : List Pattern)
  | atom (value : Term)

namespace Pattern

/-! ## repetition ranges -/

/-- The count that stands for any number. -/
def unbounded : Nat := 2 ^ 64 - 1

/-- One bound of a repetition range. -/
def bound? : Term → Option Nat
  | .int n => if 0 ≤ n.toInt then some n.toInt.toNat else none
  | .symbol s => if s = .infinity ∨ s = .automatic then some unbounded else none
  | _ => none

/-- The least and the greatest count that a range allows: at most `n` for an integer, exactly
`n` for a list of one bound, from one to the other for a list of two. -/
def range? (bounds : Term) : Option (Nat × Nat) := do
  let (least, most) ← match bounds with
    | .int n => if 0 ≤ n.toInt then some (1, n.toInt.toNat) else none
    | .node _ (.symbol s) args =>
      if s = .list ∨ s = .range then
        match args with
        | [n] => (bound? n).map fun n => (n, n)
        | [low, high] => do some (← bound? low, ← bound? high)
        | _ => none
      else none
    | _ => none
  if least ≤ most then some (least, most) else none

/-! ## reading -/

/-- A call of a symbol as a pattern, from the call itself, its arguments and the patterns they
read as; nothing when it is no pattern syntax. -/
def form? (head : Symbol) (args : List Term) (read : List Pattern) : Option Pattern :=
  if head = .blank then
    match args with
    | [] => some (blank none)
    | [h] => some (blank (some h))
    | _ => none
  else if head = .blankSequence then
    match args with
    | [] => some (blankSequence none)
    | [h] => some (blankSequence (some h))
    | _ => none
  else if head = .blankNullSequence then
    match args with
    | [] => some (blankNullSequence none)
    | [h] => some (blankNullSequence (some h))
    | _ => none
  else if head = .pattern then
    match args, read with
    | [.symbol name, _], [_, p] => some (named name p)
    | _, _ => none
  else if head = .condition then
    match args, read with
    | [_, test], [p, _] => some (condition p test)
    | _, _ => none
  else if head = .patternTest then
    match args, read with
    | [_, f], [p, _] => some (tested p f)
    | _, _ => none
  else if head = .alternatives then some (alternatives read)
  else if head = .repeated then
    match args, read with
    | [_], [p] => some (repeated p none 1 unbounded)
    | [_, bounds], [p, _] =>
      (range? bounds).map fun (least, most) => repeated p (some bounds) least most
    | _, _ => none
  else if head = .optional then
    match args, read with
    | [_], [p] => some (optional p none)
    | [_, d], [p, _] => some (optional p (some d))
    | _, _ => none
  else if head = .holdPattern then
    match read with
    | [p] => some (hold p)
    | _ => none
  else if head = .longest then
    match read with
    | [p] => some (longest p)
    | _ => none
  else if head = .shortest then
    match read with
    | [p] => some (shortest p)
    | _ => none
  else if head = .literal then
    match args with
    | [x] => some (literal x)
    | _ => none
  else if head = .patternSequence then some (sequence read)
  else if head = .except then
    match read with
    | [no] => some (except no)
    | [no, p] => some (exceptThen no p)
    | _ => none
  else none

mutual

/-- The pattern that a term reads as. -/
def ofTerm : Term → Pattern
  | .node id head args =>
    let read := ofTerms args
    let whole := call (.node id head args) (ofTerm head) read
    match head with
    | .symbol s => (form? s args read).getD whole
    | _ => whole
  | t => atom t

/-- The patterns that terms read as. -/
def ofTerms : List Term → List Pattern
  | [] => []
  | t :: ts => ofTerm t :: ofTerms ts

end

/-! ## writing -/

mutual

/-- The term that a pattern was read off. -/
def toTerm : Pattern → Term
  | blank type => .app .blank type.toList
  | blankSequence type => .app .blankSequence type.toList
  | blankNullSequence type => .app .blankNullSequence type.toList
  | named name p => .app .pattern [.symbol name, toTerm p]
  | condition p test => .app .condition [toTerm p, test]
  | tested p f => .app .patternTest [toTerm p, f]
  | alternatives ps => .app .alternatives (toTerms ps)
  | repeated p bounds _ _ => .app .repeated (toTerm p :: bounds.toList)
  | optional p d => .app .optional (toTerm p :: d.toList)
  | hold p => .app .holdPattern [toTerm p]
  | longest p => .app .longest [toTerm p]
  | shortest p => .app .shortest [toTerm p]
  | literal x => .app .literal [x]
  | sequence ps => .app .patternSequence (toTerms ps)
  | except no => .app .except [toTerm no]
  | exceptThen no p => .app .except [toTerm no, toTerm p]
  | call whole _ _ => whole
  | atom t => t

/-- The terms that patterns were read off. -/
def toTerms : List Pattern → List Term
  | [] => []
  | p :: ps => toTerm p :: toTerms ps

end

/-- The pattern inside a wrapper that only keeps it from being evaluated. -/
def unheld : Pattern → Pattern
  | hold p => p
  | p => p

end Pattern

end Termwise
