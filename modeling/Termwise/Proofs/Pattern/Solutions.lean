import Termwise.Proofs.Pattern.Every
import Termwise.Proofs.Term.Strip

/-!
# Termwise.Proofs.Pattern.Solutions

All solutions of a match, as a list.  A pattern is read as a function from a term
and the bindings so far to the list of all extensions of these bindings that it
allows, in order of preference:

```text
p, then more               for each solution of p, the solutions of the rest
a slot                     for each count in `Size.counts`, in that order
a slot of an orderless     for each count, for each choice of so many free
  call                     arguments, in lexicographic order of positions
alternatives               the solutions of the first one, of the second one, ...
a bound name               no solutions unless the term equals what is bound
Except(no, p)              no solutions if `no` has one, else those of `p`
```

Nothing is searched for and nothing can be left behind: a branch is a value.  Two
shortcuts of the search may be read into the lists or left out (`World.shortcuts`).
-/

namespace Termwise

/-- What a search takes from outside, when tests depend on the term alone. -/
structure World where
  /-- The attributes of symbols. -/
  attributes : Symbol → Attributes
  /-- Whether a test evaluates to the true truth value. -/
  holds : Term → Bool
  /-- A call of constants is compared as a whole, and a call of a head that is not flat is
  refused at once when it has too few or too many arguments. -/
  shortcuts : Bool

/-! ## choices -/

/-- All ways to take `n` items out of a list, each with the items left, in lexicographic order of
the positions taken. -/
def choices {α : Type} : Nat → List α → List (List α × List α)
  | 0, xs => [([], xs)]
  | _ + 1, [] => []
  | n + 1, x :: xs =>
    (choices n xs).map (fun c => (x :: c.1, c.2))
      ++ (choices (n + 1) xs).map fun c => (c.1, x :: c.2)

namespace Pattern

/-! ## repetitions -/

/-- All ways to read items as consecutive repetitions of a pattern, given by its solutions and its
size, when `count` repetitions have been read before. -/
def repetitions (size : Bindings → Size) (one : Term → Bindings → List Bindings)
    (least most : Nat) : List Term → Nat → Bindings → List Bindings
  | [], count, b => if least ≤ count then [b] else []
  | item :: rest, count, b =>
    if most ≤ count then []
    else
      (((size b).counts (item :: rest).length).filter (· != 0)).flatMap fun n =>
        (one ((size b).value none ((item :: rest).take n)) b).flatMap fun b =>
          repetitions size one least most (rest.drop (n - 1)) (count + 1) b
termination_by items => items.length
decreasing_by simp only [List.length_drop, List.length_cons]; omega

/-! ## solutions -/

/-- The bindings of those fillings that leave nothing over. -/
def complete {α : Type} (fillings : List (Bindings × List α)) : List Bindings :=
  (fillings.filter (·.2.isEmpty)).map (·.1)

mutual

/-- All bindings under which a pattern matches a term, the preferred ones first. -/
def solutions (w : World) : Pattern → Term → Bindings → List Bindings
  | atom a, t, b | literal a, t, b => if t.single?.any (· == a) then [b] else []
  | blank type, t, b => if t.single?.any (Term.hasType type) then [b] else []
  | blankSequence type, t, b =>
    if !t.run.isEmpty && t.run.all (Term.hasType type) then [b] else []
  | blankNullSequence type, t, b => if t.run.all (Term.hasType type) then [b] else []
  | named name p, t, b =>
    match b.get? name with
    | some value => if value == t then p.solutions w t b else []
    | none => p.solutions w t (b.push name t)
  | condition p test, t, b => (p.solutions w t b).filter fun b => w.holds (test.substitute b)
  | tested p f, t, b => (p.solutions w t b).filter fun _ => w.holds (.call f t.run)
  | alternatives choices, t, b => solutionsOfAny w choices t b
  | repeated p _ least most, t, b =>
    repetitions (fun b => p.size none b) (p.solutions w) least most t.run 0 b
  | optional p default, t, b =>
    if t.isMarker && t.args.isEmpty then
      match default with
      | some d => p.solutions w d b
      | none => []
    else p.solutions w t b
  | hold p, t, b | longest p, t, b | shortest p, t, b => p.solutions w t b
  | sequence parts, t, b => complete (fillings w parts none t.run b)
  | except no, t, b =>
    if (no.solutions w t b).isEmpty && t.single?.isSome then [b] else []
  | exceptThen no p, t, b => if (no.solutions w t b).isEmpty then p.solutions w t b else []
  | call whole head args, t, b =>
    match t.single? with
    | none => []
    | some subject =>
      if w.shortcuts && whole.isLiteral w.attributes then
        if whole == subject then [b] else []
      else
        match subject with
        | .node _ f xs =>
          (head.solutions w f b).flatMap fun b =>
            let attrs := subject.headAttributes w.attributes
            let flat := if attrs.has .flat then some f else none
            let (least, most) := totalRange args b
            if w.shortcuts && !attrs.has .flat && (xs.length < least || most < xs.length) then []
            else if attrs.has .orderless then complete (fillingsAnywhere w args flat xs.zipIdx b)
            else complete (fillings w args flat xs b)
        | _ => []

/-- The solutions of several patterns, one after the other. -/
def solutionsOfAny (w : World) : List Pattern → Term → Bindings → List Bindings
  | [], _, _ => []
  | p :: ps, t, b => p.solutions w t b ++ solutionsOfAny w ps t b

/-- All ways to fill slots from left to right, each with the arguments left over. -/
def fillings (w : World) :
    List Pattern → Option Term → List Term → Bindings → List (Bindings × List Term)
  | [], _, args, b => [(b, args)]
  | p :: ps, flat, args, b =>
    ((p.size flat b).counts args.length).flatMap fun n =>
      (p.solutions w ((p.size flat b).value flat (args.take n)) b).flatMap fun b =>
        fillings w ps flat (args.drop n) b

/-- All ways to fill slots from any free arguments, given with their positions; each with the
arguments still free. -/
def fillingsAnywhere (w : World) :
    List Pattern → Option Term → List (Term × Nat) → Bindings →
      List (Bindings × List (Term × Nat))
  | [], _, free, b => [(b, free)]
  | p :: ps, flat, free, b =>
    ((p.size flat b).counts free.length).flatMap fun n =>
      (choices n free).flatMap fun c =>
        (p.solutions w ((p.size flat b).value flat (c.1.map (·.1))) b).flatMap fun b =>
          fillingsAnywhere w ps flat c.2 b

end

end Pattern

end Termwise
