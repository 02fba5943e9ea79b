import Termwise.Pattern.Match
import Termwise.Pattern.Specificity

/-!
# Termwise.Rule.Basic

Rewrite rules.  What depends on the left-hand side alone is worked out when the
rule is made: whether it is a constant, its place in the order of specificity, its
pattern names and its dispatch key.

A right-hand side `Condition(body, test)` is *conditional*: the rule applies only
when the test holds, and then gives the body.
-/

namespace Termwise

/-- When the right-hand side of a rule is evaluated. -/
inductive RuleKind where
  /-- Once, when the rule is made. -/
  | immediate
  /-- On every use. -/
  | delayed
deriving DecidableEq, Repr

/-- A rewrite rule. -/
structure Rule where
  /-- The left-hand side. -/
  lhs : Term
  /-- The right-hand side. -/
  rhs : Term
  /-- When the right-hand side is evaluated. -/
  kind : RuleKind
  /-- The left-hand side is a constant, matched by equality. -/
  literal : Bool
  /-- The right-hand side carries a test. -/
  conditional : Bool
  /-- Place in the order of specificity. -/
  key : SpecificityKey
  /-- Pattern names of the left-hand side. -/
  names : NameCounts
  /-- What a subject has to start with. -/
  dispatch : Option Term

namespace Rule

/-! ## making rules -/

/-- Whether a right-hand side carries a test. -/
def isConditional : Term → Bool
  | .node _ (.symbol s) [_, _] => s == .condition
  | _ => false

/-- A rule, made while symbols have the given attributes. -/
def make (attrs : Symbol → Attributes) (lhs rhs : Term) (kind : RuleKind) : Rule where
  lhs := lhs
  rhs := rhs
  kind := kind
  literal := !isConditional rhs && lhs.isLiteral attrs
  conditional := isConditional rhs
  key := lhs.specificityKey attrs
  names := lhs.patternNames
  dispatch := (Pattern.ofTerm lhs).dispatchKey attrs

/-- The rule that a term stands for. -/
def ofTerm? (attrs : Symbol → Attributes) : Term → Option Rule
  | .node _ (.symbol s) [lhs, rhs] =>
    if s = .rule then some (make attrs lhs rhs .immediate)
    else if s = .ruleDelayed then some (make attrs lhs rhs .delayed)
    else none
  | _ => none

/-- Whether two rules have one left-hand side, up to a renaming of pattern names. -/
def sameLhs (r s : Rule) : Bool := r.key == s.key && Term.alphaEqual r.names s.names r.lhs s.lhs

/-! ## applying rules -/

variable {m : Type → Type} [Monad m]

/-- The right-hand side of a rule under the bindings of a match, if its test holds.  A run that is
left over at the top becomes a sequence. -/
def instantiate (env : Surroundings m) (rhs : Term) (b : Bindings) : m (Option Term) := do
  let finish (body : Term) : Term :=
    let value := body.substitute b
    if value.isMarker then .app .sequence value.args else value
  match rhs with
  | .node _ (.symbol s) [body, test] =>
    if s = .condition then
      if ← Pattern.holds env b test then return some (finish body) else return none
    else return some (finish rhs)
  | _ => return some (finish rhs)

/-- A result in the place of all arguments of a call from position `start` up to the last `rest`
ones. -/
def spliceRange (head : Term) (args : List Term) (start rest : Nat) (result : Term) : Term :=
  if start = 0 ∧ rest = 0 then result
  else .call head (args.take start ++ result :: args.drop (args.length - rest))

/-- A result in the place of the first argument of a call that is not free, the free ones kept. -/
def spliceFree (head : Term) (args : List Term) (free : List Nat) (result : Term) : Term :=
  if free.isEmpty then result
  else
    let before := args.zipIdx.takeWhile fun a => free.contains a.2
    let after := (args.zipIdx.drop before.length).filter fun a => free.contains a.2
    .call head (before.map (·.1)
      ++ (if before.length < args.length then [result] else []) ++ after.map (·.1))

/-- Rewrite a part of a call of a flat head: a stretch of its arguments, or, for an orderless head,
any of them. -/
def applyInside (env : Surroundings m) (head : Pattern) (slots : List Pattern) (rhs : Term)
    (orderless : Bool) (subjectHead : Term) (args : List Term) : m (Option Term) :=
  if orderless then
    head.search env Term subjectHead .empty fun b =>
      Pattern.searchAnywhere env slots Term (some subjectHead) subjectHead slots.length 1
        args.zipIdx b fun b free => do
          return (← instantiate env rhs b).map (spliceFree subjectHead args (free.map (·.2)))
  else
    (List.range args.length).findSomeM? fun start =>
      head.search env Term subjectHead .empty fun b =>
        Pattern.searchSlots env slots Term (some subjectHead) subjectHead slots.length 1
          (args.drop start) b fun b rest => do
            return (← instantiate env rhs b).map (spliceRange subjectHead args start rest.length)

/-- Rewrite a subject with a left-hand and a right-hand side: as a whole, or else, below a flat
head, in part. -/
def rewrite (env : Surroundings m) (lhs rhs subject : Term) : m (Option Term) := do
  let p := Pattern.ofTerm lhs
  match ← p.search env Term subject .empty (instantiate env rhs) with
  | some result => return some result
  | none =>
    match p.unheld, subject with
    | .call whole head slots, .node _ (.symbol f) args =>
      let attrs := (← env.attributes) f
      if attrs.has .flat && whole.key == .symbol f && !args.isEmpty then
        applyInside env head slots rhs (attrs.has .orderless) subject.key args
      else return none
    | _, _ => return none

end Rule

end Termwise
