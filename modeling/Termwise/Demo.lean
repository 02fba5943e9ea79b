import Termwise.Eval.Evaluate
import Termwise.Pattern.Build

/-!
# Termwise.Demo

Small programs that show what the evaluator does.  A demo works in a kernel with
arithmetic and gives lines: what was evaluated, and what came out.
-/

namespace Termwise

/-- A demo. -/
structure Demo where
  /-- Its name on the command line. -/
  name : String
  /-- What it shows. -/
  about : String
  /-- Run it in a context. -/
  run : ContextId → EvalM (List (String × Term))

namespace Demo

/-! ## building blocks -/

/-- The line of a term: its text and what it evaluates to. -/
def line (c : ContextId) (t : Term) : EvalM (String × Term) := return (t.toText, ← evaluate c t)

/-- An integer. -/
def int (n : Int) : Term := .int (.ofInt n)

/-- A named blank. -/
def slot (name : Symbol) (type : Option Symbol) : Term := .named name (.blank type)

/-! ## the demos -/

/-- Factorials by a constant rule and a conditional one. -/
def factorial (c : ContextId) : EvalM (List (String × Term)) := do
  let fact ← intern "fact"
  let n ← intern "n"
  let times ← intern "Times"
  let plus ← intern "Plus"
  let greater ← intern "Greater"
  Evaluator.full.assign c (.app fact [int 0]) (int 1)
  assignDelayed c
    (.app fact [.guarded (slot n (some .integer)) (.app greater [.symbol n, int 0])])
    (.app times [.symbol n, .app fact [.app plus [.symbol n, int (-1)]]])
  let arguments := [int 5, int 10, int 20, .ofString "a"]
  arguments.mapM fun t => line c (.app fact [t])

/-- Matching and rewriting below a flat head. -/
def flat (c : ContextId) : EvalM (List (String × Term)) := do
  let cat ← intern "cat"
  let x ← intern "x"
  let y ← intern "y"
  let a ← intern "a"
  let b ← intern "b"
  let d ← intern "c"
  change fun k => k.setAttributes cat (.ofList [.flat])
  let subject : Term := .app cat [.symbol a, .symbol b, .symbol d]
  let pattern : Term := .app cat [slot x none, .named y (.blankNullSequence none)]
  let found ← Evaluator.full.match? c subject pattern
  let bound := (found.getD .empty).entries.map fun (name, value) =>
    (subject.toText ++ " /. " ++ pattern.toText ++ " binds " ++ name.name, value)
  assignDelayed c (.app cat [.symbol a, .symbol b]) (.ofString "ab")
  return bound ++ [← line c (.app cat [.symbol d, .symbol a, .symbol b, .symbol d])]

/-- Matching below an orderless head. -/
def orderless (c : ContextId) : EvalM (List (String × Term)) := do
  let pair ← intern "pair"
  let x ← intern "x"
  change fun k => k.setAttributes pair (.ofList [.orderless])
  assignDelayed c (.app pair [slot x (some .integer), .blank (some .string)]) (.symbol x)
  let s := Term.ofString "s"
  let z := Term.ofString "z"
  let decimal := Term.float (Double.round false 3 (-1))
  [[s, int 7], [int 7, s], [z, decimal]].mapM fun args => line c (.app pair args)

/-- Collecting what is emitted under one of two tags. -/
def gather (c : ContextId) : EvalM (List (String × Term)) := do
  let emits := [(1, "odd"), (2, "even"), (3, "odd"), (4, "even")].map fun (i, tag) =>
    Term.app .emit [int i, .ofString tag]
  return [← line c (.app .gather [.list emits, .ofString "even"])]

/-- Evaluation in child contexts. -/
def parallel (c : ContextId) : EvalM (List (String × Term)) := do
  let fact ← intern "fact"
  if ((← get).rules? fact .down).isNone then
    let _ ← factorial c
  let items := (List.range' 1 8).map fun i : Nat => Term.app fact [int i]
  let results ← Evaluator.full.evaluateAll c items
  let last ← Evaluator.full.evaluateChild c (.app fact [int 12])
  return (items.map Term.toText).zip results ++ [("fact(12) on the pool", last)]

/-- All demos, in the order they run in. -/
def all : List Demo :=
  [⟨"factorial", "recursive down rules with a conditioned base case", factorial⟩,
    ⟨"flat", "associative matching of a Flat head", flat⟩,
    ⟨"orderless", "commutative matching and canonical order", orderless⟩,
    ⟨"gather", "Gather/Emit collecting tagged values", gather⟩,
    ⟨"parallel", "parallel evaluation on worker contexts", parallel⟩]

/-- The demo of a name. -/
def named? (name : String) : Option Demo := all.find? (·.name == name)

end Demo

end Termwise
