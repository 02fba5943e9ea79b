import Termwise.Symbol.Basic
import Termwise.Symbol.Attributes

/-!
# Termwise.Symbol.System

The symbols that the evaluator itself interprets.  Every kernel creates them
first and in this order, so each of them has the same identity everywhere.
-/

namespace Termwise.Symbol

/-! ## the symbols -/

/-- Head of a list. -/
def list : Symbol := ⟨0, "List"⟩

/-- Head whose arguments are spliced into the enclosing call. -/
def sequence : Symbol := ⟨1, "Sequence"⟩

/-- Head that leaves its arguments unevaluated. -/
def hold : Symbol := ⟨2, "Hold"⟩

/-- Head that forces evaluation inside a held argument. -/
def evaluate : Symbol := ⟨3, "Evaluate"⟩

/-- Pattern for one argument. -/
def blank : Symbol := ⟨4, "Blank"⟩

/-- Pattern for one or more arguments. -/
def blankSequence : Symbol := ⟨5, "BlankSequence"⟩

/-- Pattern for any number of arguments. -/
def blankNullSequence : Symbol := ⟨6, "BlankNullSequence"⟩

/-- Pattern with a name. -/
def pattern : Symbol := ⟨7, "Pattern"⟩

/-- Pattern with a condition on its bindings. -/
def condition : Symbol := ⟨8, "Condition"⟩

/-- Pattern with a predicate on what it matches. -/
def patternTest : Symbol := ⟨9, "PatternTest"⟩

/-- Choice of patterns. -/
def alternatives : Symbol := ⟨10, "Alternatives"⟩

/-- Repetition of a pattern. -/
def repeated : Symbol := ⟨11, "Repeated"⟩

/-- Pattern that may be left out. -/
def optional : Symbol := ⟨12, "Optional"⟩

/-- Wrapper that keeps a pattern from being evaluated. -/
def holdPattern : Symbol := ⟨13, "HoldPattern"⟩

/-- Pattern that prefers many arguments. -/
def longest : Symbol := ⟨14, "Longest"⟩

/-- Pattern that prefers few arguments. -/
def shortest : Symbol := ⟨15, "Shortest"⟩

/-- Pattern that matches its argument verbatim. -/
def literal : Symbol := ⟨16, "Literal"⟩

/-- Concatenation of patterns. -/
def patternSequence : Symbol := ⟨17, "PatternSequence"⟩

/-- Pattern with exceptions. -/
def except : Symbol := ⟨18, "Except"⟩

/-- Head of the keys under which default values are kept. -/
def defaultValue : Symbol := ⟨19, "Default"⟩

/-- The true truth value. -/
def isTrue : Symbol := ⟨20, "True"⟩

/-- The false truth value. -/
def isFalse : Symbol := ⟨21, "False"⟩

/-- Type of the integers. -/
def integer : Symbol := ⟨22, "Integer"⟩

/-- Type of the floating-point numbers. -/
def real : Symbol := ⟨23, "Real"⟩

/-- Type of the strings. -/
def string : Symbol := ⟨24, "String"⟩

/-- Type of the symbols. -/
def symbol : Symbol := ⟨25, "Symbol"⟩

/-- Head of an immediate rule. -/
def rule : Symbol := ⟨26, "Rule"⟩

/-- Head of a delayed rule. -/
def ruleDelayed : Symbol := ⟨27, "RuleDelayed"⟩

/-- Head that throws its argument. -/
def raise : Symbol := ⟨28, "Throw"⟩

/-- Head that catches what its argument throws. -/
def capture : Symbol := ⟨29, "Catch"⟩

/-- Head that collects what its argument emits. -/
def gather : Symbol := ⟨30, "Gather"⟩

/-- Head that emits its argument. -/
def emit : Symbol := ⟨31, "Emit"⟩

/-- What an aborted evaluation gives. -/
def aborted : Symbol := ⟨32, "$Aborted"⟩

/-- Symbol of the general messages. -/
def general : Symbol := ⟨33, "General"⟩

/-- Symbol of the messages about threading over lists. -/
def thread : Symbol := ⟨34, "Thread"⟩

/-- Head of a range. -/
def range : Symbol := ⟨35, "Range"⟩

/-- Bound left open. -/
def automatic : Symbol := ⟨36, "Automatic"⟩

/-- Bound that is never reached. -/
def infinity : Symbol := ⟨37, "Infinity"⟩

/-- All symbols of the evaluator, each at the position of its identity. -/
def system : List Symbol :=
  [list, sequence, hold, evaluate, blank, blankSequence, blankNullSequence, pattern, condition,
    patternTest, alternatives, repeated, optional, holdPattern, longest, shortest, literal,
    patternSequence, except, defaultValue, isTrue, isFalse, integer, real, string, symbol, rule,
    ruleDelayed, raise, capture, gather, emit, aborted, general, thread, range, automatic, infinity]

/-- The symbols whose calls are pattern syntax. -/
def patternHeads : List Symbol :=
  [blank, blankSequence, blankNullSequence, pattern, condition, patternTest, alternatives,
    repeated, optional, holdPattern, longest, shortest, literal, patternSequence, except]

/-- Whether calls of a symbol are pattern syntax. -/
def isPatternHead (s : Symbol) : Bool := patternHeads.contains s

/-! ## initial attributes -/

/-- The attributes a symbol of the evaluator starts with; all of them are protected. -/
def initialAttributes (s : Symbol) : Attributes :=
  let held : List Attribute :=
    if s = hold ∨ s = holdPattern ∨ s = condition then [.holdFirst, .holdRest]
    else if s = ruleDelayed ∨ s = patternTest then [.holdRest]
    else if s = pattern ∨ s = capture ∨ s = gather then [.holdFirst]
    else if s = literal then [.holdAllComplete]
    else []
  Attributes.ofList (.isProtected :: held)

/-- The symbol of a truth value. -/
def ofBool (b : Bool) : Symbol := if b then isTrue else isFalse

theorem id_system : system.map (·.id) = List.range 38 := by decide

end Termwise.Symbol
