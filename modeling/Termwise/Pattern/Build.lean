import Termwise.Term.Basic

/-!
# Termwise.Pattern.Build

Constructors for pattern syntax and for the terms that go with it.
-/

namespace Termwise.Term

/-! ## patterns -/

/-- One argument, of a type if one is given. -/
def blank (type : Option Symbol) : Term := app .blank (type.map .symbol).toList

/-- One or more arguments. -/
def blankSequence (type : Option Symbol) : Term := app .blankSequence (type.map .symbol).toList

/-- Any number of arguments. -/
def blankNullSequence (type : Option Symbol) : Term :=
  app .blankNullSequence (type.map .symbol).toList

/-- A pattern with a name. -/
def named (name : Symbol) (p : Term) : Term := app .pattern [.symbol name, p]

/-- A pattern with a condition. -/
def guarded (p test : Term) : Term := app .condition [p, test]

/-- A pattern with a predicate. -/
def tested (p f : Term) : Term := app .patternTest [p, f]

/-- A choice of patterns. -/
def alternatives (choices : List Term) : Term := app .alternatives choices

/-- A pattern that may be left out, with its default if one is given. -/
def optional (p : Term) (default : Option Term) : Term := app .optional (p :: default.toList)

/-- A pattern again and again. -/
def repeated (p : Term) : Term := app .repeated [p]

/-- A pattern a number of times within a range, open at the top without a greatest number. -/
def repeatedRange (p : Term) (least : Int64) (most : Option Int64) : Term :=
  let top := match most with
    | some n => .int n
    | none => .symbol .infinity
  app .repeated [p, list [.int least, top]]

/-- Patterns one after the other. -/
def patternSequence (parts : List Term) : Term := app .patternSequence parts

/-- Anything but what a pattern matches; what a second one matches, if one is given. -/
def except (no : Term) (p : Option Term) : Term := app .except (no :: p.toList)

/-- A pattern kept from being evaluated. -/
def holdPattern (p : Term) : Term := app .holdPattern [p]

/-- A term verbatim. -/
def literal (x : Term) : Term := app .literal [x]

/-- A pattern that prefers many arguments. -/
def longest (p : Term) : Term := app .longest [p]

/-- A pattern that prefers few arguments. -/
def shortest (p : Term) : Term := app .shortest [p]

/-! ## other terms -/

/-- Terms to be spliced into an argument list. -/
def sequence (items : List Term) : Term := app .sequence items

/-- A term kept from being evaluated. -/
def held (x : Term) : Term := app .hold [x]

/-- An immediate rule. -/
def rule (lhs rhs : Term) : Term := app .rule [lhs, rhs]

/-- A delayed rule. -/
def ruleDelayed (lhs rhs : Term) : Term := app .ruleDelayed [lhs, rhs]

end Termwise.Term
