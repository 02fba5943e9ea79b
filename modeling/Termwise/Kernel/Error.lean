import Termwise.Pattern.Valid

/-!
# Termwise.Kernel.Error

What ends an evaluation before it has a result.  A match that fails is no error.
-/

namespace Termwise

/-- Why a change of a symbol was refused. -/
inductive SymbolError where
  /-- The symbol is protected. -/
  | isProtected (name : String)
  /-- The symbol has been removed. -/
  | removed (name : String)
  /-- The rules were opened for reading only. -/
  | readOnly

namespace SymbolError

/-- The text of the error. -/
def message : SymbolError → String
  | isProtected name => "Symbol " ++ name ++ " is Protected"
  | removed name => "Symbol " ++ name ++ " has been removed"
  | readOnly => "rule store was opened for reading"

/-- The kind of the error. -/
def kind : SymbolError → String
  | isProtected _ => "Protected"
  | removed _ => "Removed"
  | readOnly => "ReadOnly"

end SymbolError

namespace PatternError

/-- The kind of the error. -/
def kind : PatternError → String
  | nestedRepeated _ => "NestedRepeated"
  | invalidRange _ => "InvalidRange"
  | invalidName _ => "InvalidName"
  | noTarget _ => "NoTarget"

end PatternError

/-- What ends an evaluation before it has a result. -/
inductive EvalError where
  /-- A term on its way to the nearest catch. -/
  | thrown (value : Term)
  /-- An abort was requested, or a time limit has passed. -/
  | aborted
  /-- Evaluation is nested deeper than allowed. -/
  | recursionLimit (depth : Nat)
  /-- There is no room for so many items. -/
  | allocation (requested : Nat)
  /-- A definition has an unusable pattern. -/
  | pattern (e : PatternError)
  /-- A definition was refused by its symbol. -/
  | symbol (e : SymbolError)
  /-- The evaluator was called with too little fuel. -/
  | outOfFuel

namespace EvalError

/-- The text of the error. -/
def message : EvalError → String
  | thrown value => "Uncaught Throw(" ++ value.toText ++ ")"
  | aborted => "Evaluation aborted"
  | recursionLimit depth => "Recursion depth of " ++ toString depth ++ " exceeded"
  | allocation requested => "Allocation of " ++ toString requested ++ " items failed"
  | pattern e => e.message
  | symbol e => e.message
  | outOfFuel => "Evaluation is nested too deeply"

/-- The kind of the error. -/
def kind : EvalError → String
  | thrown _ => "Thrown"
  | aborted => "Aborted"
  | recursionLimit _ => "RecursionLimit"
  | allocation _ => "AllocationFailure"
  | pattern e => e.kind
  | symbol e => e.kind
  | outOfFuel => "OutOfFuel"

end EvalError

end Termwise
