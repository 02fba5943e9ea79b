import Termwise.Pattern.Size
import Termwise.Term.Write

/-!
# Termwise.Pattern.Valid

What makes a left-hand side unusable in a definition:

1. a `Pattern` node whose first argument is no symbol, or without exactly two
   arguments;
2. a `Repeated` node with a range that does not read, or without one or two
   arguments;
3. a `Repeated` node around a pattern that may take no argument at all.

Nodes are checked from the outside in and from left to right; the first defect
is the one reported.
-/

namespace Termwise

/-- Why a pattern cannot be used in a definition. -/
inductive PatternError where
  /-- A repeated pattern that may take no argument. -/
  | nestedRepeated (pattern : Term)
  /-- A repetition range that does not read. -/
  | invalidRange (pattern : Term)
  /-- A pattern name that is no symbol. -/
  | invalidName (pattern : Term)
  /-- A left-hand side without a symbol to define. -/
  | noTarget (pattern : Term)

namespace PatternError

/-- The text of the error. -/
def message : PatternError → String
  | nestedRepeated p => "Repeated pattern " ++ p.toText ++ " can match an empty sequence"
  | invalidRange p => "Invalid repetition range in " ++ p.toText
  | invalidName p => "Pattern name must be a symbol in " ++ p.toText
  | noTarget p => "No symbol to attach a definition for " ++ p.toText

end PatternError

namespace Term

/-- The defect of one call of a symbol, its parts not considered. -/
def callDefect? (whole : Term) (head : Symbol) (args : List Term) : Option PatternError :=
  if head = .pattern then
    match args with
    | [.symbol _, _] => none
    | _ => some (.invalidName whole)
  else if head = .repeated then
    match args with
    | [p] => emptyRepeat? p
    | [p, bounds] =>
      if (Pattern.range? bounds).isNone then some (.invalidRange whole) else emptyRepeat? p
    | _ => some (.invalidRange whole)
  else none
where
  /-- The defect of a repeated pattern that may take no argument. -/
  emptyRepeat? (p : Term) : Option PatternError :=
    if ((Pattern.ofTerm p).size none .empty).least = 0 then some (.nestedRepeated whole) else none

mutual

/-- The first defect of a term as a pattern. -/
def defect? : Term → Option PatternError
  | .node id (.symbol s) args =>
    (callDefect? (.node id (.symbol s) args) s args).or (defects? args)
  | .node _ head args => (defect? head).or (defects? args)
  | _ => none

/-- The first defect of terms as patterns. -/
def defects? : List Term → Option PatternError
  | [] => none
  | t :: ts => (defect? t).or (defects? ts)

end

end Term

end Termwise
