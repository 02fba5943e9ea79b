import Termwise.Term.Node
import Termwise.Term.Write

/-!
# Termwise.Host.Function

Functions of calls that a host may bind as native code (`Native.function`).  They have
no effects; a function that does not apply gives nothing.
-/

namespace Termwise.Host

/-- Always the same result. -/
def constant (value : Term) (_call : Term) : Option Term := some value

/-- Never a result. -/
def decline (_call : Term) : Option Term := none

/-- The list of the arguments. -/
def list (call : Term) : Option Term := some (.list call.args)

/-- The text of the call. -/
def text (call : Term) : Option Term := some (.ofString call.toText)

/-- The first argument. -/
def first (call : Term) : Option Term := call.args.head?

/-- Whether the arguments are one even integer. -/
def isEven (call : Term) : Option Term :=
  match call.args with
  | [.int n] => some (.ofBool (n % 2 == 0))
  | _ => some (.ofBool false)

/-- The call on the next integer. -/
def increment (call : Term) : Option Term :=
  match call.args with
  | [.int n] => some (.call call.key [.int (n + 1)])
  | _ => none

/-- The integer before the argument. -/
def decrement (call : Term) : Option Term :=
  match call.args with
  | [.int n] => some (.int (n - 1))
  | _ => none

/-- Half of a floating-point argument. -/
def half (call : Term) : Option Term :=
  match call.args with
  | [.float x] => some (.float x.half)
  | _ => none

end Termwise.Host
