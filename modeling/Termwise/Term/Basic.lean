import Termwise.Text.Window
import Termwise.Number.Double
import Termwise.Symbol.System

/-!
# Termwise.Term.Basic

Terms, the values that the evaluator rewrites: atoms, and calls `head(args...)`
whose head may be any term.

A call carries the *identity* of its node.  Identity does not take part in
equality; it tells whether two terms are the very same node, and the evaluator
remembers by it which nodes are already evaluated.  Identity 0 marks a node that
nothing has named yet; `Term.share` gives such nodes an identity of their own.
-/

namespace Termwise

/-! ## atoms -/

/-- Values that stand for themselves. -/
inductive Magic where
  /-- The empty result. -/
  | null
  /-- No value. -/
  | undefined
  /-- Head of a run of arguments that occupies one place. -/
  | sequence
deriving DecidableEq, Repr

/-- An opaque atom supplied by the host. -/
structure HostObject where
  /-- Identity of the object, 0 while it has none. -/
  id : Nat
  /-- Name of its type. -/
  kind : String
  /-- The number that tells objects of one type apart. -/
  number : UInt64
  /-- Its text, when it does not take the general one. -/
  text : Option String
deriving Repr

instance : BEq HostObject where
  beq a b := a.kind == b.kind && a.number == b.number

/-! ## terms -/

/-- A term. -/
inductive Term where
  | magic (m : Magic)
  | int (n : Int64)
  | float (x : Double)
  | text (s : Text.Window)
  | symbol (s : Symbol)
  | host (o : HostObject)
  | node (id : Nat) (head : Term) (args : List Term)

namespace Term

/-- The empty result. -/
def null : Term := .magic .null

instance : Inhabited Term := ⟨null⟩

/-- A call on a node of its own. -/
def call (head : Term) (args : List Term) : Term := .node 0 head args

/-- A call of a symbol. -/
def app (head : Symbol) (args : List Term) : Term := call (.symbol head) args

/-- A run of terms that occupies one place. -/
def marker (items : List Term) : Term := call (.magic .sequence) items

/-- A string. -/
def ofString (s : String) : Term := .text (Text.Window.ofString s)

/-- The symbol of a truth value. -/
def ofBool (b : Bool) : Term := .symbol (Symbol.ofBool b)

/-- A list. -/
def list (items : List Term) : Term := app .list items

/-! ## parts -/

/-- The arguments of a call, none for an atom. -/
def args : Term → List Term
  | .node _ _ args => args
  | _ => []

/-- The head of a call, the term itself otherwise. -/
def key : Term → Term
  | .node _ head _ => head
  | t => t

/-- Whether the term is a given symbol. -/
def isSymbol (t : Term) (s : Symbol) : Bool :=
  match t with
  | .symbol r => r == s
  | _ => false

/-- Whether the term is a call of a given symbol. -/
def hasHead (t : Term) (s : Symbol) : Bool :=
  match t with
  | .node _ head _ => head.isSymbol s
  | _ => false

/-- Whether the term is a run of terms that occupies one place. -/
def isMarker : Term → Bool
  | .node _ (.magic .sequence) _ => true
  | _ => false

/-- The terms a term stands for in an argument list. -/
def run (t : Term) : List Term := if t.isMarker then t.args else [t]

/-- The one term that a term stands for in an argument list, if it is one. -/
def single? (t : Term) : Option Term :=
  if t.isMarker then
    match t.args with
    | [one] => some one
    | _ => none
  else some t

/-- The symbol at the end of the chain of heads. -/
def topmost? : Term → Option Symbol
  | .symbol s => some s
  | .node _ head _ => head.topmost?
  | _ => none

/-! ## kinds -/

/-- The type of a term. -/
inductive Kind where
  | magic | integer | float | string | symbol | expr | custom
deriving DecidableEq, Repr

namespace Kind

/-- The name of a type. -/
def name : Kind → String
  | magic => "Magic" | integer => "Integer" | float => "Float" | string => "String"
  | symbol => "Symbol" | expr => "Expr" | custom => "Custom"

/-- Position of a type in the order of terms; the two kinds of numbers share one. -/
def rank : Kind → Nat
  | magic => 0 | integer => 1 | float => 1 | string => 2 | symbol => 3 | custom => 4 | expr => 5

/-- The named sets of types, in listing order. -/
def sets : List (String × List Kind) :=
  [("MAGIC", [magic]), ("INTEGER", [integer]), ("FLOAT", [float]), ("STRING", [string]),
    ("SYMBOL", [symbol]), ("EXPR", [expr]), ("CUSTOM", [custom]),
    ("NUMBER", [integer, float]), ("IMMEDIATE", [magic, integer, float]),
    ("ATOM", [integer, float, string, symbol, custom])]

/-- The names of the sets a type belongs to. -/
def setNames (k : Kind) : List String := (sets.filter (·.2.contains k)).map (·.1)

/-- The types in a named set. -/
def ofSetName? (name : String) : Option (List Kind) := (sets.find? (·.1 == name)).map (·.2)

end Kind

/-- The type of a term. -/
def kind : Term → Kind
  | .magic _ => .magic
  | .int _ => .integer
  | .float _ => .float
  | .text _ => .string
  | .symbol _ => .symbol
  | .host _ => .custom
  | .node .. => .expr

/-- Whether a term is a number. -/
def isNumber (t : Term) : Bool := t.kind == .integer || t.kind == .float

/-- Whether two terms have one type, and that type is in a set. -/
def sameKind (kinds : List Kind) (a b : Term) : Bool := a.kind == b.kind && kinds.contains a.kind

end Term

end Termwise
