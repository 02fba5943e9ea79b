import Termwise.Config.Basic
import Termwise.Kernel.Error
import Termwise.Kernel.Native
import Termwise.Rule.Store
import Termwise.Term.Share

/-!
# Termwise.Kernel.State

Everything that evaluations share or leave behind:

1. the symbols with their definitions, and the registry of their names;
2. the contexts, each with local definitions, a nesting depth, an exception slot,
   open gathers and a deadline;
3. the *generation*, moved by every change of a definition, and the generation
   at which each node was last found to be evaluated;
4. the *structure epoch*, moved when some symbol becomes flat or orderless, or
   is no longer;
5. an abort flag, messages and a clock.

An operation of the kernel is an `EvalM` action.  What it changed before it failed
stays changed.
-/

namespace Termwise

/-! ## symbols -/

/-- What the kernel knows about a symbol. -/
structure SymbolRecord where
  /-- The name of the symbol. -/
  name : String
  /-- Its attributes. -/
  attributes : Attributes := .none
  /-- Whether it has been removed. -/
  removed : Bool := false
  /-- Its value. -/
  value : Option Term := none
  /-- Its rules, absent until they are opened for a change. -/
  rules : Option RuleStore := none
  /-- Its native code. -/
  code : NativeSlots := {}

/-! ## contexts -/

/-- The name of a context. -/
structure ContextId where
  /-- Number of the context, in order of creation. -/
  index : Nat
deriving DecidableEq, Repr, Inhabited

/-- An open gather. -/
structure GatherFrame where
  /-- Number of the frame, in order of opening. -/
  id : Nat
  /-- The pattern of the tags it collects. -/
  pattern : Term
  /-- What it has collected, oldest first. -/
  values : List Term

/-- The time of a deadline that never comes. -/
def noDeadline : Nat := 2 ^ 64 - 1

/-- The state of one thread of evaluation. -/
structure Context where
  /-- The contexts it was spawned from, the nearest first. -/
  ancestors : List ContextId := []
  /-- Local values. -/
  locals : List (Symbol × Term) := []
  /-- Local rules for calls. -/
  localRules : List (Symbol × RuleList) := []
  /-- Number of calls under evaluation. -/
  depth : Nat := 0
  /-- Whether the recursion limit has been reported. -/
  limitReported : Bool := false
  /-- The pending exception. -/
  pending : Option Term := none
  /-- Open gathers, the innermost first. -/
  gathers : List GatherFrame := []
  /-- When evaluation has to stop. -/
  deadline : Nat := noDeadline

instance : Inhabited Context := ⟨{}⟩

/-! ## kernels -/

/-- A diagnostic. -/
structure Message where
  /-- Name of the symbol that sends it. -/
  symbol : String
  /-- What it is about. -/
  tag : String
  /-- The terms it is about. -/
  args : List Term

/-- The state that evaluations share. -/
structure Kernel where
  /-- Limits and knobs. -/
  config : Config
  /-- All symbols ever made, each at the position of its identity. -/
  symbols : Array SymbolRecord
  /-- The registry: the symbols that names stand for, the latest made first. -/
  registry : List (String × Symbol)
  /-- All contexts, each at the position of its number. -/
  contexts : Array Context
  /-- Whether evaluations are asked to stop. -/
  aborting : Bool
  /-- Messages sent, the latest first. -/
  messages : List Message
  /-- Number of changes of definitions. -/
  generation : Nat
  /-- Number of times some symbol has become flat or orderless, or ceased to be. -/
  structureEpoch : Nat
  /-- The generation at which each node was last evaluated, at the position of its identity. -/
  stamps : Array Nat
  /-- Number of gathers opened. -/
  frames : Nat
  /-- Nanoseconds since the start. -/
  clock : Nat

/-- An action on a kernel that may fail. -/
abbrev EvalM := ExceptT EvalError (StateM Kernel)

namespace EvalM

/-- Run an action and then change the kernel, also when the action failed. -/
def ensuring {α : Type} (x : EvalM α) (f : Kernel → Kernel) : EvalM α :=
  ExceptT.mk fun k =>
    let (result, k) := x.run k
    (result, f k)

/-- Run an action and give its outcome, also when it failed. -/
def outcome {α : Type} (x : EvalM α) : EvalM (Except EvalError α) :=
  ExceptT.mk fun k =>
    let (result, k) := x.run k
    (.ok result, k)

end EvalM

namespace Kernel

/-! ## reading -/

/-- The record of a symbol. -/
def record (k : Kernel) (s : Symbol) : SymbolRecord := k.symbols.getD s.id { name := s.name }

/-- The attributes of a symbol. -/
def attributes (k : Kernel) (s : Symbol) : Attributes := (k.record s).attributes

/-- A context. -/
def context (k : Kernel) (c : ContextId) : Context := k.contexts.getD c.index default

/-- A context and the ones it was spawned from, the nearest first. -/
def chain (k : Kernel) (c : ContextId) : List Context :=
  k.context c :: (k.context c).ancestors.map k.context

/-! ## changing -/

/-- Change the record of a symbol. -/
def updateRecord (k : Kernel) (s : Symbol) (f : SymbolRecord → SymbolRecord) : Kernel :=
  { k with symbols := k.symbols.modify s.id f }

/-- Change a context. -/
def updateContext (k : Kernel) (c : ContextId) (f : Context → Context) : Kernel :=
  { k with contexts := k.contexts.modify c.index f }

/-- Move the generation. -/
def bump (k : Kernel) : Kernel := { k with generation := k.generation + 1 }

/-- Send a message. -/
def addMessage (k : Kernel) (s : Symbol) (tag : String) (args : List Term) : Kernel :=
  { k with messages := ⟨s.name, tag, args⟩ :: k.messages }

/-- Name the nodes of a term. -/
def share (k : Kernel) (t : Term) : Term × Kernel :=
  let named := t.share k.stamps.size
  (named.1, { k with stamps := k.stamps ++ Array.replicate (named.2 - k.stamps.size) 0 })

/-! ## nodes found evaluated -/

/-- Whether the node of a term was found evaluated at a generation.  Unnamed nodes never are. -/
def isEvaluated (k : Kernel) (t : Term) (generation : Nat) : Bool :=
  match t with
  | .node id _ _ => id != 0 && k.stamps.getD id 0 == generation
  | _ => false

/-- Remember that the node of a term is evaluated at a generation. -/
def markEvaluated (k : Kernel) (t : Term) (generation : Nat) : Kernel :=
  match t with
  | .node id _ _ =>
    if id = 0 then k else { k with stamps := k.stamps.setIfInBounds id generation }
  | _ => k

end Kernel

/-! ## actions -/

/-- Send a message. -/
def message (s : Symbol) (tag : String) (args : List Term) : EvalM Unit :=
  modify fun k => k.addMessage s tag args

/-- Name the nodes of a term. -/
def share (t : Term) : EvalM Term := modifyGet fun k => k.share t

end Termwise
