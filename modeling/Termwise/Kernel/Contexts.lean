import Termwise.Kernel.Definitions

/-!
# Termwise.Kernel.Contexts

The threads of evaluation.  A context is a *root* or a *child* of another one.
What is looked up in a context and not found there is looked up in its parent, and
so on; what is changed is changed in the context itself:

```text
local values, local rules     the nearest context that has one for the symbol
deadline                      the earliest of all
exception slot, depth         the context's own
open gathers                  the nearest context first (see `Eval.Gather`)
```
-/

namespace Termwise

namespace Kernel

/-! ## making contexts -/

/-- A new root context. -/
def newRoot (k : Kernel) : ContextId × Kernel :=
  (⟨k.contexts.size⟩, { k with contexts := k.contexts.push {} })

/-- A new child of a context; it starts at the nesting depth its parent has now. -/
def spawnChild (k : Kernel) (c : ContextId) : ContextId × Kernel :=
  let parent := k.context c
  (⟨k.contexts.size⟩,
    { k with contexts :=
        k.contexts.push { ancestors := c :: parent.ancestors, depth := parent.depth } })

/-! ## local definitions -/

/-- The local value of a symbol. -/
def localValue? (k : Kernel) (c : ContextId) (s : Symbol) : Option Term :=
  (k.chain c).findSome? fun x => x.locals.lookup s

/-- The local rules of a symbol. -/
def localRules? (k : Kernel) (c : ContextId) (s : Symbol) : Option RuleList :=
  (k.chain c).findSome? fun x => x.localRules.lookup s

/-- Put a pair in the place of the one with the same symbol. -/
def putLocal {α : Type} (s : Symbol) (value : α) (pairs : List (Symbol × α)) : List (Symbol × α) :=
  (s, value) :: pairs.filter (·.1 != s)

/-- Bind a symbol in a context. -/
def setLocal (k : Kernel) (c : ContextId) (s : Symbol) (value : Term) : Kernel :=
  (k.updateContext c fun x => { x with locals := putLocal s value x.locals }).bump

/-- Unbind a symbol in a context; the result is what it was bound to there. -/
def unsetLocal (k : Kernel) (c : ContextId) (s : Symbol) : Option Term × Kernel :=
  match (k.context c).locals.lookup s with
  | some old =>
    (some old, (k.updateContext c fun x =>
      { x with locals := x.locals.filter (·.1 != s) }).bump)
  | none => (none, k)

/-- Put another list in the place of the local rules of a symbol. -/
def putLocalRules (k : Kernel) (c : ContextId) (s : Symbol) (list : RuleList) : Kernel :=
  k.updateContext c fun x => { x with localRules := putLocal s list x.localRules }

/-- Add a local rule of a symbol. -/
def addLocalRule (k : Kernel) (c : ContextId) (s : Symbol) (r : Rule) : Kernel :=
  let list := ((k.context c).localRules.lookup s).getD .empty
  (k.putLocalRules c s (list.insert r)).bump

/-- The generation, unless a context or one it was spawned from has local definitions: what is
evaluated under local definitions is not evaluated for others, who may share its nodes. -/
def stampGeneration? (k : Kernel) (c : ContextId) : Option Nat :=
  if (k.chain c).any fun x => !x.locals.isEmpty || !x.localRules.isEmpty then none
  else some k.generation

/-- Remember that a node is evaluated at a generation, unless local definitions are in sight. -/
def stamp (k : Kernel) (c : ContextId) (t : Term) (generation : Option Nat) : Kernel :=
  match generation, k.stampGeneration? c with
  | some g, some _ => k.markEvaluated t g
  | _, _ => k

/-! ## exceptions -/

/-- Record a pending exception unless there is one. -/
def recordException (k : Kernel) (c : ContextId) (value : Term) : Kernel :=
  k.updateContext c fun x => { x with pending := x.pending.or (some value) }

/-- The pending exception. -/
def pendingException (k : Kernel) (c : ContextId) : Option Term := (k.context c).pending

/-- Take the pending exception. -/
def catchException (k : Kernel) (c : ContextId) : Option Term × Kernel :=
  (k.pendingException c, k.updateContext c fun x => { x with pending := none })

/-! ## depth -/

/-- Number of calls under evaluation in a context. -/
def depth (k : Kernel) (c : ContextId) : Nat := (k.context c).depth

/-- One more call is under evaluation. -/
def enter (k : Kernel) (c : ContextId) : Kernel :=
  k.updateContext c fun x => { x with depth := x.depth + 1 }

/-- One call less is under evaluation. -/
def leave (k : Kernel) (c : ContextId) : Kernel :=
  k.updateContext c fun x => { x with depth := x.depth - 1 }

/-- Set whether the recursion limit has been reported in a context. -/
def setLimitReported (k : Kernel) (c : ContextId) (reported : Bool) : Kernel :=
  k.updateContext c fun x => { x with limitReported := reported }

/-! ## abort and time -/

/-- Nanoseconds that pass between two looks at the clock. -/
def lookTime : Nat := 1000

/-- The earliest deadline of a context and the ones it was spawned from. -/
def deadline (k : Kernel) (c : ContextId) : Nat :=
  (k.chain c).foldl (fun d x => min d x.deadline) noDeadline

/-- Whether a deadline has passed. -/
def isLate (k : Kernel) (deadline : Nat) : Bool := deadline != noDeadline && deadline ≤ k.clock

/-- Set the deadline of a context. -/
def setDeadline (k : Kernel) (c : ContextId) (deadline : Nat) : Kernel :=
  k.updateContext c fun x => { x with deadline := deadline }

/-- Let time pass. -/
def elapse (k : Kernel) (nanos : Nat) : Kernel := { k with clock := k.clock + nanos }

/-! ## gathers -/

/-- Open a gather. -/
def gatherBegin (k : Kernel) (c : ContextId) (pattern : Term) : Kernel :=
  { k.updateContext c (fun x => { x with gathers := ⟨k.frames, pattern, []⟩ :: x.gathers }) with
    frames := k.frames + 1 }

/-- Close the innermost gather; the result is what it has collected. -/
def gatherEnd (k : Kernel) (c : ContextId) : List Term × Kernel :=
  match (k.context c).gathers with
  | frame :: rest => (frame.values, k.updateContext c fun x => { x with gathers := rest })
  | [] => ([], k)

end Kernel

/-! ## actions -/

/-- Record an exception and throw it. -/
def raise {α : Type} (c : ContextId) (value : Term) : EvalM α := do
  modify fun k => k.recordException c value
  throw (.thrown value)

/-- Fail if an abort was requested or a deadline has passed. -/
def checkAbort (c : ContextId) : EvalM Unit := do
  modify fun k => k.elapse Kernel.lookTime
  let k ← get
  if k.aborting || k.isLate (k.deadline c) then throw .aborted

/-- Wait, but not past an abort or a deadline. -/
def pause (c : ContextId) (nanos : Nat) : EvalM Unit := do
  let k ← get
  let d := k.deadline c
  let wait := if d = noDeadline then nanos else min nanos (d - k.clock)
  modify fun k => if k.aborting then k else k.elapse wait
  checkAbort c

/-- Run an action within a time limit; nothing when the limit ended it.  An abort, or an earlier
deadline around this one, is passed on. -/
def timeConstrained {α : Type} (c : ContextId) (nanos : Nat) (x : EvalM α) : EvalM (Option α) := do
  let k ← get
  let own := min (k.clock + nanos) noDeadline
  let previous := (k.context c).deadline
  modify fun k => k.setDeadline c (min previous own)
  let result ← (x.ensuring fun k => k.setDeadline c previous).outcome
  let k ← get
  match result with
  | .ok value => return some value
  | .error .aborted =>
    if !k.aborting && own ≤ k.clock then return none else throw .aborted
  | .error e => throw e

/-- A new child of a context. -/
def spawnChild (c : ContextId) : EvalM ContextId := modifyGet fun k => k.spawnChild c

end Termwise
