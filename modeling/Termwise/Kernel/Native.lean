import Termwise.Rule.Basic

/-!
# Termwise.Kernel.Native

Native code that a host binds to symbols.  It runs when no rule applies.  Code
without effects is any function on calls (`function`); code with effects is one of
a fixed stock of operations of the evaluator, so that what a kernel can do is
known from its state.  What the operations do is said in `Eval.Native`.
-/

namespace Termwise

/-- Native code for a call. -/
inductive Native where
  /-- Throw the argument. -/
  | raise
  /-- Evaluate the argument and catch what it throws. -/
  | capture
  /-- Evaluate the first argument and collect what it emits. -/
  | gather
  /-- Emit the argument. -/
  | emit
  /-- Give the arguments back. -/
  | release
  /-- A function of the call, without effects. -/
  | function (f : Term → Option Term)
  /-- Send a message with the arguments. -/
  | note
  /-- Throw the list of the arguments. -/
  | throwArguments
  /-- Abort this evaluation. -/
  | abort
  /-- Ask all evaluations to stop. -/
  | requestAbort
  /-- Evaluate the argument and report how that ended. -/
  | attempt
  /-- Take the pending exception. -/
  | takePending
  /-- Give the nesting depth. -/
  | depth
  /-- Define the first argument to be the second. -/
  | assign (kind : RuleKind)
  /-- Remove the definitions of the argument. -/
  | unassign
  /-- Set the attributes of the first argument. -/
  | setAttributes
  /-- Bind the first argument in this context. -/
  | setLocal
  /-- Unbind the argument in this context. -/
  | unsetLocal
  /-- Remove a symbol. -/
  | remove
  /-- Apply rules to the first argument, or to all its parts. -/
  | replace (everywhere : Bool)
  /-- Match the first argument with the second. -/
  | isMatch
  /-- Evaluate all arguments, each in a child context. -/
  | parallel
  /-- Evaluate the argument as a task of the worker pool. -/
  | spawn
  /-- Evaluate the argument in a child context. -/
  | child
  /-- Evaluate the argument within a time limit. -/
  | timed (nanos : Nat)
  /-- Wait. -/
  | pause (nanos : Nat)
  /-- Start collecting what is emitted under tags that match the argument. -/
  | gatherBegin
  /-- Stop collecting. -/
  | gatherEnd
  /-- Stop collecting, and start anew for all tags. -/
  | swapGather
  /-- Approximate the argument. -/
  | approximate
  /-- Format the argument. -/
  | format

/-- Native code that approximates a term. -/
inductive ApproxNative where
  /-- A function of the term, without effects. -/
  | function (f : Term → Option Term)
  /-- Send a message with the term. -/
  | note
  /-- Throw the term. -/
  | throwTerm

/-- How native code is reached. -/
inductive CodeUsage where
  /-- By calls of the symbol. -/
  | down
  /-- By calls of calls of the symbol. -/
  | sub
  /-- By calls with the symbol in an argument. -/
  | up
deriving DecidableEq, Repr

/-- The native code of one symbol. -/
structure NativeSlots where
  /-- Code for calls of the symbol. -/
  down : Option Native := none
  /-- Code for calls of calls of the symbol. -/
  sub : Option Native := none
  /-- Code for calls with the symbol in an argument. -/
  up : Option Native := none
  /-- Code that approximates. -/
  approx : Option ApproxNative := none

namespace NativeSlots

/-- The code of a usage. -/
def get (s : NativeSlots) : CodeUsage → Option Native
  | .down => s.down
  | .sub => s.sub
  | .up => s.up

/-- Bind code for a usage. -/
def set (s : NativeSlots) (usage : CodeUsage) (code : Native) : NativeSlots :=
  match usage with
  | .down => { s with down := some code }
  | .sub => { s with sub := some code }
  | .up => { s with up := some code }

end NativeSlots

end Termwise
