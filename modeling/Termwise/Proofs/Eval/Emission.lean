import Termwise.Eval.Gather
import Termwise.Proofs.Eval.Run

/-!
# Termwise.Proofs.Eval.Emission

An emission, one action at a time:

```text
search    read the gathers of the next context; without one, report that none took the value
asks      match the tag with the pattern of a gather that was read
offers    look up the gather that accepted the tag, and append the value if it is open
```

Each of these is done in one piece, except that matching may evaluate anything.  Between
the actions of an emission others may act.  What the code has left to do at a stage
(`Stage.finish`) is the next action and then what is left after it (`Stage.finish_eq`).
-/

namespace Termwise.Gathering

/-! ## actions -/

/-- What an emission has done in one action. -/
inductive Act
  /-- It has read the gathers that are open in a context. -/
  | reads (owner : ContextId) (frames : List GatherFrame)
  /-- The tag does not match the pattern of a gather. -/
  | refused (owner : ContextId) (frame : GatherFrame)
  /-- The tag matches the pattern of a gather. -/
  | accepted (owner : ContextId) (frame : GatherFrame)
  /-- A gather that accepted the tag is not open any more. -/
  | missed (owner : ContextId) (frame : GatherFrame)
  /-- The value was appended to a gather that accepted the tag. -/
  | appended (owner : ContextId) (frame : GatherFrame) (value : Term)
  /-- A message was sent: no gather takes the value. -/
  | reported (about : String) (args : List Term)

/-- What is reported about a value that no gather takes, after there were gathers or not. -/
def report (value tag : Term) (seen : Bool) : Act :=
  if seen then .reported "nogather2" [value, tag] else .reported "nogather" [value]

/-- Where an emission stands. -/
inductive Stage
  /-- These contexts are left to search; there were gathers so far or not. -/
  | search (owners : List ContextId) (seen : Bool)
  /-- The tag is matched with the pattern of a gather.  Others of its context were read with it,
  and contexts are left. -/
  | asks (owner : ContextId) (frame : GatherFrame) (frames : List GatherFrame)
      (rest : List ContextId)
  /-- The gather has accepted the tag. -/
  | offers (owner : ContextId) (frame : GatherFrame) (frames : List GatherFrame)
      (rest : List ContextId)

namespace Stage

/-- The stage at which some gathers of a context are left to ask. -/
def ask (owner : ContextId) (rest : List ContextId) (seen : Bool) : List GatherFrame → Stage
  | [] => .search rest seen
  | frame :: frames => .asks owner frame frames rest

/-- The next action of an emission, and the stage after it unless it was the last.  The tag is
matched with patterns by `accepts`. -/
def next (accepts : Term → EvalM Bool) (value tag : Term) : Stage → EvalM (Act × Option Stage)
  | .search [] seen => do
    if seen then message .emit "nogather2" [value, tag] else message .emit "nogather" [value]
    return (report value tag seen, none)
  | .search (owner :: rest) seen => do
    let frames := ((← get).context owner).gathers
    return (.reads owner frames, some (ask owner rest seen frames))
  | .asks owner frame frames rest => do
    if ← accepts frame.pattern then
      return (.accepted owner frame, some (.offers owner frame frames rest))
    return (.refused owner frame, some (ask owner rest true frames))
  | .offers owner frame frames rest => do
    if (← get).isOpen owner frame.id then
      modify fun k => k.collect owner frame.id value
      return (.appended owner frame value, none)
    return (.missed owner frame, some (ask owner rest true frames))

/-! ## what an action does to the kernel -/

section

variable {accepts : Term → EvalM Bool} {value tag : Term} {k : Kernel}

theorem run_next_nil (seen : Bool) : ((search [] seen).next accepts value tag).run k =
    (.ok (report value tag seen, none), if seen then k.addMessage .emit "nogather2" [value, tag]
      else k.addMessage .emit "nogather" [value]) := by
  cases seen <;> rfl

theorem run_next_cons (owner : ContextId) (rest : List ContextId) (seen : Bool) :
    ((search (owner :: rest) seen).next accepts value tag).run k =
      (.ok (.reads owner (k.context owner).gathers,
        some (ask owner rest seen (k.context owner).gathers)), k) := rfl

theorem run_next_asks {k' : Kernel} (owner : ContextId) (frame : GatherFrame)
    (frames : List GatherFrame) (rest : List ContextId) {answer : Except EvalError Bool}
    (hanswer : (accepts frame.pattern).run k = (answer, k')) :
    ((asks owner frame frames rest).next accepts value tag).run k =
      (answer.map fun b => if b then (.accepted owner frame, some (.offers owner frame frames rest))
        else (.refused owner frame, some (ask owner rest true frames)), k') := by
  cases answer with
  | ok b =>
      rw [next, EvalM.run_bind_ok hanswer]
      cases b <;> rfl
  | error e =>
      rw [next, EvalM.run_bind_error hanswer]
      rfl

theorem run_next_offers (owner : ContextId) (frame : GatherFrame) (frames : List GatherFrame)
    (rest : List ContextId) : ((offers owner frame frames rest).next accepts value tag).run k =
      if k.isOpen owner frame.id then
        (.ok (.appended owner frame value, none), k.collect owner frame.id value)
      else (.ok (.missed owner frame, some (ask owner rest true frames)), k) := by
  have hget : (get : EvalM Kernel).run k = (.ok k, k) := rfl
  rw [next, EvalM.run_bind_ok hget]
  split <;> rfl

end

/-! ## the code -/

/-- Ask the gathers of a context, and then those of others. -/
def askEach (r : Evaluator) (c : ContextId) (value tag : Term) (owner : ContextId)
    (rest : List ContextId) (seen : Bool) (frames : List GatherFrame) : EvalM Unit := do
  if (← frames.findSomeM? (r.offer c owner value tag)).isNone then
    r.emitInto c value tag rest seen

/-- What the code has left to do at a stage. -/
def finish (r : Evaluator) (c : ContextId) (value tag : Term) : Stage → EvalM Unit
  | .search owners seen => r.emitInto c value tag owners seen
  | .asks owner frame frames rest => askEach r c value tag owner rest true (frame :: frames)
  | .offers owner frame frames rest => do
    if (← get).isOpen owner frame.id then modify fun k => k.collect owner frame.id value
    else askEach r c value tag owner rest true frames

variable (r : Evaluator) (c : ContextId) (value tag : Term)

theorem finish_ask (owner : ContextId) (rest : List ContextId) (seen : Bool)
    (frames : List GatherFrame) : (ask owner rest seen frames).finish r c value tag =
      askEach r c value tag owner rest (seen || !frames.isEmpty) frames := by
  cases frames with
  | nil => simp [ask, finish, askEach]
  | cons frame frames => simp [ask, finish]

/-- The code at a stage takes the next action, and goes on unless that was the last. -/
theorem finish_eq (stage : Stage) : stage.finish r c value tag = (do
    match (← stage.next (r.isMatch c tag) value tag).2 with
    | some stage => stage.finish r c value tag
    | none => return ()) := by
  match stage with
  | .search [] seen =>
      cases seen <;> simp [finish, next, Evaluator.emitInto]
  | .search (owner :: rest) seen =>
      change r.emitInto c value tag (owner :: rest) seen = _
      simp only [Evaluator.emitInto, next, bind_assoc, pure_bind, finish_ask, askEach]
      refine bind_congr fun k => bind_congr fun taken => ?_
      cases taken <;> rfl
  | .asks owner frame frames rest =>
      -- to offer the value is to match the tag, and then another action
      change askEach r c value tag owner rest true (frame :: frames) = _
      simp only [askEach, List.findSomeM?_cons, Evaluator.offer, next, bind_assoc]
      refine bind_congr fun accepted => ?_
      cases accepted with
      | false => simp [finish_ask, askEach]
      | true =>
          simp only [if_true, pure_bind, bind_assoc, finish, askEach]
          refine bind_congr fun k => ?_
          split <;> simp
  | .offers owner frame frames rest =>
      change (do
        if (← get).isOpen owner frame.id then modify fun k => k.collect owner frame.id value
        else askEach r c value tag owner rest true frames : EvalM Unit) = _
      simp only [next, bind_assoc]
      refine bind_congr fun k => ?_
      split <;> simp [finish_ask]

end Stage

end Termwise.Gathering
