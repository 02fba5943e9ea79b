import Termwise.Eval.Native
import Termwise.Eval.Normalize

/-!
# Termwise.Eval.Step

Evaluation to a fixed point.  One round on a term:

1. a symbol is replaced by its local value, its value, or by a rule for the symbol;
2. a call that is remembered as evaluated is finished;
3. any other call has its head and its arguments evaluated, is brought into normal
   form (`Eval.Normalize`), and is replaced by the first that applies of

   ```text
   up rules of the symbols in arguments, local rules, rules of the head,
   native code of the symbols in arguments, native code of the head
   ```

   and when nothing applies it is finished and remembered.

Rounds go on until one is finished, changes nothing or the iteration limit is hit.
The number of calls under evaluation in a context is bounded as well.
-/

namespace Termwise

/-- How a round ends. -/
inductive Step where
  /-- Nothing is left to be done. -/
  | done (value : Term)
  /-- Another round is needed. -/
  | rewritten (next : Term)

namespace Evaluator

/-! ## symbols -/

/-- What a symbol is replaced by. -/
def evaluateSymbol (r : Evaluator) (c : ContextId) (s : Symbol) : EvalM (Option Term) := do
  let k ← get
  if (k.record s).removed then return none
  else
    match (k.localValue? c s).or (k.value? s) with
    | some value => return some value
    | none => r.findRule? c s .own (.symbol s)

/-! ## parts of calls -/

/-- Evaluate the arguments that are not held, the first one being at a given position. -/
def evaluateArgs (r : Evaluator) (c : ContextId) (attrs : Attributes) :
    Nat → List Term → EvalM (List Term)
  | _, [] => return []
  | i, t :: ts => do
    let held := attrs.has .holdAllComplete || (attrs.holds i && !t.hasHead .evaluate)
    let value ← if held then pure t else r.evaluate c t
    return value :: (← r.evaluateArgs c attrs (i + 1) ts)

/-- A call from its evaluated parts, the very same node when no part has changed. -/
def rebuild (call head : Term) (args : List Term) : Term :=
  if head.same call.key && (args.zip call.args).all (fun a => a.1.same a.2) then call
  else .call head args

/-- Bring a call into normal form, or thread it over lists. -/
def normalize (attrs : Attributes) (call : Term) : EvalM Step := do
  let call :=
    if attrs.has .sequenceHold || attrs.has .holdAllComplete then call else call.spliceSequences
  match ← if attrs.has .listable then call.threadListable else pure none with
  | some threaded => return .rewritten threaded
  | none =>
    let call := if attrs.has .flat then call.flatten else call
    return .done (if attrs.has .orderless then call.sortArgs else call)

/-! ## calls -/

/-- The symbols in the arguments of a call, each once. -/
def upSymbols (attrs : Attributes) (call : Term) : List Symbol :=
  if attrs.has .holdAllComplete then []
  else (call.args.filterMap Term.topmost?).eraseDups

/-- What local rules replace a call of a symbol by. -/
def findLocalRule? (r : Evaluator) (c : ContextId) (s : Symbol) (call : Term) :
    EvalM (Option Term) := do
  match (← get).localRules? c s with
  | some list => r.find? c list call
  | none => return none

/-- What native code of a symbol replaces a call by. -/
def runCode? (r : Evaluator) (c : ContextId) (usage : CodeUsage) (call : Term) (s : Symbol) :
    EvalM (Option Term) := do
  match ((← get).record s).code.get usage with
  | some code => r.run c code call
  | none => return none

/-- The first result of several attempts. -/
def firstResult : List (EvalM (Option Term)) → EvalM (Option Term)
  | [] => return none
  | x :: xs => do
    match ← x with
    | some result => return some result
    | none => firstResult xs

/-- What a call in normal form is replaced by; `head` is the symbol its head evaluated to. -/
def reduce (r : Evaluator) (c : ContextId) (attrs : Attributes) (head : Option Symbol)
    (call : Term) : EvalM (Option Term) :=
  let ups := upSymbols attrs call
  let byHead : List (EvalM (Option Term)) × List (EvalM (Option Term)) :=
    match head with
    | some s =>
      ([r.findLocalRule? c s call, r.findRule? c s .down call], [r.runCode? c .down call s])
    | none =>
      match call.key.topmost? with
      | some s => ([r.findRule? c s .sub call], [r.runCode? c .sub call s])
      | none => ([], [])
  firstResult
    (ups.map (fun s => r.findRule? c s .up call) ++ byHead.1
      ++ ups.map (r.runCode? c .up call) ++ byHead.2)

/-- The call wrapped so that it stays as it is. -/
def hold (c : ContextId) (t : Term) : EvalM Term := do
  let held ← share (.app .hold [t])
  modify fun k => k.stamp c held (k.stampGeneration? c)
  return held

/-- One round on a call within the recursion limit. -/
def evaluateParts (r : Evaluator) (c : ContextId) (generation : Option Nat) (call : Term) :
    EvalM Step := do
  let head ← r.evaluate c call.key
  let symbol := match head with
    | .symbol s => some s
    | _ => none
  let k ← get
  let attrs := match symbol with
    | some s => k.attributes s
    | none => .none
  let args ← r.evaluateArgs c attrs 1 call.args
  match ← normalize attrs (← share (rebuild call head args)) with
  | .rewritten threaded => return .rewritten threaded
  | .done normal => do
    let normal ← share normal
    match ← r.reduce c attrs symbol normal with
    | some result => return .rewritten result
    | none => do
      modify fun k => k.stamp c normal generation
      return .done normal

/-- One round on a call beyond the recursion limit: the first one is reported and stays as it is,
the next ones are thrown. -/
def refuse (c : ContextId) (call : Term) : EvalM Step := do
  let k ← get
  let limit := k.config.maxRecursion
  if 2 * limit < k.depth c then throw (.recursionLimit limit)
  else if (k.context c).limitReported then raise c (← hold c call)
  else do
    modify fun k => k.setLimitReported c true
    message .general "reclim" [.int (.ofNat limit)]
    return .done (← hold c call)

/-- One round on a call. -/
def evaluateCall (r : Evaluator) (c : ContextId) (call : Term) : EvalM Step := do
  let generation := (← get).stampGeneration? c
  modify fun k => k.enter c
  EvalM.ensuring (do
    let k ← get
    if k.config.maxRecursion < k.depth c then refuse c call
    else r.evaluateParts c generation call) fun k => k.leave c

/-! ## rounds -/

/-- One round on a term. -/
def evaluateRound (r : Evaluator) (c : ContextId) (t : Term) : EvalM Step := do
  checkAbort c
  let t ← share t
  let step ← match t with
    | .symbol s => do
      match ← r.evaluateSymbol c s with
      | some value => pure (.rewritten value)
      | none => pure (.done t)
    | .node .. => do
      let k ← get
      if (k.stampGeneration? c).any (k.isEvaluated t) then pure (.done t)
      else r.evaluateCall c t
    | _ => pure (.done t)
  match step with
  | .done value => return .done value
  | .rewritten next => do
    let next ← share next
    if next == t then do
      modify fun k => k.stamp c next (k.stampGeneration? c)
      return .done next
    else return .rewritten next

/-- Rounds on a term, with so many rewritings left. -/
def evaluateRounds (r : Evaluator) (c : ContextId) : Nat → Term → EvalM Term
  | 0, t => do
    match ← r.evaluateRound c t with
    | .done value => return value
    | .rewritten next => do
      message .general "itlim" [.int (.ofNat (← get).config.maxIterations)]
      hold c next
  | left + 1, t => do
    match ← r.evaluateRound c t with
    | .done value => return value
    | .rewritten next => r.evaluateRounds c left next

/-- Evaluate a term to its fixed point.  After the outermost evaluation of a context the recursion
limit may be reported anew. -/
def evaluateFully (r : Evaluator) (c : ContextId) (t : Term) : EvalM Term := do
  let k ← get
  let rounds := r.evaluateRounds c k.config.maxIterations t
  if k.depth c = 0 then rounds.ensuring fun k => k.setLimitReported c false else rounds

end Evaluator

end Termwise
