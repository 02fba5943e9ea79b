import Termwise.Proofs.Eval.Callees
import Termwise.Proofs.Eval.LockstepRounds

/-!
# Termwise.Proofs.Eval.Reference

Evaluation as it would be if nothing were remembered.  `Kernel.reference` works with the
definitions of a kernel, but on terms without identities, so no node can be stamped and
every part is evaluated whenever it is met.

It has no kernel to change, and gives up, with the error that stands for a lack of fuel,

1. where a limit would be hit;
2. on native code with effects, like that of `Emit`, or that looks at the depth;
3. on a call that was rearranged and would not stay as it is if its arguments were
   evaluated once more, in the places they have come to (`Callees.stays`).

Everywhere else it does what the evaluator does (`Proofs.Eval.Recollection`).

What it gives is a fixed point (`Kernel.reference_idempotent`), and more fuel or a greater
depth make no difference where it does not give up (`Proofs.Eval.Extension`).
-/

namespace Termwise

/-! ## normal forms -/

/-- A call threaded over the lists among its arguments, when these are of one length. -/
def Term.threaded? (t : Term) : Option Term :=
  match listLengths t.args with
  | [] => none
  | n :: rest => if rest.all (· == n) then some (list ((List.range n).map t.row)) else none

namespace Evaluator

/-- What the attributes of its head make of a call. -/
def arranged (attrs : Attributes) (call : Term) : Step :=
  match if attrs.has .listable then (spliced attrs call).threaded? else none with
  | some threaded => .rewritten threaded
  | none => .done (rearranged attrs (spliced attrs call))

end Evaluator

open Evaluator

/-! ## one round -/

namespace Callees

section

variable {m : Type → Type} [Monad m] (e : Callees m)

/-- What local rules replace a call of a symbol by. -/
def findLocalRule? (c : ContextId) (s : Symbol) (call : Term) : m (Option Term) := do
  match (← e.kernel).localRules? c s with
  | some list => e.find? list call
  | none => return none

/-- What a symbol is replaced by. -/
def evaluateSymbol (c : ContextId) (s : Symbol) : m (Option Term) := do
  let k ← e.kernel
  if (k.record s).removed then return none
  else
    match (k.localValue? c s).or (k.value? s) with
    | some value => return some value
    | none => e.findRule? s .own (.symbol s)

/-- Format a term by the rules of its topmost symbol. -/
def format (t : Term) : m Term := do
  match t.topmost? with
  | none => return t
  | some s => return (← e.findRule? s .format t).getD t

/-- Evaluate the argument at a position, unless it is held. -/
def evaluateArg (attrs : Attributes) (i : Nat) (t : Term) : m Term :=
  if attrs.has .holdAllComplete || (attrs.holds i && !t.hasHead .evaluate) then e.share t
  else e.evaluate t

/-- Evaluate the arguments that are not held, the first one being at a given position. -/
def evaluateArgs (attrs : Attributes) : Nat → List Term → m (List Term)
  | _, [] => return []
  | i, t :: ts => do return (← e.evaluateArg attrs i t) :: (← evaluateArgs attrs (i + 1) ts)

end

variable (e : Callees (Except EvalError)) (c : ContextId)

/-- Evaluate a term; what it throws is the result. -/
def capture (t : Term) : Except EvalError Term :=
  match e.evaluate t with
  | .error (.thrown value) => .ok value
  | result => result

/-- What native code without effects makes of a call. -/
def run (code : Native) (call : Term) : Except EvalError (Option Term) := do
  match code, call.args with
  | .function f, _ => return f call
  | .raise, [value] => throw (.thrown value)
  | .capture, [body] => some <$> e.capture body
  | .release, [value] => return some value
  | .release, values => return some (.app .sequence values)
  | .isMatch, [t, pattern] => return some (.ofBool (← e.isMatch t pattern))
  | .replace everywhere, t :: rules => do
    match rules.mapM (Rule.ofTerm? (← e.kernel).attributes) with
    | some rules => some <$> e.replace everywhere rules t
    | none => return none
  | .format, [t] => some <$> e.format t
  | .raise, _ | .capture, _ | .isMatch, _ | .replace _, _ | .format, _ => return none
  | _, _ => throw .outOfFuel

/-- What native code of a symbol replaces a call by. -/
def runCode? (usage : CodeUsage) (call : Term) (s : Symbol) : Except EvalError (Option Term) := do
  match ((← e.kernel).record s).code.get usage with
  | some code => e.run code call
  | none => return none

/-- What a call in normal form is replaced by; `head` is the symbol its head evaluated to. -/
def reduce (attrs : Attributes) (head : Option Symbol) (call : Term) :
    Except EvalError (Option Term) :=
  (attempts (fun cache s => e.findRule? s cache call) (fun s => e.findLocalRule? c s call)
    (fun usage s => e.runCode? usage call s) attrs head call).findSomeM? id

/-- The end of a round on a call, given in normal form. -/
def finishCall (attrs : Attributes) (head : Option Symbol) (normal : Term) :
    Except EvalError Step := do
  let normal ← e.share normal
  match ← e.reduce c attrs head normal with
  | some result => return .rewritten result
  | none => return .done normal

/-- Whether a call keeps its head and comes to itself again when its arguments are evaluated and
arranged once more. -/
def stays (attrs : Attributes) (head call : Term) : Bool :=
  match e.evaluateArgs attrs 1 call.args with
  | .ok args =>
    match arranged attrs (.call head args) with
    | .done normal => call.key == head && normal == call
    | .rewritten _ => false
  | .error _ => false

/-- One round on a call whose parts are evaluated. -/
def arrangeCall (attrs : Attributes) (head evaluated : Term) : Except EvalError Step := do
  match arranged attrs evaluated with
  | .rewritten threaded => return .rewritten threaded
  | .done normal =>
    if normal == evaluated || e.stays attrs head normal then
      e.finishCall c attrs (symbol? head) normal
    else throw .outOfFuel

/-- One round on a call. -/
def evaluateParts (call : Term) : Except EvalError Step := do
  let head ← e.evaluate call.key
  let k ← e.kernel
  let attrs := match symbol? head with
    | some s => k.attributes s
    | none => .none
  let args ← e.evaluateArgs attrs 1 call.args
  e.arrangeCall c attrs head (.call head args)

end Callees

/-! ## rounds -/

namespace Reference

variable (E : Nat → Callees (Except EvalError)) (c : ContextId)

/-- The step of a round on a term, when so many more calls may be nested. -/
def roundStep : Nat → Term → Except EvalError Step
  | depth, .symbol s => do
    match ← (E depth).evaluateSymbol c s with
    | some value => return .rewritten value
    | none => return .done (.symbol s)
  | 0, .node .. => throw .outOfFuel
  | depth + 1, .node id head args => (E depth).evaluateParts c (.node id head args)
  | _, t => return .done t

theorem roundStep_symbol (depth : Nat) (s : Symbol) : roundStep E c depth (.symbol s) = (do
    match ← (E depth).evaluateSymbol c s with
    | some value => return .rewritten value
    | none => return .done (.symbol s)) := by
  cases depth <;> rfl

/-- The end of a round on a term: a rewriting that gives back an equal term is none. -/
def endRound (t : Term) : Step → Step
  | .done value => .done value
  | .rewritten next => if next == t then .done next.strip else .rewritten next.strip

/-- One round on a term. -/
def evaluateRound (depth : Nat) (t : Term) : Except EvalError Step := do
  return endRound t.strip (← roundStep E c depth t.strip)

/-- Rounds on a term, with so many rewritings left. -/
def evaluateRounds (depth : Nat) : Nat → Term → Except EvalError Term
  | 0, t => do
    match ← evaluateRound E c depth t with
    | .done value => return value
    | .rewritten _ => throw .outOfFuel
  | left + 1, t => do
    match ← evaluateRound E c depth t with
    | .done value => return value
    | .rewritten next => evaluateRounds depth left next

end Reference

/-- What evaluation in a context calls itself by, where nothing is remembered: evaluation and
rewriting nest as deep as there is fuel, and calls as deep as is said besides. -/
def Kernel.reference (k : Kernel) (c : ContextId) : Nat → Nat → Callees (Except EvalError)
  | 0, _ =>
    { kernel := return k, share := fun t => return t.strip, poll := return ()
      evaluate := fun _ => throw .outOfFuel
      rewrite := fun _ _ _ => throw .outOfFuel }
  | fuel + 1, depth =>
    { kernel := return k, share := fun t => return t.strip, poll := return ()
      evaluate := Reference.evaluateRounds (k.reference c fuel) c depth k.config.maxIterations
      rewrite := (k.reference c fuel depth).rewriteWith }

theorem Except.exists_of_bind_eq_ok {ε α β : Type} {x : Except ε α} {f : α → Except ε β} {b : β}
    (h : (x >>= f) = .ok b) : ∃ a, x = .ok a ∧ f a = .ok b := by
  cases x with
  | ok a => exact ⟨a, rfl, h⟩
  | error e => cases h

theorem Except.bind_ok {ε α β : Type} (a : α) (f : α → Except ε β) :
    ((.ok a : Except ε α) >>= f) = f a := rfl

/-! ## fixed points -/

theorem Term.hasHead_strip (t : Term) (s : Symbol) : t.strip.hasHead s = t.hasHead s := by
  cases t with
  | node i f xs => exact Term.isSymbol_strip f s
  | _ => rfl

namespace Callees

/-- Evaluation works on terms without identities, and what it gives evaluates to itself. -/
structure Idempotent (e : Callees (Except EvalError)) : Prop where
  share : ∀ t, e.share t = .ok t.strip
  evaluate_strip : ∀ t, e.evaluate t.strip = e.evaluate t
  strip_eq : ∀ {t v}, e.evaluate t = .ok v → v.strip = v
  evaluate_eq : ∀ {t v}, e.evaluate t = .ok v → e.evaluate v = .ok v

variable {e : Callees (Except EvalError)} {c : ContextId} {attrs : Attributes} {i : Nat}
  {ts vs xs args : List Term} {t v f head evaluated normal normal' : Term}

theorem Idempotent.evaluateArg_strip (he : e.Idempotent) (attrs : Attributes) (i : Nat)
    (t : Term) : e.evaluateArg attrs i t.strip = e.evaluateArg attrs i t := by
  rw [evaluateArg, evaluateArg, Term.hasHead_strip, he.share, he.share, he.evaluate_strip,
    Term.strip_strip]

theorem Idempotent.evaluateArgs_strip (he : e.Idempotent) (attrs : Attributes) (i : Nat)
    (ts : List Term) : e.evaluateArgs attrs i (ts.map Term.strip) = e.evaluateArgs attrs i ts := by
  induction ts generalizing i with
  | nil => rfl
  | cons t ts ih => rw [List.map_cons, evaluateArgs, evaluateArgs, he.evaluateArg_strip, ih]

/-- A held argument is held again, and an evaluated one is a fixed point. -/
theorem Idempotent.evaluateArg_idem (he : e.Idempotent) (h : e.evaluateArg attrs i t = .ok v) :
    v.strip = v ∧ e.evaluateArg attrs i v = .ok v := by
  unfold evaluateArg at h ⊢
  split at h
  · rename_i hheld
    rw [he.share] at h
    cases h
    rw [Term.hasHead_strip, if_pos hheld, he.share, Term.strip_strip]
    exact ⟨rfl, rfl⟩
  · refine ⟨he.strip_eq h, ?_⟩
    split
    · rw [he.share, he.strip_eq h]
    · exact he.evaluate_eq h

/-- Arguments that were evaluated, or held, are left alone in the same places. -/
theorem Idempotent.evaluateArgs_idem (he : e.Idempotent) (h : e.evaluateArgs attrs i ts = .ok vs) :
    vs.map Term.strip = vs ∧ e.evaluateArgs attrs i vs = .ok vs := by
  induction ts generalizing i vs with
  | nil =>
      cases h
      exact ⟨rfl, rfl⟩
  | cons t ts ih =>
      obtain ⟨v, hv, h⟩ := Except.exists_of_bind_eq_ok h
      obtain ⟨rest, hrest, h⟩ := Except.exists_of_bind_eq_ok h
      cases h
      obtain ⟨hstrip, harg⟩ := he.evaluateArg_idem hv
      obtain ⟨hstrips, hargs⟩ := ih hrest
      rw [List.map_cons, hstrip, hstrips, evaluateArgs, harg, hargs]
      exact ⟨rfl, rfl⟩

theorem Idempotent.finishCall_congr (he : e.Idempotent) (c : ContextId) (attrs : Attributes)
    (head : Option Symbol) (h : normal.strip = normal'.strip) :
    e.finishCall c attrs head normal = e.finishCall c attrs head normal' := by
  rw [finishCall, finishCall, he.share, he.share, h]

theorem Idempotent.eq_of_finishCall (he : e.Idempotent) {head : Option Symbol}
    (h : e.finishCall c attrs head normal = .ok (.done v)) : v = normal.strip := by
  rw [finishCall, he.share] at h
  obtain ⟨shared, hshared, h⟩ := Except.exists_of_bind_eq_ok h
  obtain ⟨result, -, h⟩ := Except.exists_of_bind_eq_ok h
  cases hshared
  cases result with
  | none => exact (Step.done.inj (Except.ok.inj h)).symm
  | some result => cases h

end Callees

/-- The normal form of a call is a call. -/
theorem Evaluator.exists_rearranged (attrs : Attributes) (i : Nat) (f : Term) (xs : List Term) :
    ∃ j g ys, rearranged attrs (spliced attrs (.node i f xs)) = .node j g ys := by
  have hspliced : ∃ j g ys, spliced attrs (.node i f xs) = .node j g ys := by
    unfold spliced Term.spliceSequences
    split
    · exact ⟨_, _, _, rfl⟩
    split
    · cases List.flatMap _ _ <;> exact ⟨_, _, _, rfl⟩
    · exact ⟨_, _, _, rfl⟩
  obtain ⟨j, g, ys, hspliced⟩ := hspliced
  have hflat : ∃ j' g' ys', (if attrs.has .flat then (Term.node j g ys).flatten
      else .node j g ys) = .node j' g' ys' := by
    unfold Term.flatten
    split
    · split <;> exact ⟨_, _, _, rfl⟩
    · exact ⟨_, _, _, rfl⟩
  obtain ⟨j', g', ys', hflat⟩ := hflat
  unfold rearranged
  dsimp only
  rw [hspliced, hflat, Term.sortArgs]
  split
  · split <;> exact ⟨_, _, _, rfl⟩
  · exact ⟨_, _, _, rfl⟩

theorem Evaluator.exists_arranged_done {attrs : Attributes} {f normal : Term} {xs : List Term}
    (h : arranged attrs (.call f xs) = .done normal) : ∃ j g ys, normal = .node j g ys := by
  unfold arranged at h
  split at h
  · cases h
  · obtain ⟨j, g, ys, hnode⟩ := exists_rearranged attrs 0 f xs
    exact ⟨j, g, ys, (Step.done.inj h).symm.trans hnode⟩

namespace Callees

variable {e : Callees (Except EvalError)} {c : ContextId} {attrs : Attributes} {i : Nat}
  {xs args : List Term} {v f head evaluated normal normal' : Term}

theorem exists_of_stays (h : e.stays attrs head normal = true) : ∃ args normal',
    e.evaluateArgs attrs 1 normal.args = .ok args ∧
      arranged attrs (.call head args) = .done normal' ∧
      normal.key.strip = head.strip ∧ normal'.strip = normal.strip := by
  unfold stays at h
  split at h
  · rename_i args hargs
    split at h
    · rename_i normal' harranged
      rw [Bool.and_eq_true, Term.beq_iff_strip, Term.beq_iff_strip] at h
      exact ⟨args, normal', hargs, harranged, h⟩
    · cases h
  · cases h

/-- A call that looks like one that stays as it is stays as well. -/
theorem Idempotent.stays_of_strip_eq (he : e.Idempotent) (h : e.stays attrs head normal = true)
    (heq : normal'.strip = normal.strip) : e.stays attrs head normal' = true := by
  obtain ⟨args, again, hargs, harranged, hkey, hagain⟩ := exists_of_stays h
  have hlike : Likeness.bare.Like () normal' normal := heq
  have hargs' : e.evaluateArgs attrs 1 normal'.args = .ok args := by
    rw [← hargs, ← he.evaluateArgs_strip, ← he.evaluateArgs_strip attrs 1 normal.args,
      ← Term.args_strip, ← Term.args_strip, heq]
  have hkey' : (normal'.key == head) = true :=
    (Term.beq_iff_strip _ _).mpr ((Likeness.like_key hlike).trans hkey)
  have hsame : (again == normal') = true :=
    (Term.beq_iff_strip _ _).mpr (hagain.trans heq.symm)
  rw [stays, hargs']
  dsimp only
  rw [harranged]
  dsimp only
  rw [hkey', hsame, Bool.and_self]

/-- A call that stays as it is comes to itself in one more round. -/
theorem Idempotent.arrangeCall_of_stays (he : e.Idempotent)
    (h : e.stays attrs head normal = true) : ∃ args,
      e.evaluateArgs attrs 1 normal.args = .ok args ∧ normal.key.strip = head.strip ∧
      e.arrangeCall c attrs head (.call head args) =
        e.finishCall c attrs (symbol? head) normal := by
  obtain ⟨args, normal', hargs, harranged, hkey, heq⟩ := exists_of_stays h
  refine ⟨args, hargs, hkey, ?_⟩
  rw [arrangeCall, harranged]
  dsimp only
  rw [he.stays_of_strip_eq h heq, Bool.or_true, if_pos rfl]
  exact he.finishCall_congr c attrs _ heq

/-- Where a round ends with a call, its head is the one that was evaluated, and from its arguments
the same comes of it again. -/
theorem Idempotent.arrangeCall_done (he : e.Idempotent) (hhead : head.strip = head)
    (hargs : args.map Term.strip = args) (hagain : e.evaluateArgs attrs 1 args = .ok args)
    (h : e.arrangeCall c attrs head (.call head args) = .ok (.done v)) : ∃ ys args',
      v = .node 0 head ys ∧ v.strip = v ∧ e.evaluateArgs attrs 1 ys = .ok args' ∧
      e.arrangeCall c attrs head (.call head args') = .ok (.done v) := by
  have harrange := h
  rw [arrangeCall] at h
  cases harranged : arranged attrs (.call head args) with
  | rewritten threaded =>
      rw [harranged] at h
      cases h
  | done normal =>
      rw [harranged] at h
      dsimp only at h
      split at h
      case isFalse => cases h
      case isTrue hsettles =>
        have hv := he.eq_of_finishCall h
        have hstrip : v.strip = v := by rw [hv, Term.strip_strip]
        rcases (Bool.or_eq_true _ _).mp hsettles with hsame | hstays
        · have hcall : v = .node 0 head args := by
            rw [hv, (Term.beq_iff_strip _ _).mp hsame, Term.strip_call, hhead, hargs]
            rfl
          exact ⟨args, args, hcall, hstrip, hagain, harrange⟩
        · obtain ⟨args', hargs', hkey, hcall⟩ := he.arrangeCall_of_stays (c := c) hstays
          obtain ⟨j, g, ys, hnode⟩ := exists_arranged_done harranged
          subst hnode
          refine ⟨ys.map Term.strip, args', ?_, hstrip, ?_, hcall.trans h⟩
          · rw [hv, Term.strip, Term.stripAll_eq_map, ← hhead, ← hkey]
            rfl
          · rwa [he.evaluateArgs_strip]

/-- A call that a round ends with is what one more round ends with. -/
theorem Idempotent.evaluateParts_idem (he : e.Idempotent)
    (h : e.evaluateParts c (.node i f xs) = .ok (.done v)) : ∃ g ys, v = .node 0 g ys ∧
      v.strip = v ∧ e.evaluateParts c v = .ok (.done v) := by
  obtain ⟨head, hhead, h⟩ := Except.exists_of_bind_eq_ok h
  obtain ⟨k, hk, h⟩ := Except.exists_of_bind_eq_ok h
  obtain ⟨args, hargs, h⟩ := Except.exists_of_bind_eq_ok h
  obtain ⟨hstrip, hagain⟩ := he.evaluateArgs_idem hargs
  obtain ⟨ys, args', hv, hvStrip, hys, hcall⟩ :=
    he.arrangeCall_done (he.strip_eq hhead) hstrip hagain h
  refine ⟨head, ys, hv, hvStrip, ?_⟩
  rw [hv, evaluateParts, Term.key, Term.args, he.evaluate_eq hhead, Except.bind_ok, hk,
    Except.bind_ok]
  dsimp only
  rw [hys, Except.bind_ok, hcall, hv]

end Callees

/-! ## rounds that are done -/

namespace Reference

variable {E : Nat → Callees (Except EvalError)} {c : ContextId} {depth : Nat} {t v : Term}

theorem evaluateRound_strip (E : Nat → Callees (Except EvalError)) (c : ContextId) (depth : Nat)
    (t : Term) : evaluateRound E c depth t.strip = evaluateRound E c depth t := by
  rw [evaluateRound, evaluateRound, Term.strip_strip]

theorem evaluateRounds_strip (E : Nat → Callees (Except EvalError)) (c : ContextId)
    (depth left : Nat) (t : Term) :
    evaluateRounds E c depth left t.strip = evaluateRounds E c depth left t := by
  cases left <;> rw [evaluateRounds, evaluateRounds, evaluateRound_strip]

/-- What a round ends with is what one more round ends with. -/
theorem evaluateRound_idem (hE : ∀ depth, (E depth).Idempotent)
    (h : evaluateRound E c depth t = .ok (.done v)) :
    v.strip = v ∧ evaluateRound E c depth v = .ok (.done v) := by
  have hround := h
  obtain ⟨step, hstep, h⟩ := Except.exists_of_bind_eq_ok h
  have hend := Except.ok.inj h
  -- a term that is given back is the one that the round is about
  have hsame : v = t.strip → v.strip = v ∧ evaluateRound E c depth v = .ok (.done v) := by
    rintro rfl
    exact ⟨t.strip_strip, by rw [evaluateRound_strip, hround]⟩
  cases step with
  | rewritten next =>
      rw [endRound] at hend
      split at hend
      · rename_i hnext
        rw [Term.beq_iff_strip, Term.strip_strip] at hnext
        exact hsame ((Step.done.inj hend).symm.trans hnext)
      · cases hend
  | done value =>
      cases hend
      generalize hu : t.strip = u at hstep hsame
      cases u with
      | symbol s =>
          obtain ⟨result, -, hstep⟩ := Except.exists_of_bind_eq_ok hstep
          cases result with
          | none => exact hsame (Step.done.inj (Except.ok.inj hstep)).symm
          | some result => cases hstep
      | node i f xs =>
          cases depth with
          | zero => cases hstep
          | succ depth =>
              obtain ⟨g, ys, rfl, hstrip, hagain⟩ := (hE depth).evaluateParts_idem hstep
              refine ⟨hstrip, ?_⟩
              rw [evaluateRound, hstrip, roundStep, hagain]
              rfl
      | _ =>
          have hvalue : t.strip = v := by
            cases depth <;> exact hu.trans (Step.done.inj (Except.ok.inj hstep))
          exact hsame (hu ▸ hvalue.symm)

theorem evaluateRounds_of_done (h : evaluateRound E c depth t = .ok (.done v)) (left : Nat) :
    evaluateRounds E c depth left t = .ok v := by
  cases left <;> rw [evaluateRounds, h] <;> rfl

/-- What rounds end with is what one more round ends with. -/
theorem evaluateRounds_idem (hE : ∀ depth, (E depth).Idempotent) {left : Nat}
    (h : evaluateRounds E c depth left t = .ok v) :
    v.strip = v ∧ evaluateRound E c depth v = .ok (.done v) := by
  induction left generalizing t with
  | zero =>
      obtain ⟨step, hstep, h⟩ := Except.exists_of_bind_eq_ok h
      cases step with
      | done value =>
          cases h
          exact evaluateRound_idem hE hstep
      | rewritten next => cases h
  | succ left ih =>
      obtain ⟨step, hstep, h⟩ := Except.exists_of_bind_eq_ok h
      cases step with
      | done value =>
          cases h
          exact evaluateRound_idem hE hstep
      | rewritten next => exact ih h

end Reference

namespace Kernel

/-- What reference evaluation gives evaluates to itself. -/
theorem reference_idempotent (k : Kernel) (c : ContextId) (fuel depth : Nat) :
    (k.reference c fuel depth).Idempotent := by
  induction fuel generalizing depth with
  | zero => exact ⟨fun _ => rfl, fun _ => rfl, nofun, nofun⟩
  | succ fuel ih =>
      refine ⟨fun _ => rfl, Reference.evaluateRounds_strip _ c depth _, fun h => ?_, fun h => ?_⟩
      · exact (Reference.evaluateRounds_idem ih h).1
      · exact Reference.evaluateRounds_of_done (Reference.evaluateRounds_idem ih h).2 _

end Kernel

end Termwise
