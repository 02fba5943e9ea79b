import Termwise.Proofs.Eval.Reference

/-!
# Termwise.Proofs.Eval.Extension

Reference evaluation with more fuel, more rewritings left or more calls that may be nested
does what it did before, or gives up no longer (`Kernel.extend_reference`).  So of two
evaluations of one term that do not give up, whatever their limits, both give the same.
-/

namespace Termwise

open Evaluator

/-- The first action gives up, or the two do the same. -/
def givingUp : Congruence (Except EvalError) (Except EvalError) where
  Alike x y := x = .error .outOfFuel ∨ x = y
  alike_pure _ := .inr rfl
  alike_bind {α β x y f g} hx hf := by
    rcases hx with rfl | rfl
    · exact .inl rfl
    · cases x with
      | ok a => exact hf a
      | error e => exact .inr rfl

namespace Callees

/-- Where the first callees do not give up, the second do the same. -/
structure Extend (e e' : Callees (Except EvalError)) : Prop where
  alike : e.Alike e' givingUp fun _ => True
  evaluate : ∀ t, givingUp.Alike (e.evaluate t) (e'.evaluate t)
  rewrite : e.RewritesAlike e' givingUp fun _ _ => True

variable {e e' : Callees (Except EvalError)} (h : e.Extend e') (c : ContextId)
  (attrs : Attributes)

include h

/-! ### lookups and searches -/

theorem Extend.find? (list : RuleList) (t : Term) :
    givingUp.Alike (e.find? list t) (e'.find? list t) :=
  alike_find? h.alike h.rewrite list.all_true t

theorem Extend.findRule? (s : Symbol) (cache : RuleCache) (t : Term) :
    givingUp.Alike (e.findRule? s cache t) (e'.findRule? s cache t) :=
  alike_findRule? h.alike h.rewrite (rules_true _ cache) s t

theorem Extend.findLocalRule? (s : Symbol) (t : Term) :
    givingUp.Alike (e.findLocalRule? c s t) (e'.findLocalRule? c s t) := by
  refine h.alike.kernel fun k _ => ?_
  cases k.localRules? c s with
  | some list => exact h.find? list t
  | none => exact .inr rfl

theorem Extend.surroundings :
    e.surroundings.Alike e'.surroundings (givingUp.state SearchState) True True :=
  alike_surroundings h.alike (fun _ => h.evaluate)
    fun _ => alike_default? h.alike h.rewrite (rules_true _ .default)

theorem Extend.rewriteWith (lhs rhs t : Term) :
    givingUp.Alike (e.rewriteWith lhs rhs t) (e'.rewriteWith lhs rhs t) :=
  alike_rewriteWith h.surroundings h.alike.share (Pattern.every_asks_ofTerm lhs)
    (fun _ => trivial) t

theorem Extend.isMatch (t pattern : Term) :
    givingUp.Alike (e.isMatch t pattern) (e'.isMatch t pattern) :=
  givingUp.alike_bind (alike_match? h.surroundings t pattern) fun _ => .inr rfl

/-! ### native code -/

theorem Extend.capture (t : Term) : givingUp.Alike (e.capture t) (e'.capture t) := by
  unfold Callees.capture
  rcases h.evaluate t with hout | hsame
  · rw [hout]
    exact .inl rfl
  · rw [hsame]
    exact .inr rfl

theorem Extend.format (t : Term) : givingUp.Alike (e.format t) (e'.format t) := by
  unfold Callees.format
  cases t.topmost? with
  | none => exact .inr rfl
  | some s => exact givingUp.alike_bind (h.findRule? s .format t) fun _ => .inr rfl

theorem Extend.run (code : Native) (t : Term) : givingUp.Alike (e.run code t) (e'.run code t) := by
  unfold Callees.run
  split
  case h_3 body _ => exact Congruence.alike_map some (h.capture body)
  case h_6 t pattern _ =>
    exact givingUp.alike_bind (h.isMatch t pattern) fun _ => .inr rfl
  case h_7 everywhere t rules _ =>
    refine h.alike.kernel fun k _ => ?_
    split
    · exact Congruence.alike_map some (alike_replace h.rewrite everywhere _ t)
    · exact .inr rfl
  case h_8 t _ => exact Congruence.alike_map some (h.format t)
  all_goals exact .inr rfl

theorem Extend.runCode? (usage : CodeUsage) (t : Term) (s : Symbol) :
    givingUp.Alike (e.runCode? usage t s) (e'.runCode? usage t s) := by
  refine h.alike.kernel fun k _ => ?_
  split
  · exact h.run _ t
  · exact .inr rfl

/-! ### calls -/

theorem Extend.reduce (head : Option Symbol) (t : Term) :
    givingUp.Alike (e.reduce c attrs head t) (e'.reduce c attrs head t) :=
  Congruence.alike_findSomeM?_forall₂ (forall₂_attempts (fun cache s => h.findRule? s cache t)
    (fun s => h.findLocalRule? c s t) (fun usage s => h.runCode? usage t s) rfl rfl head)

theorem Extend.finishCall (head : Option Symbol) (t : Term) :
    givingUp.Alike (e.finishCall c attrs head t) (e'.finishCall c attrs head t) :=
  givingUp.alike_bind (h.alike.share t) fun t =>
    givingUp.alike_bind (h.reduce c attrs head t) fun _ => .inr rfl

theorem Extend.evaluateArgs (i : Nat) (ts : List Term) :
    givingUp.Alike (e.evaluateArgs attrs i ts) (e'.evaluateArgs attrs i ts) := by
  induction ts generalizing i with
  | nil => exact .inr rfl
  | cons t ts ih =>
      have harg : givingUp.Alike (e.evaluateArg attrs i t) (e'.evaluateArg attrs i t) := by
        unfold evaluateArg
        split
        · exact h.alike.share t
        · exact h.evaluate t
      exact givingUp.alike_bind harg fun _ => givingUp.alike_bind (ih (i + 1)) fun _ => .inr rfl

/-- A call that stays as it is still does. -/
theorem Extend.stays {head t : Term} (hstays : e.stays attrs head t = true) :
    e'.stays attrs head t = true := by
  unfold Callees.stays at hstays ⊢
  rcases h.evaluateArgs attrs 1 t.args with hout | hsame
  · rw [hout] at hstays
    cases hstays
  · rwa [← hsame]

theorem Extend.arrangeCall (head t : Term) :
    givingUp.Alike (e.arrangeCall c attrs head t) (e'.arrangeCall c attrs head t) := by
  unfold Callees.arrangeCall
  split
  · exact .inr rfl
  · split
    · rename_i hsettles
      have hsettles' := ((Bool.or_eq_true _ _).mp hsettles).imp_right (h.stays attrs)
      rw [if_pos ((Bool.or_eq_true _ _).mpr hsettles')]
      exact h.finishCall c attrs (symbol? head) _
    · exact .inl rfl

omit attrs in
theorem Extend.evaluateParts (t : Term) :
    givingUp.Alike (e.evaluateParts c t) (e'.evaluateParts c t) :=
  givingUp.alike_bind (h.evaluate t.key) fun head => h.alike.kernel fun _ _ =>
    givingUp.alike_bind (h.evaluateArgs _ 1 t.args) fun _ => h.arrangeCall c _ head _

theorem Extend.evaluateSymbol (s : Symbol) :
    givingUp.Alike (e.evaluateSymbol c s) (e'.evaluateSymbol c s) := by
  refine h.alike.kernel fun k _ => ?_
  split
  · exact .inr rfl
  · split
    · exact .inr rfl
    · exact h.findRule? s .own (.symbol s)

end Callees

namespace Reference

variable {E E' : Nat → Callees (Except EvalError)} {depth depth' : Nat}

theorem alike_roundStep (hE : ∀ {depth depth'}, depth ≤ depth' → (E depth).Extend (E' depth'))
    (c : ContextId) (hdepth : depth ≤ depth') (t : Term) :
    givingUp.Alike (roundStep E c depth t) (roundStep E' c depth' t) := by
  cases t with
  | symbol s =>
      rw [roundStep_symbol, roundStep_symbol]
      exact givingUp.alike_bind ((hE hdepth).evaluateSymbol c s) fun _ => .inr rfl
  | node i f xs =>
      cases depth with
      | zero => exact .inl rfl
      | succ depth =>
          cases depth' with
          | zero => cases hdepth
          | succ depth' => exact (hE (Nat.le_of_succ_le_succ hdepth)).evaluateParts c _
  | _ =>
      refine .inr ?_
      cases depth <;> cases depth' <;> rfl

theorem alike_evaluateRound (hE : ∀ {depth depth'}, depth ≤ depth' → (E depth).Extend (E' depth'))
    (c : ContextId) (hdepth : depth ≤ depth') (t : Term) :
    givingUp.Alike (evaluateRound E c depth t) (evaluateRound E' c depth' t) :=
  givingUp.alike_bind (alike_roundStep hE c hdepth t.strip) fun _ => .inr rfl

theorem alike_evaluateRounds (hE : ∀ {depth depth'}, depth ≤ depth' → (E depth).Extend (E' depth'))
    (c : ContextId) (hdepth : depth ≤ depth') {left left' : Nat} (hleft : left ≤ left') (t : Term) :
    givingUp.Alike (evaluateRounds E c depth left t) (evaluateRounds E' c depth' left' t) := by
  have hround := alike_evaluateRound hE c hdepth
  induction left generalizing left' t with
  | zero =>
      cases left' <;> refine givingUp.alike_bind (hround t) fun step => ?_ <;> cases step
      case zero.done | succ.done => exact .inr rfl
      case zero.rewritten | succ.rewritten => exact .inl rfl
  | succ left ih =>
      cases left' with
      | zero => cases hleft
      | succ left' =>
          refine givingUp.alike_bind (hround t) fun step => ?_
          cases step with
          | done value => exact .inr rfl
          | rewritten next => exact ih (Nat.le_of_succ_le_succ hleft) next

end Reference

namespace Kernel

/-- With more fuel and at a greater depth the reference does the same, or gives up no longer. -/
theorem extend_reference (k : Kernel) (c : ContextId) {fuel fuel' depth depth' : Nat}
    (hfuel : fuel ≤ fuel') (hdepth : depth ≤ depth') :
    (k.reference c fuel depth).Extend (k.reference c fuel' depth') := by
  have halike : ∀ fuel fuel' depth depth', (k.reference c fuel depth).Alike
      (k.reference c fuel' depth') givingUp fun _ => True := by
    intro fuel fuel' depth depth'
    cases fuel <;> cases fuel' <;>
      exact ⟨fun h => h k trivial, fun _ => .inr rfl, .inr rfl⟩
  induction fuel generalizing fuel' depth depth' with
  | zero => exact ⟨halike _ _ _ _, fun _ => .inl rfl, fun _ _ _ _ => .inl rfl⟩
  | succ fuel ih =>
      cases fuel' with
      | zero => cases hfuel
      | succ fuel' =>
          have hE : ∀ {depth depth'}, depth ≤ depth' →
              (k.reference c fuel depth).Extend (k.reference c fuel' depth') :=
            ih (Nat.le_of_succ_le_succ hfuel)
          exact ⟨halike _ _ _ _, Reference.alike_evaluateRounds hE c hdepth le_rfl,
            fun lhs rhs t _ => (hE hdepth).rewriteWith lhs rhs t⟩

end Kernel

end Termwise
