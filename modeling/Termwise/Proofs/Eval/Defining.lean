import Termwise.Proofs.Eval.Atomic
import Termwise.Proofs.Eval.Contract

/-!
# Termwise.Proofs.Eval.Defining

What definition calls keep.  Besides evaluating a right-hand side they look for defects,
share nodes, bind symbols in contexts, set values, and add and remove rules; so a contract
that allows for these (`Contract.Defining`) is kept by all of them.

Many contracts do not ask how an action has ended (`Contract.always`).  For these the
changes that a symbol may refuse come down to changes that it lets through.
-/

namespace Termwise

/-! ## targets -/

/-- No left-hand side defines an approximation. -/
theorem Pattern.target_ne_approx {s : Symbol} {cache : RuleCache} :
    ∀ {p : Pattern}, p.target = .ok (s, cache) → cache ≠ .approx
  | .hold p, h | .condition p _, h => target_ne_approx (p := p) h
  | .call whole _ _, h => by
      rw [target] at h
      split at h
      · cases h
        exact nofun
      · split at h
        · split at h
          · cases h
          · cases h
            exact nofun
        · cases h
  | .atom a, h => by
      cases a with
      | symbol s =>
          cases h
          exact nofun
      | _ => cases h

theorem definitionTarget_ne_approx {lhs : Term} {s : Symbol} {cache : RuleCache} {k k' : Kernel}
    (h : (definitionTarget lhs).run k = (.ok (s, cache), k')) : cache ≠ .approx := by
  unfold definitionTarget at h
  cases htarget : (Pattern.ofTerm lhs).target with
  | ok target =>
      rw [htarget] at h
      cases h
      exact Pattern.target_ne_approx htarget
  | error e =>
      rw [htarget] at h
      cases h

namespace Contract

/-! ## contracts for all outcomes -/

/-- Every action leaves kernels in a relation, however it ends. -/
def always (R : Kernel → Kernel → Prop) (refl : ∀ k, R k k)
    (trans : ∀ {k k' k'' : Kernel}, R k k' → R k' k'' → R k k'') : Contract where
  Ok := R
  Fails _ := R
  refl := refl
  trans := trans
  trans_fails := trans

section Always

variable {α : Type} {R : Kernel → Kernel → Prop} {refl : ∀ k, R k k}
  {trans : ∀ {k k' k'' : Kernel}, R k k' → R k' k'' → R k k''} {k k' : Kernel} {x : EvalM α}

theorem always_leaves_iff {result : Except EvalError α} :
    (always R refl trans).Leaves k result k' ↔ R k k' := by
  cases result <;> exact Iff.rfl

theorem agreeFrom_always_iff : (always R refl trans).AgreeFrom k x x ↔ R k (x.run k).2 :=
  ⟨fun h => always_leaves_iff.mp h.leaves, fun h => ⟨rfl, always_leaves_iff.mpr h⟩⟩

end Always

/-! ## contracts that allow for definitions -/

/-- A contract allows for what definition calls do, but for adding rules. -/
structure Defining (C : Contract) : Prop where
  share : ∀ t, C.Calm (share t)
  /-- A left-hand side may be refused. -/
  refuses : ∀ e k, C.Fails (.pattern e) k k
  setLocal : ∀ (k : Kernel) c s value, C.Ok k (k.setLocal c s value)
  unsetLocal : ∀ (k : Kernel) c s, C.Ok k (k.unsetLocal c s).2
  setValue : ∀ s value, C.Calm (change fun k => k.setValue s value)
  removeRule : ∀ s cache attrs lhs,
    C.Calm (changeRules s .write cache fun list => list.remove attrs lhs)

namespace Defining

variable {C : Contract} (h : C.Defining) (c : ContextId)

include h

theorem calm_validate (lhs : Term) : C.Calm (validate lhs) := by
  unfold validate
  cases lhs.defect? with
  | none => exact calm_pure _
  | some e => exact calm_throw (h.refuses e)

theorem calm_definitionTarget (lhs : Term) : C.Calm (definitionTarget lhs) := by
  unfold definitionTarget
  cases (Pattern.ofTerm lhs).target with
  | ok target => exact calm_pure target
  | error e => exact calm_throw (h.refuses e)

theorem calm_storeRule (s : Symbol) (cache : RuleCache) (mode : AccessMode)
    (hinsert : ∀ rule, C.Calm (insertRule s mode cache rule)) (lhs rhs : Term) (kind : RuleKind) :
    C.Calm (storeRule s cache mode lhs rhs kind) := by
  have hrule : C.Calm (makeRule lhs rhs kind) :=
    calm_bind (h.share lhs) fun _ => calm_bind (h.share rhs) fun _ =>
      calm_bind calm_get fun _ => calm_pure _
  exact calm_bind hrule fun rule => calm_bind (hinsert rule) fun _ => calm_pure _

/-- Rules for approximation are not what a left-hand side can define. -/
theorem calm_define (hinsert : ∀ s cache rule, cache ≠ .approx →
      C.Calm (insertRule s .write cache rule)) (lhs rhs : Term) (kind : RuleKind) :
    C.Calm (define c lhs rhs kind) := by
  refine calm_bind (h.calm_validate lhs) fun _ k => ?_
  refine (h.calm_definitionTarget lhs k).bind fun (s, cache) k' htarget _ => ?_
  refine iteInduction (motive := C.Calm) (fun _ => ?_) (fun _ => ?_) k'
  · refine calm_bind (h.share rhs) fun value => calm_bind calm_get fun k => ?_
    exact iteInduction (motive := C.Calm) (fun _ => calm_modify fun k => h.setLocal k c s value)
      fun _ => h.setValue s _
  · have hcache := definitionTarget_ne_approx htarget
    exact h.calm_storeRule s cache .write (fun rule => hinsert s cache rule hcache) lhs rhs kind

theorem calm_assignUp (tag : Symbol) (hinsert : ∀ rule, C.Calm (insertRule tag .write .up rule))
    (lhs rhs : Term) : C.Calm (assignUp tag lhs rhs) :=
  calm_bind (h.calm_validate lhs) fun _ => iteInduction (motive := C.Calm)
    (fun _ => h.calm_storeRule tag _ _ hinsert lhs rhs _) fun _ => calm_throw (h.refuses _)

theorem calm_clearValue (lhs : Term) (s : Symbol) : C.Calm (clearValue c lhs s) := by
  have hunset : C.Calm (modifyGet fun k => k.unsetLocal c s) :=
    calm_modifyGet fun k => h.unsetLocal k c s
  refine iteInduction (motive := C.Calm) (fun _ => calm_bind calm_get fun k => ?_)
    fun _ => calm_pure _
  refine iteInduction (motive := C.Calm) (fun _ => calm_bind hunset fun _ => calm_pure _)
    fun _ => calm_bind calm_get fun k => ?_
  exact iteInduction (motive := C.Calm)
    (fun _ => calm_bind (h.setValue s none) fun _ => calm_pure _) fun _ => calm_pure _

theorem calm_removeRules (lhs : Term) (s : Symbol) (cache : RuleCache) (cleared : Bool) :
    C.Calm (removeRules lhs s cache cleared) :=
  calm_bind calm_get fun _ => iteInduction (motive := C.Calm)
    (fun _ => calm_bind calm_get fun _ => calm_bind (h.removeRule s cache _ lhs) fun _ =>
      calm_pure _)
    fun _ => calm_pure _

theorem calm_unassign (lhs : Term) : C.Calm (unassign c lhs) := by
  rw [unassign_eq]
  exact calm_bind (h.calm_definitionTarget lhs) fun target =>
    calm_bind (h.calm_clearValue c lhs target.1) fun _ => h.calm_removeRules lhs target.1 _ _

/-- A definition call keeps to the contract if adding rules, evaluating a right-hand side and
setting attributes do. -/
theorem agreeFrom_perform (hinsert : ∀ s mode cache rule, C.Calm (insertRule s mode cache rule))
    {k : Kernel} {r : Evaluator} (call : DefinitionCall)
    (hvalue : ∀ t, C.AgreeFrom k (r.evaluate c t) (r.evaluate c t))
    (hattrs : ∀ s attrs, call = .setAttributes s attrs →
      C.AgreeFrom k (change fun k => k.setAttributes s attrs)
        (change fun k => k.setAttributes s attrs)) :
    C.AgreeFrom k (call.perform r c) (call.perform r c) := by
  have hdefine := h.calm_define c fun s cache rule _ => hinsert s .write cache rule
  have hstore := fun s cache mode => h.calm_storeRule s cache mode (hinsert s mode cache)
  cases call with
  | assign lhs rhs =>
      exact (hvalue rhs).bind fun value k' _ _ => hdefine lhs value _ k'
  | assignDelayed lhs rhs => exact hdefine lhs rhs .delayed k
  | assignUp tag lhs rhs => exact h.calm_assignUp tag (hinsert tag .write .up) lhs rhs k
  | assignApprox s lhs rhs | assignFormat s lhs rhs =>
      exact calm_bind (h.calm_validate lhs) (fun _ => hstore s _ _ lhs rhs _) k
  | setDefault s key value => exact hstore s _ _ key value _ k
  | unassign lhs => exact calm_bind (h.calm_unassign c lhs) (fun _ => calm_pure _) k
  | setAttributes s attrs => exact hattrs s attrs rfl
  | setValue s value => exact h.setValue s value k

end Defining

/-! ## single changes -/

section Changes

variable {R : Kernel → Kernel → Prop} {refl : ∀ k, R k k}
  {trans : ∀ {k k' k'' : Kernel}, R k k' → R k' k'' → R k k''}

theorem agreeFrom_change {f : Kernel → Except SymbolError Kernel} {k : Kernel}
    (hf : ∀ k', f k = .ok k' → R k k') :
    (always R refl trans).AgreeFrom k (change f) (change f) := by
  rw [agreeFrom_always_iff, run_change]
  cases h : f k with
  | ok k' => exact hf k' h
  | error e => exact refl k

/-- A change of rules opens them, and then changes a list unless the mode closes it. -/
theorem agreeFrom_changeRules {α : Type} {s : Symbol} {mode : AccessMode} {cache : RuleCache}
    (f : RuleList → RuleList × α) {k : Kernel}
    (hopen : ∀ opened k', k.openRules s mode = .ok (opened, k') → R k k')
    (hput : ∀ store k' list, k.openRules s mode = .ok (some store, k') →
      mode.refusal? cache s = none → R k' (k'.putRules s cache list).bump) :
    (always R refl trans).AgreeFrom k (changeRules s mode cache f) (changeRules s mode cache f) := by
  rw [agreeFrom_always_iff, run_changeRules]
  split
  · exact refl k
  · rename_i hopened
    exact hopen _ _ hopened
  · rename_i hopened
    split
    · exact hopen _ _ hopened
    · rename_i hrefusal
      exact trans (hopen _ _ hopened) (hput _ _ _ hopened hrefusal)

/-- A relation that holds wherever symbols are left alone allows for definition calls if it allows
for changes of values and rules. -/
theorem defining_always (haside : ∀ {k k' : Kernel}, k'.symbols = k.symbols → R k k')
    (hvalue : ∀ {k k' : Kernel} {s value}, k.setValue s value = .ok k' → R k k')
    (hrules : ∀ s mode cache {α : Type} (f : RuleList → RuleList × α),
      (always R refl trans).Calm (changeRules s mode cache f)) :
    (always R refl trans).Defining where
  share _ := calm_modifyGet fun _ => haside rfl
  refuses _ := refl
  setLocal _ _ _ _ := haside rfl
  unsetLocal k c s := haside (by unfold Kernel.unsetLocal; split <;> rfl)
  setValue _ _ _ := agreeFrom_change fun _ => hvalue
  removeRule s cache _ _ := hrules s .write cache _

end Changes

end Contract

/-! ## events -/

/-- What may happen to the symbols of a kernel. -/
inductive Event where
  /-- A call in a context that defines something or removes a definition. -/
  | call (fuel : Nat) (c : ContextId) (definition : DefinitionCall)
  /-- Open the rules of a symbol and change the list for a use. -/
  | changeRules (s : Symbol) (mode : AccessMode) (cache : RuleCache) (f : RuleList → RuleList)
  /-- Evaluate a term in a context. -/
  | evaluate (fuel : Nat) (c : ContextId) (t : Term)
  /-- Find or make the symbol of a name. -/
  | intern (name : String)
  /-- Remove a symbol. -/
  | remove (s : Symbol)
  /-- Anything that leaves symbols alone, as what happens to contexts. -/
  | aside (f : Kernel → Kernel) (h : ∀ k, (f k).symbols = k.symbols)

/-- The kernel after an event, also if it was refused or failed. -/
def Event.apply (k : Kernel) : Event → Kernel
  | call fuel c definition => ((definition.perform (.ofFuel fuel) c).run k).2
  | changeRules s mode cache f =>
    ((Termwise.changeRules s mode cache fun list => (f list, ())).run k).2
  | evaluate fuel c t => ((evaluateWith fuel c t).run k).2
  | intern name => (k.intern name).2
  | remove s => (k.remove s).2
  | aside f _ => f k

end Termwise
