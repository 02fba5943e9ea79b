import Termwise.Kernel.Definitions
import Termwise.Proofs.Eval.Run
import Termwise.Proofs.Kernel.Update

/-!
# Termwise.Proofs.Kernel.Readings

What can be read of definitions: the attributes, values, rules and native code of
symbols, and local values (`Kernel.SameReadings`).  Two kinds of action are told apart by
it:

* `EvalM.Silent` — the action changes nothing of that, as when nodes are named or empty
  rules are made;
* `EvalM.Atomic` — the action changes nothing of that when it fails.

A change of one list of rules is atomic: it is refused before the list is changed.
-/

namespace Termwise

namespace Kernel

/-! ## readings -/

/-- Attributes, values, rules, native code and local values read as before. -/
structure SameReadings (k k' : Kernel) : Prop where
  attributes : ∀ s, k'.attributes s = k.attributes s
  value : ∀ s, k'.value? s = k.value? s
  rules : ∀ s cache, k'.rules? s cache = k.rules? s cache
  code : ∀ s, (k'.record s).code = (k.record s).code
  locals : ∀ c s, k'.localValue? c s = k.localValue? c s

variable {k k' k'' : Kernel} {s : Symbol}

theorem SameReadings.refl (k : Kernel) : k.SameReadings k :=
  ⟨fun _ => rfl, fun _ => rfl, fun _ _ => rfl, fun _ => rfl, fun _ _ => rfl⟩

theorem SameReadings.trans (h : k.SameReadings k') (h' : k'.SameReadings k'') :
    k.SameReadings k'' where
  attributes s := (h'.attributes s).trans (h.attributes s)
  value s := (h'.value s).trans (h.value s)
  rules s cache := (h'.rules s cache).trans (h.rules s cache)
  code s := (h'.code s).trans (h.code s)
  locals c s := (h'.locals c s).trans (h.locals c s)

/-- A change that leaves symbols and contexts alone. -/
theorem SameReadings.of_eq (hsymbols : k'.symbols = k.symbols)
    (hcontexts : k'.contexts = k.contexts) : k.SameReadings k' := by
  have hrecord : k'.record = k.record := funext fun s => by simp only [record, hsymbols]
  have hcontext : k'.context = k.context := funext fun c => by simp only [context, hcontexts]
  refine ⟨fun s => ?_, fun s => ?_, fun s cache => ?_, fun s => ?_, fun c s => ?_⟩
  · rw [Kernel.attributes, hrecord, Kernel.attributes]
  · rw [value?, hrecord, value?]
  · rw [rules?, hrecord, rules?]
  · rw [hrecord]
  · rw [localValue?, chain, hcontext, localValue?, chain]

theorem sameReadings_share (k : Kernel) (t : Term) : k.SameReadings (k.share t).2 := .of_eq rfl rfl

/-- The rules of a symbol are those of its store, and absent stores read like empty ones. -/
theorem rules?_eq (k : Kernel) (s : Symbol) (cache : RuleCache) :
    k.rules? s cache =
      let list := (((k.record s).rules.getD {}).get cache)
      if list.isEmpty then none else some list := by
  unfold rules?
  cases (k.record s).rules with
  | none => cases cache <;> rfl
  | some store => rfl

/-- Opening rules changes nothing that can be read. -/
theorem sameReadings_openRules {mode : AccessMode} {opened : Option RuleStore}
    (h : k.openRules s mode = .ok (opened, k')) : k.SameReadings k' := by
  rcases openRules_eq_ok h with ⟨-, rfl⟩ | ⟨hrules, -, rfl⟩
  · exact .refl k'
  have hrecord := fun s' => record_updateRecord k s s' fun r => { r with rules := some {} }
  refine ⟨fun s' => ?_, fun s' => ?_, fun s' cache => ?_, fun s' => ?_, fun _ _ => rfl⟩
  · rcases hrecord s' with h | ⟨h, -⟩ <;> rw [attributes, h, attributes]
  · rcases hrecord s' with h | ⟨h, -⟩ <;> rw [value?, h, value?]
  · rcases hrecord s' with h | ⟨h, hsame⟩
    · rw [rules?, h, rules?]
    · rw [rules?_eq, h, rules?_eq, hsame, hrules]
      rfl
  · rcases hrecord s' with h | ⟨h, -⟩ <;> rw [h]

end Kernel

/-! ## changing rules -/

/-- Rules are opened, and a list is changed unless it is closed to the mode. -/
theorem run_changeRules {α : Type} (s : Symbol) (mode : AccessMode) (cache : RuleCache)
    (f : RuleList → RuleList × α) (k : Kernel) :
    (changeRules s mode cache f).run k =
      match k.openRules s mode with
      | .error e => (.error (EvalError.symbol e), k)
      | .ok (none, k') => (.ok none, k')
      | .ok (some store, k') =>
        match mode.refusal? cache s with
        | some e => (.error (EvalError.symbol e), k')
        | none => (.ok (some (f (store.get cache)).2),
            (k'.putRules s cache (f (store.get cache)).1).bump) := by
  have hrun := run_openRules s mode k
  rw [changeRules]
  cases hopen : k.openRules s mode with
  | error e =>
      rw [hopen] at hrun
      rw [EvalM.run_bind_error hrun]
  | ok opened =>
      obtain ⟨store, k'⟩ := opened
      rw [hopen] at hrun
      rw [EvalM.run_bind_ok hrun]
      cases store with
      | none => rfl
      | some store =>
          dsimp only
          cases mode.refusal? cache s <;> rfl

/-! ## silent and atomic actions -/

namespace EvalM

variable {α β : Type} {x : EvalM α} {f : α → EvalM β}

/-- The action changes nothing that can be read of definitions. -/
def Silent (x : EvalM α) : Prop := ∀ k : Kernel, k.SameReadings (x.run k).2

/-- The action changes nothing that can be read of definitions when it fails. -/
def Atomic (x : EvalM α) : Prop :=
  ∀ (k k' : Kernel) (e : EvalError), x.run k = (.error e, k') → k.SameReadings k'

theorem silent_pure (a : α) : Silent (pure a) := Kernel.SameReadings.refl

theorem silent_throw (e : EvalError) : Silent (throw e : EvalM α) := Kernel.SameReadings.refl

theorem silent_get : Silent get := Kernel.SameReadings.refl

theorem silent_share (t : Term) : Silent (share t) := fun k => k.sameReadings_share t

theorem silent_bind (hx : Silent x) (hf : ∀ a, Silent (f a)) : Silent (x >>= f) := by
  intro k
  have hk := hx k
  rcases hrun : x.run k with ⟨result, k'⟩
  rw [hrun] at hk
  cases result with
  | ok a =>
      rw [run_bind_ok hrun]
      exact hk.trans (hf a k')
  | error e =>
      rw [run_bind_error hrun]
      exact hk

theorem Silent.atomic (h : Silent x) : Atomic x := fun k k' e hrun => by
  have hk := h k
  rwa [hrun] at hk

/-- What comes first must change nothing, in case that what follows fails. -/
theorem Silent.bind_atomic (hx : Silent x) (hf : ∀ a, Atomic (f a)) : Atomic (x >>= f) := by
  intro k k' e hrun
  rcases run_bind_eq_error hrun with hfails | ⟨a, k₁, hok, hfails⟩
  · exact hx.atomic k k' e hfails
  · have hk := hx k
    rw [hok] at hk
    exact hk.trans (hf a k₁ k' e hfails)

theorem Atomic.returning (h : Atomic x) (f : α → β) : Atomic (do return f (← x)) := by
  intro k k' e hrun
  rcases run_bind_eq_error hrun with hfails | ⟨a, k₁, -, hfails⟩
  · exact h k k' e hfails
  · cases hfails

theorem atomic_modifyGet (f : Kernel → α × Kernel) : Atomic (modifyGet f) := fun k k' e hrun => by
  cases hrun

theorem atomic_change (f : Kernel → Except SymbolError Kernel) : Atomic (change f) := by
  intro k k' e hrun
  rw [run_change] at hrun
  cases hf : f k with
  | ok k'' =>
      rw [hf] at hrun
      cases hrun
  | error e =>
      rw [hf] at hrun
      cases hrun
      exact .refl k

/-- A change of rules that is refused may have made empty rules, but changed none. -/
theorem atomic_changeRules (s : Symbol) (mode : AccessMode) (cache : RuleCache)
    (f : RuleList → RuleList × α) : Atomic (changeRules s mode cache f) := by
  intro k k' e hrun
  rw [run_changeRules] at hrun
  split at hrun
  · cases hrun
    exact .refl k
  · cases hrun
  · rename_i hopen
    split at hrun
    · cases hrun
      exact Kernel.sameReadings_openRules hopen
    · cases hrun

end EvalM

end Termwise
