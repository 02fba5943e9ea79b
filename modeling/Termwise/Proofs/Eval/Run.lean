import Termwise.Eval.Search
import Termwise.Proofs.Pattern.Observation

/-!
# Termwise.Proofs.Eval.Run

Running actions on a kernel, and two ways to observe actions while the kernel keeps an
invariant:

* `EvalM.succeeding`, `SearchM.succeeding` — the action succeeds, and its result is such
  that;
* `EvalM.whenDone`, `SearchM.whenDone` — if the action succeeds, its result is such that.
-/

namespace Termwise

/-! ## actions on a kernel -/

namespace EvalM

variable {α β : Type}

theorem run_bind_ok {x : EvalM α} {f : α → EvalM β} {k k' : Kernel} {a : α}
    (h : x.run k = (.ok a, k')) : (x >>= f).run k = (f a).run k' := by
  change ExceptT.bindCont f (x.run k).1 (x.run k).2 = _
  rw [h]
  rfl

theorem run_bind_error {x : EvalM α} {f : α → EvalM β} {k k' : Kernel} {e : EvalError}
    (h : x.run k = (.error e, k')) : (x >>= f).run k = (.error e, k') := by
  change ExceptT.bindCont f (x.run k).1 (x.run k).2 = _
  rw [h]
  rfl

/-- What follows two actions that do the same does the same. -/
theorem run_bind_congr {x y : EvalM α} (f : α → EvalM β) {k k' : Kernel} (h : x.run k = y.run k') :
    (x >>= f).run k = (y >>= f).run k' := by
  change ExceptT.bindCont f (x.run k).1 (x.run k).2 = ExceptT.bindCont f (y.run k').1 (y.run k').2
  rw [h]

/-- A sequence of two actions that succeeds does so in two successful steps. -/
theorem run_bind_eq_ok {x : EvalM α} {f : α → EvalM β} {k k'' : Kernel} {b : β}
    (h : (x >>= f).run k = (.ok b, k'')) :
    ∃ a k', x.run k = (.ok a, k') ∧ (f a).run k' = (.ok b, k'') := by
  rcases hx : x.run k with ⟨r, k'⟩
  cases r with
  | ok a =>
      rw [run_bind_ok hx] at h
      exact ⟨a, k', rfl, h⟩
  | error e =>
      rw [run_bind_error hx] at h
      cases h

/-- A sequence of two actions that fails does so in the first or, after that, in the second one. -/
theorem run_bind_eq_error {x : EvalM α} {f : α → EvalM β} {k k'' : Kernel} {e : EvalError}
    (h : (x >>= f).run k = (.error e, k'')) :
    x.run k = (.error e, k'') ∨
      ∃ a k', x.run k = (.ok a, k') ∧ (f a).run k' = (.error e, k'') := by
  rcases hx : x.run k with ⟨r, k'⟩
  cases r with
  | ok a =>
      rw [run_bind_ok hx] at h
      exact .inr ⟨a, k', rfl, h⟩
  | error e' =>
      rw [run_bind_error hx] at h
      cases h
      exact .inl rfl

theorem run_ensuring (x : EvalM α) (f : Kernel → Kernel) (k : Kernel) :
    (x.ensuring f).run k = ((x.run k).1, f (x.run k).2) := rfl

theorem run_outcome (x : EvalM α) (k : Kernel) :
    x.outcome.run k = (.ok (x.run k).1, (x.run k).2) := rfl

theorem run_ensuring_eq_ok {x : EvalM α} {f : Kernel → Kernel} {k k' : Kernel} {a : α}
    (h : (x.ensuring f).run k = (.ok a, k')) : ∃ k₁, x.run k = (.ok a, k₁) ∧ k' = f k₁ := by
  rw [run_ensuring] at h
  obtain ⟨hresult, rfl⟩ := Prod.mk.inj h
  exact ⟨_, Prod.ext hresult rfl, rfl⟩

/-- The action succeeds from every kernel with the invariant. -/
def succeeding (inv : Kernel → Prop) : Observation EvalM where
  Gives x p := ∀ k, inv k → ∃ a k', x.run k = (.ok a, k') ∧ inv k' ∧ p a
  gives_pure hp k hk := ⟨_, k, rfl, hk, hp⟩
  gives_bind {α β x f p q} hx hf k hk := by
    obtain ⟨a, k', hrun, hk', ha⟩ := hx k hk
    obtain ⟨b, k'', hrun', hk'', hb⟩ := hf a ha k' hk'
    exact ⟨b, k'', by rw [run_bind_ok hrun, hrun'], hk'', hb⟩
  gives_mono hx hpq k hk := by
    obtain ⟨a, k', hrun, hk', ha⟩ := hx k hk
    exact ⟨a, k', hrun, hk', hpq a ha⟩

/-- The action may fail; where it succeeds from a kernel with the invariant, its result is known. -/
def whenDone (inv : Kernel → Prop) : Observation EvalM where
  Gives x p := ∀ k a k', inv k → x.run k = (.ok a, k') → inv k' ∧ p a
  gives_pure hp k a k' hk hrun := by
    cases hrun
    exact ⟨hk, hp⟩
  gives_bind {α β x f p q} hx hf k b k'' hk hrun := by
    obtain ⟨a, k', hx', hf'⟩ := run_bind_eq_ok hrun
    obtain ⟨hk', ha⟩ := hx k a k' hk hx'
    exact hf a ha k' b k'' hk' hf'
  gives_mono hx hpq k a k' hk hrun := by
    obtain ⟨hk', ha⟩ := hx k a k' hk hrun
    exact ⟨hk', hpq a ha⟩

end EvalM

/-! ## observing a search -/

namespace SearchM

variable {α : Type}

theorem run_lift_ok {x : EvalM α} {k k' : Kernel} {a : α} (s : SearchState)
    (h : x.run k = (.ok a, k')) : ((liftM x : SearchM α).run s).run k = (.ok (a, s), k') := by
  change (x >>= fun a => pure (a, s)).run k = _
  rw [EvalM.run_bind_ok h]
  rfl

theorem run_lift_eq_ok {x : EvalM α} {k k' : Kernel} {a : α} {s s' : SearchState}
    (h : ((liftM x : SearchM α).run s).run k = (.ok (a, s'), k')) :
    x.run k = (.ok a, k') ∧ s' = s := by
  change (x >>= fun a => pure (a, s)).run k = _ at h
  obtain ⟨a', k₁, hx, hp⟩ := EvalM.run_bind_eq_ok h
  cases hp
  exact ⟨hx, rfl⟩

theorem run_lift_error {x : EvalM α} {k k' : Kernel} {e : EvalError} (s : SearchState)
    (h : x.run k = (.error e, k')) : ((liftM x : SearchM α).run s).run k = (.error e, k') :=
  EvalM.run_bind_error h

theorem run_bind_ok {β : Type} {x : SearchM α} {f : α → SearchM β} {s s' : SearchState}
    {k k' : Kernel} {a : α} (h : (x.run s).run k = (.ok (a, s'), k')) :
    ((x >>= f).run s).run k = ((f a).run s').run k' := by
  rw [StateT.run_bind, EvalM.run_bind_ok h]

theorem run_bind_error {β : Type} {x : SearchM α} {f : α → SearchM β} {s : SearchState}
    {k k' : Kernel} {e : EvalError} (h : (x.run s).run k = (.error e, k')) :
    ((x >>= f).run s).run k = (.error e, k') := by
  rw [StateT.run_bind, EvalM.run_bind_error h]

/-- The result of a search, its own state forgotten. -/
theorem run_run'_ok {x : SearchM α} {s s' : SearchState} {k k' : Kernel} {a : α}
    (h : (x.run s).run k = (.ok (a, s'), k')) : (x.run' s).run k = (.ok a, k') := by
  change (x.run s >>= fun p => pure p.1).run k = _
  rw [EvalM.run_bind_ok h]
  rfl

theorem run_run'_eq_ok {x : SearchM α} {s : SearchState} {k k' : Kernel} {a : α}
    (h : (x.run' s).run k = (.ok a, k')) : ∃ s', (x.run s).run k = (.ok (a, s'), k') := by
  change (x.run s >>= fun p => pure p.1).run k = _ at h
  obtain ⟨⟨a', s'⟩, k₁, hx, hp⟩ := EvalM.run_bind_eq_ok h
  cases hp
  exact ⟨s', hx⟩

/-- The action succeeds from every state with the invariant. -/
def succeeding (inv : Kernel → Prop) : Observation SearchM where
  Gives x p := ∀ s k, inv k → ∃ a s' k', (x.run s).run k = (.ok (a, s'), k') ∧ inv k' ∧ p a
  gives_pure hp s k hk := ⟨_, s, k, rfl, hk, hp⟩
  gives_bind {α β x f p q} hx hf s k hk := by
    obtain ⟨a, s', k', hrun, hk', ha⟩ := hx s k hk
    obtain ⟨b, s'', k'', hrun', hk'', hb⟩ := hf a ha s' k' hk'
    refine ⟨b, s'', k'', ?_, hk'', hb⟩
    rw [run_bind_ok hrun, hrun']
  gives_mono hx hpq s k hk := by
    obtain ⟨a, s', k', hrun, hk', ha⟩ := hx s k hk
    exact ⟨a, s', k', hrun, hk', hpq a ha⟩

/-- The action may fail; where it succeeds from a state with the invariant, its result is known. -/
def whenDone (inv : Kernel → Prop) : Observation SearchM where
  Gives x p := ∀ s k a s' k', inv k → (x.run s).run k = (.ok (a, s'), k') → inv k' ∧ p a
  gives_pure hp s k a s' k' hk hrun := by
    cases hrun
    exact ⟨hk, hp⟩
  gives_bind {α β x f p q} hx hf s k b s'' k'' hk hrun := by
    rw [StateT.run_bind] at hrun
    obtain ⟨⟨a, s'⟩, k', hx', hf'⟩ := EvalM.run_bind_eq_ok hrun
    obtain ⟨hk', ha⟩ := hx s k a s' k' hk hx'
    exact hf a ha s' k' b s'' k'' hk' hf'
  gives_mono hx hpq s k a s' k' hk hrun := by
    obtain ⟨hk', ha⟩ := hx s k a s' k' hk hrun
    exact ⟨hk', hpq a ha⟩

end SearchM

end Termwise
