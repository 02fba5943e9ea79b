import Termwise.Eval.Search
import Termwise.Proofs.Eval.Run
import Termwise.Proofs.Pattern.Congruence

/-!
# Termwise.Proofs.Eval.Contract

What actions may do to a kernel.  A `Contract` says how an action may leave the kernel
it started from: with success, or with which error.  Two actions *agree* under a
contract from a kernel on (`Contract.AgreeFrom`) if they do the same and keep to it.

That two actions agree from all kernels of a `Contract.Scope` on is a congruence: a
search, a rewriting or a replacement keeps to a contract if what it calls does.  An
action that calls no evaluator agrees with itself as soon as it is *calm*, that is if it
keeps to the contract from every kernel on.
-/

namespace Termwise

/-! ## contracts -/

/-- How actions may leave a kernel. -/
structure Contract where
  /-- An action that succeeds may leave the first kernel as the second. -/
  Ok : Kernel → Kernel → Prop
  /-- An action that fails with an error may leave the first kernel as the second. -/
  Fails : EvalError → Kernel → Kernel → Prop
  refl : ∀ k, Ok k k
  trans : ∀ {k k' k'' : Kernel}, Ok k k' → Ok k' k'' → Ok k k''
  trans_fails : ∀ {e : EvalError} {k k' k'' : Kernel}, Ok k k' → Fails e k' k'' → Fails e k k''

namespace Contract

variable {C : Contract} {α β : Type} {k₀ k k' : Kernel} {x y : EvalM α} {f g : α → EvalM β}

/-- An action with this outcome may leave the first kernel as the second. -/
def Leaves (C : Contract) (k : Kernel) : Except EvalError α → Kernel → Prop
  | .ok _, k' => C.Ok k k'
  | .error e, k' => C.Fails e k k'

theorem Leaves.since (hk : C.Ok k₀ k) {result : Except EvalError α} (h : C.Leaves k result k') :
    C.Leaves k₀ result k' := by
  cases result with
  | ok a => exact C.trans hk h
  | error e => exact C.trans_fails hk h

/-- Two actions do the same from a kernel on, as the rest of something that began with another
kernel, which they leave as the contract says. -/
structure AgreeSince (C : Contract) (k₀ k : Kernel) (x y : EvalM α) : Prop where
  run_eq : y.run k = x.run k
  leaves : C.Leaves k₀ (x.run k).1 (x.run k).2

/-- Two actions do the same from a kernel on, and leave it as the contract says. -/
def AgreeFrom (C : Contract) (k : Kernel) (x y : EvalM α) : Prop := C.AgreeSince k k x y

theorem AgreeFrom.run_eq (h : C.AgreeFrom k x y) : y.run k = x.run k := AgreeSince.run_eq h

theorem AgreeFrom.leaves (h : C.AgreeFrom k x y) : C.Leaves k (x.run k).1 (x.run k).2 :=
  AgreeSince.leaves h

theorem AgreeFrom.since (h : C.AgreeFrom k x y) (hk : C.Ok k₀ k) : C.AgreeSince k₀ k x y :=
  ⟨h.run_eq, h.leaves.since hk⟩

/-! ## one after the other -/

theorem AgreeSince.bind (hx : C.AgreeSince k₀ k x y)
    (hf : ∀ a k', x.run k = (.ok a, k') → C.Ok k₀ k' → C.AgreeSince k₀ k' (f a) (g a)) :
    C.AgreeSince k₀ k (x >>= f) (y >>= g) := by
  obtain ⟨heq, hleaves⟩ := hx
  rcases hrun : x.run k with ⟨r, k'⟩
  rw [hrun] at heq hleaves
  cases r with
  | ok a =>
      obtain ⟨heq', hleaves'⟩ := hf a k' hrun hleaves
      refine ⟨?_, ?_⟩
      · rw [EvalM.run_bind_ok hrun, EvalM.run_bind_ok heq, heq']
      · rw [EvalM.run_bind_ok hrun]
        exact hleaves'
  | error e =>
      refine ⟨?_, ?_⟩
      · rw [EvalM.run_bind_error hrun, EvalM.run_bind_error heq]
      · rw [EvalM.run_bind_error hrun]
        exact hleaves

theorem AgreeFrom.bind (hx : C.AgreeFrom k x y)
    (hf : ∀ a k', x.run k = (.ok a, k') → C.Ok k k' → C.AgreeFrom k' (f a) (g a)) :
    C.AgreeFrom k (x >>= f) (y >>= g) :=
  AgreeSince.bind hx fun a k' hrun hk => (hf a k' hrun hk).since hk

/-- What is done with the outcome may depend on how the first action may leave the kernel. -/
theorem AgreeFrom.outcome {f g : Except EvalError α → EvalM β} (hx : C.AgreeFrom k x y)
    (hf : ∀ result k', C.Leaves k result k' → C.AgreeSince k k' (f result) (g result)) :
    C.AgreeFrom k (x.outcome >>= f) (y.outcome >>= g) := by
  obtain ⟨heq', hleaves'⟩ := hf _ _ hx.leaves
  refine ⟨?_, ?_⟩
  · rw [EvalM.run_bind_ok (x.run_outcome k), EvalM.run_bind_ok (y.run_outcome k), hx.run_eq, heq']
  · rw [EvalM.run_bind_ok (x.run_outcome k)]
    exact hleaves'

/-- A change of the kernel in the end, also after a failure. -/
theorem AgreeSince.ensuring {h : Kernel → Kernel} (hx : C.AgreeSince k₀ k x y)
    (hh : ∀ (result : Except EvalError α) k', C.Leaves k₀ result k' → C.Leaves k₀ result (h k')) :
    C.AgreeSince k₀ k (x.ensuring h) (y.ensuring h) := by
  refine ⟨?_, ?_⟩
  · rw [EvalM.run_ensuring, EvalM.run_ensuring, hx.run_eq]
  · rw [EvalM.run_ensuring]
    exact hh _ _ hx.leaves

/-- An action inside a call. -/
theorem AgreeFrom.inCall {c : ContextId} (hx : C.AgreeFrom (k.enter c) x y)
    (hcall : ∀ (result : Except EvalError α) k', C.Leaves (k.enter c) result k' →
      C.Leaves k result (k'.leave c)) :
    C.AgreeFrom k (do modify fun k => k.enter c; x.ensuring fun k => k.leave c)
      (do modify fun k => k.enter c; y.ensuring fun k => k.leave c) := by
  have hrun : ∀ z : EvalM α,
      (do modify fun k => k.enter c; z.ensuring fun k => k.leave c : EvalM α).run k =
        ((z.run (k.enter c)).1, (z.run (k.enter c)).2.leave c) := fun _ => rfl
  refine ⟨?_, ?_⟩
  · rw [hrun, hrun, hx.run_eq]
  · rw [hrun]
    exact hcall _ _ hx.leaves

/-- Reading the kernel does not change it. -/
theorem AgreeFrom.get {f g : Kernel → EvalM β} (h : C.AgreeFrom k (f k) (g k)) :
    C.AgreeFrom k (MonadState.get >>= f) (MonadState.get >>= g) :=
  AgreeFrom.bind ⟨rfl, C.refl k⟩ fun a k' hrun _ => by
    cases hrun
    exact h

/-! ## calm actions -/

/-- The action keeps to the contract from every kernel on. -/
def Calm (C : Contract) (x : EvalM α) : Prop := ∀ k, C.AgreeFrom k x x

theorem calm_pure (a : α) : C.Calm (pure a) := fun k => ⟨rfl, C.refl k⟩

theorem calm_bind (hx : C.Calm x) (hf : ∀ a, C.Calm (f a)) : C.Calm (x >>= f) := fun k =>
  (hx k).bind fun a k' _ _ => hf a k'

theorem calm_throw {e : EvalError} (h : ∀ k, C.Fails e k k) : C.Calm (throw e : EvalM α) := fun k =>
  ⟨rfl, h k⟩

theorem calm_get : C.Calm get := fun k => ⟨rfl, C.refl k⟩

theorem calm_modify {h : Kernel → Kernel} (hh : ∀ k, C.Ok k (h k)) : C.Calm (modify h) := fun k =>
  ⟨rfl, hh k⟩

theorem calm_modifyGet {h : Kernel → α × Kernel} (hh : ∀ k, C.Ok k (h k).2) :
    C.Calm (modifyGet h) := fun k => ⟨rfl, hh k⟩

/-! ## scopes -/

/-- The kernels that evaluation in a context starts from. -/
structure Scope (C : Contract) where
  /-- Evaluation in the context may start from the kernel. -/
  From : ContextId → Kernel → Prop
  keeps : ∀ {c : ContextId} {k k' : Kernel}, From c k → C.Ok k k' → From c k'

variable {S : Scope C} {c : ContextId}

/-- Two actions agree from every kernel of a scope on. -/
def Scope.agreeing (S : Scope C) (c : ContextId) : Congruence EvalM EvalM where
  Alike x y := ∀ k, S.From c k → C.AgreeFrom k x y
  alike_pure a k _ := calm_pure a k
  alike_bind hx hf k hk := (hx k hk).bind fun a k' _ hok => hf a k' (S.keeps hk hok)

theorem Calm.alike (h : C.Calm x) : (S.agreeing c).Alike x x := fun k _ => h k

/-- A calm action whose result is returned in another form. -/
theorem Calm.returning (h : C.Calm x) (f : α → β) :
    (S.agreeing c).Alike (do return f (← x)) (do return f (← x)) :=
  (calm_bind h fun a => calm_pure (f a)).alike

/-- What is done with the kernel may depend on its being in the scope. -/
theorem alike_get {f g : Kernel → EvalM β} (h : ∀ k, S.From c k → C.AgreeFrom k (f k) (g k)) :
    (S.agreeing c).Alike (get >>= f) (get >>= g) := fun k hk => AgreeFrom.get (h k hk)

end Contract

end Termwise
