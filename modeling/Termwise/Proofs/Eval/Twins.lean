import Termwise.Proofs.Eval.Run
import Termwise.Proofs.Eval.Unwinding
import Termwise.Proofs.Rule.Correspondence

/-!
# Termwise.Proofs.Eval.Twins

Two runs side by side.  Terms of the two correspond as a `Likeness` says and kernels as
`Twins.Kernels` says, which may compare more of them or less: what matters is that each
thing that evaluation does to a kernel by itself leaves kernels that correspond again
(`Twins.Hosts`).  Actions correspond if, from kernels that do, they end alike in kernels
that do (`Twins.running`); this is a `Correspondence`, so searches and lookups follow, and
`Proofs.Eval.Lockstep` goes on to evaluation.
-/

namespace Termwise

/-! ## outcomes -/

/-- Errors of two runs: the same, or throws of terms that correspond. -/
inductive Likeness.Failures {W : Type} [Preorder W] (L : Likeness W) (w : W) :
    EvalError → EvalError → Prop
  | thrown {t t' : Term} : L.Like w t t' → Failures L w (.thrown t) (.thrown t')
  | other {e : EvalError} : e.thrown? = none → Failures L w e e

/-- Outcomes of two runs: results so related, or corresponding errors. -/
inductive Likeness.Outcomes {W : Type} [Preorder W] (L : Likeness W) (w : W) {α β : Type}
    (R : W → α → β → Prop) : Except EvalError α → Except EvalError β → Prop
  | ok {a : α} {b : β} : R w a b → Outcomes L w R (.ok a) (.ok b)
  | error {e e' : EvalError} : L.Failures w e e' → Outcomes L w R (.error e) (.error e')

/-! ## twins -/

/-- How the terms and the kernels of two runs correspond. -/
structure Twins (W : Type) [Preorder W] where
  /-- Which terms correspond. -/
  likeness : Likeness W
  /-- Kernels correspond at a stage, while both runs have so many gathers open. -/
  Kernels : W → Nat → Kernel → Kernel → Prop
  /-- Two gathers of a context have corresponding numbers. -/
  Gathers : W → ContextId → Nat → Nat → Prop
  gathers_later : ∀ {w w' : W} {owner : ContextId} {i j : Nat}, w ≤ w' → Gathers w owner i j →
    Gathers w' owner i j
  /-- Generations at which the two runs stamp nodes. -/
  Generations : Option Nat → Option Nat → Prop

namespace Twins

variable {W : Type} [Preorder W] {T : Twins W} {n : Nat} {w : W} {k k' : Kernel}
  {α β γ δ : Type} {R : W → α → β → Prop} {S : W → γ → δ → Prop}

/-- Two actions end alike from two kernels, at some later stage. -/
def EndAlike (T : Twins W) (n : Nat) (w : W) (R : W → α → β → Prop) (k k' : Kernel)
    (x : EvalM α) (y : EvalM β) : Prop :=
  ∃ w', w ≤ w' ∧ T.Kernels w' n (x.run k).2 (y.run k').2 ∧
    T.likeness.Outcomes w' R (x.run k).1 (y.run k').1

theorem EndAlike.bind {x : EvalM α} {y : EvalM β} {f : α → EvalM γ} {g : β → EvalM δ}
    (hx : T.EndAlike n w R k k' x y)
    (hf : ∀ w' a b k₁ k₁', w ≤ w' → R w' a b → T.Kernels w' n k₁ k₁' →
      T.EndAlike n w' S k₁ k₁' (f a) (g b)) :
    T.EndAlike n w S k k' (x >>= f) (y >>= g) := by
  obtain ⟨w', hw, hkernels, hresults⟩ := hx
  rcases hrun : x.run k with ⟨r, k₁⟩
  rcases hrun' : y.run k' with ⟨r', k₁'⟩
  rw [hrun, hrun'] at hkernels hresults
  cases hresults with
  | ok hab =>
      obtain ⟨w'', hw', hend⟩ := hf w' _ _ k₁ k₁' hw hab hkernels
      refine ⟨w'', hw.trans hw', ?_⟩
      rwa [EvalM.run_bind_ok hrun, EvalM.run_bind_ok hrun']
  | error he =>
      refine ⟨w', hw, ?_⟩
      rw [EvalM.run_bind_error hrun, EvalM.run_bind_error hrun']
      exact ⟨hkernels, .error he⟩

/-- Actions that end alike from kernels that correspond. -/
def running (T : Twins W) (n : Nat) : Correspondence W EvalM EvalM where
  Alike w R x y := ∀ w' k k', w ≤ w' → T.Kernels w' n k k' → T.EndAlike n w' R k k' x y
  later hw h w' k k' hw' := h w' k k' (hw.trans hw')
  alike_pure h w' _ _ hw hk := ⟨w', le_rfl, hk, .ok (h w' hw)⟩
  alike_bind hx hf w' k k' hw hk := (hx w' k k' hw hk).bind fun w'' a b k₁ k₁' hw' hab hk' =>
    hf w'' a b (hw.trans hw') hab w'' k₁ k₁' le_rfl hk'

/-- What is done with the kernels may depend on how they correspond. -/
theorem alike_get {f : Kernel → EvalM α} {g : Kernel → EvalM β}
    (h : ∀ w' k k', w ≤ w' → T.Kernels w' n k k' → (T.running n).Alike w' R (f k) (g k')) :
    (T.running n).Alike w R (get >>= f) (get >>= g) := fun w' k k' hw hk =>
  h w' k k' hw hk w' k k' le_rfl hk

theorem alike_modify {f g : Kernel → Kernel}
    (h : ∀ w' k k', w ≤ w' → T.Kernels w' n k k' → T.Kernels w' n (f k) (g k')) :
    (T.running n).Alike w (fun _ _ _ => True) (modify f) (modify g) := fun w' k k' hw hk =>
  ⟨w', le_rfl, h w' k k' hw hk, .ok trivial⟩

/-- A change of the kernels in the end, also after a failure. -/
theorem alike_ensuring {x : EvalM α} {y : EvalM β} {f g : Kernel → Kernel}
    (hx : (T.running n).Alike w R x y)
    (h : ∀ w' k k', w ≤ w' → T.Kernels w' n k k' → T.Kernels w' n (f k) (g k')) :
    (T.running n).Alike w R (x.ensuring f) (y.ensuring g) := fun w' k k' hw hk => by
  obtain ⟨w'', hw', hkernels, hresults⟩ := hx w' k k' hw hk
  exact ⟨w'', hw', h w'' _ _ (hw.trans hw') hkernels, hresults⟩

/-- What is done with the outcomes. -/
theorem alike_outcome {x : EvalM α} {y : EvalM β} {f : Except EvalError α → EvalM γ}
    {g : Except EvalError β → EvalM δ} (hx : (T.running n).Alike w R x y)
    (hf : ∀ w' r r', w ≤ w' → T.likeness.Outcomes w' R r r' →
      (T.running n).Alike w' S (f r) (g r')) :
    (T.running n).Alike w S (x.outcome >>= f) (y.outcome >>= g) := fun w' k k' hw hk => by
  obtain ⟨w'', hw', hkernels, hresults⟩ := hx w' k k' hw hk
  obtain ⟨w₃, hw'', hend⟩ := hf w'' _ _ (hw.trans hw') hresults w'' _ _ le_rfl hkernels
  exact ⟨w₃, hw'.trans hw'', hend⟩

theorem alike_throw {e e' : EvalError} (h : ∀ w', w ≤ w' → T.likeness.Failures w' e e') :
    (T.running n).Alike w R (throw e) (throw e') := fun w' _ _ hw hk =>
  ⟨w', le_rfl, hk, .error (h w' hw)⟩

/-! ## what evaluation does by itself -/

/-- Open gathers of a context in two runs. -/
def OpenAlike (T : Twins W) (w : W) (owner : ContextId) :
    List GatherFrame → List GatherFrame → Prop :=
  List.Forall₂ fun g g' => T.Gathers w owner g.id g'.id ∧ T.likeness.Like w g.pattern g'.pattern

/-- Native code that is orderly, and makes corresponding terms of corresponding calls. -/
def Fits (L : Likeness W) : Native → Prop
  | .function f => ∀ {w : W} {t t' : Term}, L.Like w t t' → L.Maybe w (f t) (f t')
  | code => code.isOrderly = true

/-- What evaluation in a context reads of kernels that correspond is the same, and what it does to
them by itself leaves kernels that correspond. -/
structure Hosts (T : Twins W) (c : ContextId) : Prop where
  symbols : ∀ {w n k k'}, T.Kernels w n k k' → k'.symbols = k.symbols
  config : ∀ {w n k k'}, T.Kernels w n k k' → k'.config = k.config
  epoch : ∀ {w n k k'}, T.Kernels w n k k' → k'.structureEpoch = k.structureEpoch
  depth : ∀ {w n k k'}, T.Kernels w n k k' → k'.depth c = k.depth c
  limitReported : ∀ {w n k k'}, T.Kernels w n k k' →
    (k'.context c).limitReported = (k.context c).limitReported
  localValue? : ∀ {w n k k'}, T.Kernels w n k k' → ∀ s, k'.localValue? c s = k.localValue? c s
  localRules? : ∀ {w n k k'}, T.Kernels w n k k' → ∀ s, k'.localRules? c s = k.localRules? c s
  /-- What definitions hold corresponds to itself. -/
  value : ∀ {w n k k'}, T.Kernels w n k k' → ∀ s v, (k.localValue? c s).or (k.value? s) = some v →
    T.likeness.Like w v v
  rules : ∀ {w n k k'}, T.Kernels w n k k' → ∀ s cache list, k.rules? s cache = some list →
    list.Settled T.likeness w
  localRules : ∀ {w n k k'}, T.Kernels w n k k' → ∀ s list, k.localRules? c s = some list →
    list.Settled T.likeness w
  code : ∀ {w n k k'}, T.Kernels w n k k' → ∀ s usage code,
    (k.record s).code.get usage = some code → Fits T.likeness code
  poll : ∀ w n, (T.running n).Alike w (fun _ _ _ => True) (checkAbort c) (checkAbort c)
  share : ∀ {w t t'} n, T.likeness.Like w t t' →
    (T.running n).Alike w T.likeness.Like (Termwise.share t) (Termwise.share t')
  message : ∀ {w n k k' args args'} (s : Symbol) (tag : String), T.Kernels w n k k' →
    T.likeness.All w args args' →
    T.Kernels w n (k.addMessage s tag args) (k'.addMessage s tag args')
  generations : ∀ {w n k k'}, T.Kernels w n k k' →
    T.Generations (k.stampGeneration? c) (k'.stampGeneration? c)
  evaluated : ∀ {w n k k' t t'}, T.Kernels w n k k' → T.likeness.Like w t t' →
    (k.stampGeneration? c).any (k.isEvaluated t) = (k'.stampGeneration? c).any (k'.isEvaluated t')
  stamp : ∀ {w n k k' t t' g g'}, T.Kernels w n k k' → T.Generations g g' →
    T.likeness.Like w t t' → T.Kernels w n (k.stamp c t g) (k'.stamp c t' g')
  raise : ∀ {w n k k' t t'}, T.Kernels w n k k' → T.likeness.Like w t t' →
    T.Kernels w n (k.recordException c t) (k'.recordException c t')
  catches : ∀ {w n k k'}, T.Kernels w n k k' →
    T.Kernels w n (k.catchException c).2 (k'.catchException c).2
  enter : ∀ {w n k k'}, T.Kernels w n k k' → T.Kernels w n (k.enter c) (k'.enter c)
  leave : ∀ {w n k k'}, T.Kernels w n k k' → T.Kernels w n (k.leave c) (k'.leave c)
  setLimitReported : ∀ {w n k k'} (reported : Bool), T.Kernels w n k k' →
    T.Kernels w n (k.setLimitReported c reported) (k'.setLimitReported c reported)
  /-- The context was spawned from the same ones all the time. -/
  ancestors : ∃ owners, ∀ {w n k k'}, T.Kernels w n k k' →
    (k.context c).ancestors = owners ∧ (k'.context c).ancestors = owners ∧
    ∀ owner ∈ c :: owners,
      T.OpenAlike w owner (k.context owner).gathers (k'.context owner).gathers
  isOpen : ∀ {w n k k' owner i j}, T.Kernels w n k k' → T.Gathers w owner i j →
    k.isOpen owner i = k'.isOpen owner j
  collect : ∀ {w n k k' owner i j t t'}, T.Kernels w n k k' → T.Gathers w owner i j →
    T.likeness.Like w t t' → T.Kernels w n (k.collect owner i t) (k'.collect owner j t')
  opens : ∀ {w n k k' t t'}, T.Kernels w n k k' → T.likeness.Like w t t' →
    ∃ w', w ≤ w' ∧ T.Kernels w' (n + 1) (k.gatherBegin c t) (k'.gatherBegin c t')
  closes : ∀ {w n k k'}, T.Kernels w (n + 1) k k' →
    T.Kernels w n (k.gatherEnd c).2 (k'.gatherEnd c).2 ∧
      T.likeness.All w (k.gatherEnd c).1 (k'.gatherEnd c).1
  /-- A call is made anew in both runs, or kept, or both to the same effect. -/
  rebuild : ∀ {w f f' head head' args args' xs xs'} {i j : Nat},
    T.likeness.Like w (.node i f args) (.node j f' args') → T.likeness.Like w head head' →
    T.likeness.All w xs xs' → xs.length = args.length →
    T.likeness.Like w (Evaluator.rebuild (.node i f args) head xs)
      (Evaluator.rebuild (.node j f' args') head' xs')

end Twins

end Termwise
