import Termwise.Eval.Evaluate
import Termwise.Proofs.Eval.Native

/-!
# Termwise.Proofs.Eval.Depth

The nesting depth of contexts.  A call is entered and left again, whatever comes of it;
so an evaluation leaves the depth of every context as it found it
(`Kernel.Balanced`).  And calls beyond the recursion limit are refused before anything
is evaluated in them; so evaluations start in *shallow* kernels only, where no context is
deeper than the limit (`Kernel.Shallow`).  From there the refusal of a call is never the
error for a depth of twice the limit.

What goes on within an evaluation is watched by an evaluator that reports every
evaluation and every rewriting that starts in a kernel that is not shallow, or that moves
the depth of a context (`Evaluator.watched`).  It never reports anything.
-/

namespace Termwise

namespace Kernel

/-! ## depths -/

/-- No context is deeper than the recursion limit. -/
def Shallow (k : Kernel) : Prop := ∀ c, k.depth c ≤ k.config.maxRecursion

/-- The depth of every context is as it was; new ones are no deeper than the recursion limit. -/
structure Balanced (k k' : Kernel) : Prop where
  config : k'.config = k.config
  /-- No context is lost. -/
  size : k.contexts.size ≤ k'.contexts.size
  depth : ∀ c : ContextId, c.index < k.contexts.size → k'.depth c = k.depth c
  fresh : ∀ c : ContextId, k.contexts.size ≤ c.index → k'.depth c ≤ k.config.maxRecursion

variable {k k' k'' : Kernel}

/-- A context that there is not has depth 0. -/
theorem depth_of_size_le {c : ContextId} (hc : k.contexts.size ≤ c.index) : k.depth c = 0 := by
  rw [depth, context, Array.getD_eq_getD_getElem?, Array.getElem?_eq_none hc]
  rfl

theorem Balanced.of_depths (hconfig : k'.config = k.config)
    (hsize : k'.contexts.size = k.contexts.size) (hdepth : ∀ c, k'.depth c = k.depth c) :
    k.Balanced k' where
  config := hconfig
  size := Nat.le_of_eq hsize.symm
  depth c _ := hdepth c
  fresh c hc := by
    rw [hdepth c, depth_of_size_le hc]
    exact Nat.zero_le _

theorem Stays.balanced (h : k.Stays k') : k.Balanced k' := .of_depths h.config h.size h.depth

theorem Balanced.refl (k : Kernel) : k.Balanced k := (Stays.refl k).balanced

theorem Balanced.trans (h : k.Balanced k') (h' : k'.Balanced k'') : k.Balanced k'' where
  config := h'.config.trans h.config
  size := Nat.le_trans h.size h'.size
  depth c hc := (h'.depth c (Nat.lt_of_lt_of_le hc h.size)).trans (h.depth c hc)
  fresh c hc := by
    rcases Nat.lt_or_ge c.index k'.contexts.size with hold | hnew
    · rw [h'.depth c hold]
      exact h.fresh c hc
    · rw [← h.config]
      exact h'.fresh c hnew

theorem Shallow.balanced (hk : k.Shallow) (h : k.Balanced k') : k'.Shallow := fun c => by
  rw [h.config]
  rcases Nat.lt_or_ge c.index k.contexts.size with hold | hnew
  · rw [h.depth c hold]
    exact hk c
  · exact h.fresh c hnew

/-! ## contexts -/

theorem balanced_newRoot (k : Kernel) : k.Balanced k.newRoot.2 := by
  obtain ⟨hconfig, hsize, hdepth, -⟩ := k.keeps_newRoot
  refine ⟨hconfig, hsize, hdepth, fun c hc => ?_⟩
  have hzero : k.newRoot.2.depth c = 0 := by
    simp only [newRoot, depth, context, Array.getD_eq_getD_getElem?, Array.getElem?_push]
    split
    · rfl
    · rw [Array.getElem?_eq_none hc]
      rfl
  rw [hzero]
  exact Nat.zero_le _

/-- A child starts no deeper than the recursion limit if its parent is not deeper. -/
theorem balanced_spawnChild {c : ContextId} (hc : k.depth c ≤ k.config.maxRecursion) :
    k.Balanced (k.spawnChild c).2 := by
  obtain ⟨⟨hconfig, hsize, hdepth, -⟩, -, hchild⟩ := k.keeps_spawnChild c
  refine ⟨hconfig, hsize, hdepth, fun c' hc' => ?_⟩
  by_cases hnew : c'.index = k.contexts.size
  · have hsame : c' = (k.spawnChild c).1 := by
      cases c'
      exact congrArg ContextId.mk hnew
    rw [hsame, hchild]
    exact hc
  · rw [depth_of_size_le]
    · exact Nat.zero_le _
    · simp only [spawnChild, Array.size_push]
      omega

/-! ## calls -/

/-- Inside a call within the limit the kernel is shallow. -/
theorem Shallow.enter (hk : k.Shallow) {c : ContextId}
    (hc : (k.enter c).depth c ≤ k.config.maxRecursion) : (k.enter c).Shallow := fun c' => by
  by_cases hcc : c = c'
  · rw [← hcc]
    exact hc
  · have hsame : (k.enter c).depth c' = k.depth c' := by
      simp only [depth, Kernel.enter, context_updateContext_of_ne k _ hcc]
    rw [hsame]
    exact hk c'

/-- What balances a kernel inside a call balances the kernel around it. -/
theorem Balanced.of_enter {c : ContextId} (hc : c.index < k.contexts.size)
    (h : (k.enter c).Balanced k') : k.Balanced (k'.leave c) := by
  have hsize : (k.enter c).contexts.size = k.contexts.size := by simp [enter, updateContext]
  have hsize' : k.contexts.size ≤ k'.contexts.size := hsize ▸ h.size
  have hother : ∀ c', c ≠ c' → (k'.leave c).depth c' = k'.depth c' := fun c' hcc => by
    simp only [Kernel.depth, leave, context_updateContext_of_ne k' _ hcc]
  refine ⟨h.config, ?_, fun c' hc' => ?_, fun c' hc' => ?_⟩
  · simpa [leave, updateContext] using hsize'
  · have hdepth := h.depth c' (by rwa [hsize])
    by_cases hcc : c = c'
    · subst hcc
      have hleave : (k'.leave c).depth c = k'.depth c - 1 := by
        simp only [Kernel.depth, leave,
          context_updateContext_self k' _ (Nat.lt_of_lt_of_le hc hsize')]
      rw [depth_enter hc] at hdepth
      omega
    · have henter : (k.enter c).depth c' = k.depth c' := by
        simp only [Kernel.depth, enter, context_updateContext_of_ne k _ hcc]
      rw [hother c' hcc, hdepth, henter]
  · have hcc : c ≠ c' := by
      rintro rfl
      exact absurd hc (Nat.not_lt_of_le hc')
    rw [hother c' hcc]
    exact h.fresh c' (by rwa [hsize])

end Kernel

/-! ## the contract -/

/-- Depths are balanced, and the error for a depth of twice the limit does not come up. -/
def balancing : Contract where
  Ok := Kernel.Balanced
  Fails e k k' := (∀ limit, e ≠ .recursionLimit limit) ∧ k.Balanced k'
  refl := .refl
  trans := .trans
  trans_fails h h' := ⟨h'.1, h.trans h'.2⟩

/-- Evaluation starts in shallow kernels. -/
def shallows : balancing.Scope where
  From c k := c.index < k.contexts.size ∧ 1 ≤ k.config.maxRecursion ∧ k.Shallow
  keeps h hk := ⟨Nat.lt_of_lt_of_le h.1 hk.size, by rw [hk.config]; exact h.2.1,
    h.2.2.balanced hk⟩

theorem lenient_shallows : shallows.Lenient := by
  refine .of_stays (fun h => h.balanced) (fun h => h.2) (fun h k => ⟨h.1, .refl k⟩)
    (fun _ hlimit k => ⟨hlimit, .refl k⟩) fun {c k} h => ?_
  have hbalanced := Kernel.balanced_spawnChild (h.2.2 c)
  exact ⟨hbalanced, (k.keeps_spawnChild c).2.1, by rw [hbalanced.config]; exact h.2.1,
    h.2.2.balanced hbalanced⟩

theorem resets_shallows (c : ContextId) : shallows.Resets c := fun _ _ hleaves =>
  lenient_shallows.leaves hleaves (Kernel.stays_setLimitReported _ c false).balanced

/-! ## definitions -/

theorem calm_insertRule (s : Symbol) (mode : AccessMode) (cache : RuleCache) (rule : Rule) :
    balancing.Calm (insertRule s mode cache rule) := by
  refine lenient_shallows.calm_changeRules (fun k opened hopen => ?_) fun k store k' _ => ?_
  · exact (Kernel.stays_openRules hopen).1.balanced
  · exact .of_depths rfl rfl fun _ => rfl

/-- A definition moves no depth. -/
theorem calm_define (c : ContextId) (lhs rhs : Term) (kind : RuleKind) :
    balancing.Calm (define c lhs rhs kind) :=
  lenient_shallows.defining.calm_define c (fun s cache rule _ => calm_insertRule s .write cache rule)
    lhs rhs kind

/-! ## watching evaluations -/

namespace Kernel

/-- Report a context that is deeper than the recursion limit. -/
def reportDeep (k : Kernel) : Kernel :=
  if k.contexts.any fun x => k.config.maxRecursion < x.depth then k.addMessage .general "deep" []
  else k

/-- Report a context that is not as deep as it was in an earlier kernel. -/
def reportMoved (k k' : Kernel) : Kernel :=
  if (List.range k.contexts.size).all fun i => k'.depth ⟨i⟩ == k.depth ⟨i⟩ then k'
  else k'.addMessage .general "moved" []

theorem Shallow.reportDeep {k : Kernel} (hk : k.Shallow) : k.reportDeep = k := by
  refine if_neg fun h => ?_
  obtain ⟨i, hi, hdeep⟩ := Array.any_eq_true.mp h
  have hdepth := hk ⟨i⟩
  simp only [depth, context, Array.getD_eq_getD_getElem?, Array.getElem?_eq_getElem hi,
    Option.getD_some] at hdepth
  exact Nat.not_lt_of_le hdepth (of_decide_eq_true hdeep)

theorem Balanced.reportMoved {k k' : Kernel} (h : k.Balanced k') : k.reportMoved k' = k' := by
  refine if_pos (List.all_eq_true.mpr fun i hi => beq_iff_eq.mpr ?_)
  exact h.depth ⟨i⟩ (List.mem_range.mp hi)

end Kernel

namespace Evaluator

/-- Run an action, and report if the kernel is not shallow before it or if it moves the depth of a
context. -/
def watching {α : Type} (x : EvalM α) : EvalM α := do
  let k ← get
  modify Kernel.reportDeep
  x.ensuring k.reportMoved

/-- The evaluator that watches all evaluations and rewritings, also those inside others. -/
def watched : Nat → Evaluator
  | 0 => ofFuel 0
  | fuel + 1 =>
    { evaluate := fun c t => watching ((watched fuel).evaluateFully c t)
      rewrite := fun c lhs rhs t => watching ((watched fuel).rewriteWith c lhs rhs t) }

open Contract

variable {r r' : Evaluator} {c : ContextId}

/-- What keeps depths balanced gives no cause for a report. -/
theorem alike_watching {α : Type} {x y : EvalM α} (h : (shallows.agreeing c).Alike x y) :
    (shallows.agreeing c).Alike x (watching y) := by
  intro k hk
  obtain ⟨heq, hleaves⟩ := h k hk
  refine ⟨?_, hleaves⟩
  have hrun : (watching y).run k =
      ((y.run k.reportDeep).1, k.reportMoved (y.run k.reportDeep).2) := rfl
  rw [hrun, hk.2.2.reportDeep, heq]
  have hbalanced : k.Balanced (x.run k).2 := by
    cases hresult : (x.run k).1 with
    | ok a => rwa [hresult] at hleaves
    | error e =>
        rw [hresult] at hleaves
        exact hleaves.2
  rw [hbalanced.reportMoved]
  rfl

/-- Calls within the limit are evaluated in a shallow kernel; those beyond it are refused. -/
theorem alike_evaluateCall_shallow (h : r.AgreesIn shallows r') (c : ContextId) (call : Term) :
    (shallows.agreeing c).Alike (r.evaluateCall c call) (r'.evaluateCall c call) := by
  have hcode : CodeAlike shallows r r' c := fun k hk s usage code _ call =>
    h.run lenient_shallows c (fun kind _ lhs rhs => calm_define c lhs rhs kind) call k hk
  refine h.evaluateCall (lenient_shallows.hosts c) hcode (fun k hk hwithin => ?_)
    (fun k hk hdeep => ?_) (fun k _ _ args => ((k.enter c).stays_reportLimit c args).balanced)
    (fun k k' result hk hleaves => ?_) call
  · refine ⟨?_, hk.2.1, hk.2.2.enter hwithin⟩
    simpa [Kernel.enter, Kernel.updateContext] using hk.1
  · have hdepth := k.depth_enter_le c c
    have hle := hk.2.2 c
    have hlimit := hk.2.1
    omega
  · cases result with
    | ok step => exact Kernel.Balanced.of_enter hk.1 hleaves
    | error e => exact ⟨hleaves.1, hleaves.2.of_enter hk.1⟩

/-- With any amount of fuel, evaluation and the watched evaluation do the same. -/
theorem agreesIn_watched (fuel : Nat) : (ofFuel fuel).AgreesIn shallows (watched fuel) := by
  induction fuel with
  | zero =>
      have hfails : ∀ k, balancing.Fails .outOfFuel k k := fun k => ⟨nofun, .refl k⟩
      exact ⟨fun c t => (calm_throw hfails).alike, fun c lhs rhs t => (calm_throw hfails).alike⟩
  | succ fuel ih =>
      refine ⟨fun c t => alike_watching ?_, fun c lhs rhs t => alike_watching ?_⟩
      · exact alike_evaluateFully (lenient_shallows.hosts c) (ih.rewritesAlike c)
          (Callees.rules_true _ .own) (alike_evaluateCall_shallow ih c) (resets_shallows c) t
      · exact ih.rewriteWith (lenient_shallows.hosts c) lhs rhs t

end Evaluator

/-! ## kernels in use -/

namespace Kernel

/-- The kernels that evaluations with a configuration come across: contexts are made at any moment,
terms evaluated, calls within the recursion limit entered; and anything else may change. -/
inductive InUse (config : Config) : Kernel → Prop
  /-- A new kernel. -/
  | new : InUse config (.new config)
  /-- A root context. -/
  | root {k : Kernel} : InUse config k → InUse config k.newRoot.2
  /-- A child of a context. -/
  | child {k : Kernel} (c : ContextId) : InUse config k → InUse config (k.spawnChild c).2
  /-- Inside a call. -/
  | call {k : Kernel} {c : ContextId} : c.index < k.contexts.size →
      k.depth c < config.maxRecursion → InUse config k → InUse config (k.enter c)
  /-- After an evaluation. -/
  | evaluated {k : Kernel} {c : ContextId} (fuel : Nat) (t : Term) : c.index < k.contexts.size →
      InUse config k → InUse config ((evaluateWith fuel c t).run k).2
  /-- After a change of anything but the configuration, the contexts and their depths. -/
  | changed {k k' : Kernel} : k'.config = k.config → k'.contexts.size = k.contexts.size →
      (∀ c, k'.depth c = k.depth c) → InUse config k → InUse config k'

variable {config : Config} {k : Kernel} {c : ContextId}

/-- From a shallow kernel on, evaluation agrees with the watched evaluation. -/
theorem Shallow.agreeFrom_watched (hk : k.Shallow) (hlimit : 1 ≤ k.config.maxRecursion)
    (hc : c.index < k.contexts.size) (fuel : Nat) (t : Term) :
    balancing.AgreeFrom k (evaluateWith fuel c t) ((Evaluator.watched fuel).evaluate c t) :=
  (Evaluator.agreesIn_watched fuel).evaluate c t k ⟨hc, hlimit, hk⟩

/-- From a shallow kernel on, evaluation keeps depths balanced. -/
theorem Shallow.balanced_evaluateWith (hk : k.Shallow) (hlimit : 1 ≤ k.config.maxRecursion)
    (hc : c.index < k.contexts.size) (fuel : Nat) (t : Term) :
    k.Balanced ((evaluateWith fuel c t).run k).2 ∧
      ∀ limit, ((evaluateWith fuel c t).run k).1 ≠ .error (.recursionLimit limit) := by
  have hleaves := (hk.agreeFrom_watched hlimit hc fuel t).leaves
  cases hresult : ((evaluateWith fuel c t).run k).1 with
  | ok value =>
      rw [hresult] at hleaves
      exact ⟨hleaves, nofun⟩
  | error e =>
      rw [hresult] at hleaves
      exact ⟨hleaves.2, fun limit he => hleaves.1 limit (Except.error.inj he)⟩

theorem InUse.shallow (hlimit : 1 ≤ config.maxRecursion) (hk : k.InUse config) :
    k.config = config ∧ k.Shallow := by
  have hbalanced : ∀ {k k' : Kernel}, k.config = config ∧ k.Shallow → k.Balanced k' →
      k'.config = config ∧ k'.Shallow := fun h hk => ⟨hk.config.trans h.1, h.2.balanced hk⟩
  induction hk with
  | new =>
      refine ⟨rfl, fun c => ?_⟩
      rw [depth_of_size_le (Nat.zero_le _)]
      exact Nat.zero_le _
  | root _ ih => exact hbalanced ih (balanced_newRoot _)
  | child c _ ih => exact hbalanced ih (balanced_spawnChild (ih.2 c))
  | call hc hdepth _ ih =>
      refine ⟨ih.1, ih.2.enter ?_⟩
      rw [depth_enter hc, ih.1]
      exact hdepth
  | evaluated fuel t hc _ ih =>
      exact hbalanced ih (ih.2.balanced_evaluateWith (by rw [ih.1]; exact hlimit) hc fuel t).1
  | changed hconfig hsize hdepth _ ih => exact hbalanced ih (.of_depths hconfig hsize hdepth)

end Kernel

end Termwise
