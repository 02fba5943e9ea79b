import Termwise.Proofs.Eval.Terminates
import Termwise.Proofs.Eval.Unwinding

/-!
# Termwise.Proofs.Eval.Stable

Evaluating a result again.  The last thing an evaluation does with a call that it gives
back is to stamp its node with the generation it began at, and where native code is
orderly the generation is still that one in the end.  So the node is remembered
(`Kernel.Remembers`), and evaluating it again answers it at once.

Another copy of the result need not be a fixed point: arguments are evaluated by their
positions in the call as it was given, and sequences are dissolved only afterwards
(`evaluate_copy_of_held`).  `Proofs.Eval.Settled` tells where it is one.
-/

namespace Termwise

namespace Kernel

/-! ## what is remembered -/

/-- The node of a term is remembered as evaluated, for evaluation in a context. -/
def Remembers (k : Kernel) (c : ContextId) (t : Term) : Prop :=
  (k.stampGeneration? c).any (k.isEvaluated t) = true

variable {k k' : Kernel} {c : ContextId}

/-- Contexts with the same definitions have the same stamps. -/
theorem SameDefinitions.stampGeneration?_eq (h : k.SameDefinitions k') (c : ContextId) :
    k'.stampGeneration? c = k.stampGeneration? c := by
  -- what is asked of the contexts is asked of what is fixed in them
  have hany : ∀ k : Kernel, ((k.chain c).any fun x => !x.locals.isEmpty || !x.localRules.isEmpty) =
      (((k.chain c).map Context.fixed).any fun x => !x.2.1.isEmpty || !x.2.2.1.isEmpty) := by
    intro k
    rw [List.any_map]
    rfl
  rw [stampGeneration?, stampGeneration?, hany, hany, h.chain_eq, h.generation]

/-- The deadline of a context is made of what is fixed. -/
theorem SameDefinitions.deadline_eq (h : k.SameDefinitions k') (c : ContextId) :
    k'.deadline c = k.deadline c := by
  have hfold : ∀ k : Kernel, k.deadline c =
      ((k.chain c).map Context.fixed).foldl (fun d x => min d x.2.2.2) noDeadline := fun k => by
    rw [List.foldl_map]
    rfl
  rw [hfold, hfold, h.chain_eq]

theorem SameDefinitions.quiet (h : k.SameDefinitions k') (hk : k.Quiet c) : k'.Quiet c :=
  ⟨h.aborting.trans hk.aborting, (h.deadline_eq c).trans hk.deadline⟩

theorem SameDefinitions.localValue?_eq (h : k.SameDefinitions k') (c : ContextId) (s : Symbol) :
    k'.localValue? c s = k.localValue? c s := by
  have hfind : ∀ k : Kernel, k.localValue? c s =
      ((k.chain c).map Context.fixed).findSome? fun x => x.2.1.lookup s := fun k => by
    rw [List.findSome?_map]
    rfl
  rw [hfind, hfind, h.chain_eq]

theorem SameDefinitions.localRules?_eq (h : k.SameDefinitions k') (c : ContextId) (s : Symbol) :
    k'.localRules? c s = k.localRules? c s := by
  have hfind : ∀ k : Kernel, k.localRules? c s =
      ((k.chain c).map Context.fixed).findSome? fun x => x.2.2.1.lookup s := fun k => by
    rw [List.findSome?_map]
    rfl
  rw [hfind, hfind, h.chain_eq]

theorem Remembers.updateContext {t : Term} (h : k.Remembers c t) {f : Context → Context}
    (hf : ∀ x, (f x).fixed = x.fixed) : (k.updateContext c f).Remembers c t := by
  rw [Remembers, (sameDefinitions_updateContext k c hf).stampGeneration?_eq c]
  exact h

/-- The kernel has the stamps of one where a term was stamped just now, with a given generation or
with that of its context. -/
structure JustStamped (k : Kernel) (c : ContextId) (generation : Option Nat) (t : Term) : Prop where
  stamped : ∃ (before : Kernel) (g : Option Nat), (g = generation ∨ g = before.stampGeneration? c) ∧
    k.stampGeneration? c = before.stampGeneration? c ∧ k.stamps = (before.stamp c t g).stamps

theorem JustStamped.updateContext {generation : Option Nat} {t : Term}
    (h : k.JustStamped c generation t) {f : Context → Context} (hf : ∀ x, (f x).fixed = x.fixed) :
    (k.updateContext c f).JustStamped c generation t := by
  obtain ⟨before, g, hg, hsame, hstamps⟩ := h.stamped
  have hdefinitions := (sameDefinitions_updateContext k c hf).stampGeneration?_eq c
  exact ⟨before, g, hg, hdefinitions.trans hsame, hstamps⟩

theorem stampGeneration?_stamp (k : Kernel) (c : ContextId) (t : Term) (g : Option Nat) :
    (k.stamp c t g).stampGeneration? c = k.stampGeneration? c :=
  (k.unwound_stamp c t g).definitions.stampGeneration?_eq c

theorem justStamped_stamp (k : Kernel) (c : ContextId) (t : Term) (generation : Option Nat) :
    (k.stamp c t generation).JustStamped c generation t :=
  ⟨k, generation, .inl rfl, k.stampGeneration?_stamp c t generation, rfl⟩

/-- A node that was stamped is remembered, unless local definitions are in sight. -/
theorem JustStamped.remembers {id : Nat} {head : Term} {args : List Term}
    (h : k.JustStamped c (k.stampGeneration? c) (.node id head args)) (hid : 0 < id)
    (hknown : id < k.stamps.size) (hlocal : k.stampGeneration? c ≠ none) :
    k.Remembers c (.node id head args) := by
  obtain ⟨before, g, hg, hsame, hstamps⟩ := h.stamped
  have hg : g = k.stampGeneration? c := by
    rcases hg with rfl | rfl
    · rfl
    · exact hsame.symm
  obtain ⟨generation, hgeneration⟩ := Option.ne_none_iff_exists'.mp hlocal
  unfold stamp at hstamps
  rw [hg, ← hsame, hgeneration] at hstamps
  simp only [markEvaluated, if_neg (Nat.ne_of_gt hid)] at hstamps
  have hget : k.stamps.getD id 0 = generation := by
    rw [hstamps, Array.size_setIfInBounds] at hknown
    rw [hstamps, Array.getD_eq_getD_getElem?, Array.getElem?_setIfInBounds_self_of_lt hknown]
    rfl
  rw [Remembers, hgeneration]
  simp [isEvaluated, hget, Nat.ne_of_gt hid]

end Kernel

/-! ## results are stamped -/

open EvalM

theorem justStamped_hold {c : ContextId} {t held : Term} {k k' : Kernel} (generation : Option Nat)
    (h : (Evaluator.hold c t).run k = (.ok held, k')) : k'.JustStamped c generation held := by
  let shared := k.share (.app .hold [t])
  have hrun : (Evaluator.hold c t).run k =
      (.ok shared.1, shared.2.stamp c shared.1 (shared.2.stampGeneration? c)) := rfl
  cases hrun.symm.trans h
  exact ⟨shared.2, _, .inr rfl, shared.2.stampGeneration?_stamp c _ _, rfl⟩

namespace Evaluator

variable {r : Evaluator} {c : ContextId} {k k' : Kernel} {call t v : Term}

theorem justStamped_evaluateParts {generation : Option Nat}
    (h : (r.evaluateParts c generation call).run k = (.ok (.done v), k')) :
    k'.JustStamped c generation v := by
  unfold evaluateParts at h
  obtain ⟨head, k₁, -, h⟩ := run_bind_eq_ok h
  obtain ⟨seen, k₂, -, h⟩ := run_bind_eq_ok h
  obtain ⟨args, k₃, -, h⟩ := run_bind_eq_ok h
  obtain ⟨shared, k₄, -, h⟩ := run_bind_eq_ok h
  obtain ⟨step, k₅, -, h⟩ := run_bind_eq_ok h
  cases step with
  | rewritten threaded => cases h
  | done normal =>
      obtain ⟨normal, k₆, -, h⟩ := run_bind_eq_ok h
      obtain ⟨result, k₇, -, h⟩ := run_bind_eq_ok h
      cases result with
      | some result => cases h
      | none =>
          cases h
          exact k₇.justStamped_stamp c v generation

theorem justStamped_refuse {generation : Option Nat}
    (h : (refuse c call).run k = (.ok (.done v), k')) : k'.JustStamped c generation v := by
  unfold refuse at h
  obtain ⟨seen, k₁, -, h⟩ := run_bind_eq_ok h
  dsimp only at h
  split at h
  · cases h
  · split at h
    · obtain ⟨held, k₂, -, h⟩ := run_bind_eq_ok h
      cases h
    · obtain ⟨-, k₂, -, h⟩ := run_bind_eq_ok h
      obtain ⟨-, k₃, -, h⟩ := run_bind_eq_ok h
      obtain ⟨held, k₄, hhold, h⟩ := run_bind_eq_ok h
      cases h
      exact justStamped_hold generation hhold

/-- What a call gives back is stamped, with the generation at which the call was entered. -/
theorem justStamped_evaluateCall (h : (r.evaluateCall c call).run k = (.ok (.done v), k')) :
    k'.JustStamped c (k.stampGeneration? c) v := by
  let inside := (if (k.enter c).config.maxRecursion < (k.enter c).depth c then refuse c call
    else r.evaluateParts c (k.stampGeneration? c) call).run (k.enter c)
  have hrun : (r.evaluateCall c call).run k = (inside.1, inside.2.leave c) := rfl
  rcases hinside : inside with ⟨result, k₁⟩
  rw [hrun, hinside] at h
  cases h
  refine Kernel.JustStamped.updateContext ?_ fun _ => rfl
  by_cases hbeyond : (k.enter c).config.maxRecursion < (k.enter c).depth c
  · simp only [inside, if_pos hbeyond] at hinside
    exact justStamped_refuse hinside
  · simp only [inside, if_neg hbeyond] at hinside
    exact justStamped_evaluateParts hinside

/-- A round ends with what its step left, or with a stamp. -/
theorem justStamped_endRound {step : Step} {generation : Option Nat}
    (h : (endRound c t step).run k = (.ok (.done v), k')) :
    step = .done v ∧ k' = k ∨ k'.JustStamped c generation v := by
  cases step with
  | done value =>
      cases h
      exact .inl ⟨rfl, rfl⟩
  | rewritten next =>
      obtain ⟨next, k₁, -, h⟩ := run_bind_eq_ok h
      split at h
      · cases h
        exact .inr ⟨k₁, _, .inr rfl, k₁.stampGeneration?_stamp c _ _, rfl⟩
      · cases h

/-- A node that a round gives back in the end was remembered before, or is stamped. -/
theorem remembers_or_justStamped {id : Nat} {head : Term} {args : List Term}
    (h : (r.evaluateRound c t).run k = (.ok (.done (.node id head args)), k')) :
    k'.Remembers c (.node id head args) ∨
      k'.JustStamped c (k.stampGeneration? c) (.node id head args) := by
  rw [evaluateRound_eq] at h
  obtain ⟨u, k₁, hcheck, h⟩ := run_bind_eq_ok h
  have hk₁ : k₁ = k.elapse Kernel.lookTime := by
    rw [← kernel_run_checkAbort k c, hcheck]
  obtain ⟨shared, k₂, hshare, h⟩ := run_bind_eq_ok h
  have hk₂ : k₂.stampGeneration? c = k.stampGeneration? c := by
    cases hshare
    rw [hk₁]
    rfl
  obtain ⟨step, k₃, hstep, h⟩ := run_bind_eq_ok h
  rcases justStamped_endRound h with ⟨rfl, rfl⟩ | hstamped
  case inr => exact .inr hstamped
  cases shared with
  | symbol s =>
      obtain ⟨value, k₃, -, hstep⟩ := run_bind_eq_ok hstep
      cases value <;> cases hstep
  | node i f xs =>
      obtain ⟨seen, k₃, hget, hstep⟩ := run_bind_eq_ok hstep
      cases hget
      split at hstep
      · rename_i hevaluated
        cases hstep
        exact .inl hevaluated
      · rw [← hk₂]
        exact .inr (justStamped_evaluateCall hstep)
  | _ => cases hstep

/-! ## results are remembered -/

/-- A round in a context leaves it unwound. -/
theorem leaves_evaluateRound (hk : (entries c).From c k) (fuel : Nat) (t : Term) :
    (unwinding c).Leaves k (((ofFuel fuel).evaluateRound c t).run k).1
      (((ofFuel fuel).evaluateRound c t).run k).2 := by
  have hagree := agreesIn_entries c fuel
  exact (alike_evaluateRound (hosts_entries c) (hagree.rewritesAlike c)
    (Callees.rules_true _ .own) (alike_evaluateCall_entries hagree) t k hk).leaves

theorem remembers_or_justStamped_rounds {id : Nat} {head : Term} {args : List Term}
    (fuel left : Nat) (hk : (entries c).From c k)
    (h : ((ofFuel fuel).evaluateRounds c left t).run k = (.ok (.node id head args), k')) :
    k'.Remembers c (.node id head args) ∨
      k'.JustStamped c (k.stampGeneration? c) (.node id head args) := by
  induction left generalizing t k with
  | zero =>
      obtain ⟨step, k₁, hround, h⟩ := run_bind_eq_ok h
      cases step with
      | done value =>
          cases h
          exact remembers_or_justStamped hround
      | rewritten next =>
          obtain ⟨seen, k₂, -, h⟩ := run_bind_eq_ok h
          obtain ⟨u, k₃, -, h⟩ := run_bind_eq_ok h
          exact .inr (justStamped_hold _ h)
  | succ left ih =>
      obtain ⟨step, k₁, hround, h⟩ := run_bind_eq_ok h
      cases step with
      | done value =>
          cases h
          exact remembers_or_justStamped hround
      | rewritten next =>
          have hleaves := leaves_evaluateRound hk fuel t
          rw [hround] at hleaves
          have hk₁ := (entries c).keeps hk hleaves
          rw [← hleaves.definitions.stampGeneration?_eq c]
          exact ih hk₁ h

end Evaluator

namespace Kernel

variable {k k' : Kernel} {c : ContextId} {id : Nat} {head : Term} {args : List Term}

/-- What an evaluation gives back is remembered. -/
theorem Orderly.remembers_evaluateWith (hk : k.Orderly) (hc : c.index < k.contexts.size)
    (hempty : k.pendingException c = none) (hlocal : k.stampGeneration? c ≠ none) {fuel : Nat}
    {t : Term} (hrun : (evaluateWith fuel c t).run k = (.ok (.node id head args), k'))
    (hid : 0 < id) (hknown : id < k'.stamps.size) : k'.Remembers c (.node id head args) := by
  have hleaves := hk.unwound_evaluateWith hc hempty fuel t
  rw [hrun] at hleaves
  have hsame := hleaves.definitions.stampGeneration?_eq c
  rw [← hsame] at hlocal
  suffices h : k'.Remembers c (.node id head args) ∨
      k'.JustStamped c (k'.stampGeneration? c) (.node id head args) from
    h.elim (fun h => h) fun h => h.remembers hid hknown hlocal
  rw [hsame]
  cases fuel with
  | zero => cases hrun
  | succ fuel =>
      have hfrom : (entries c).From c k := ⟨rfl, hc, hempty, hk⟩
      obtain ⟨seen, k₁, hget, hrun⟩ := EvalM.run_bind_eq_ok hrun
      cases hget
      dsimp only at hrun
      split at hrun
      · obtain ⟨k₁, hrounds, rfl⟩ := EvalM.run_ensuring_eq_ok hrun
        exact (Evaluator.remembers_or_justStamped_rounds fuel _ hfrom hrounds).imp
          (fun h => h.updateContext fun _ => rfl) fun h => h.updateContext fun _ => rfl
      · exact Evaluator.remembers_or_justStamped_rounds fuel _ hfrom hrun

/-- A node that is remembered is answered at once, after one look for an abort. -/
theorem Remembers.run_evaluateWith (h : k.Remembers c (.node id head args)) (hid : 0 < id)
    (hquiet : k.Quiet c) (fuel : Nat) :
    (evaluateWith (fuel + 1) c (.node id head args)).run k = (.ok (.node id head args),
      if k.depth c = 0 then (k.elapse lookTime).setLimitReported c false
      else k.elapse lookTime) := by
  let k₁ := k.elapse lookTime
  have hshare : (Termwise.share (.node id head args)).run k₁ = (.ok (.node id head args), k₁) := by
    obtain ⟨n, rfl⟩ := Nat.exists_eq_succ_of_ne_zero (Nat.ne_of_gt hid)
    have hsame : (k₁.share (.node (n + 1) head args)).2 = k₁ := by
      simp [Kernel.share, Term.share]
    exact congrArg (Prod.mk _) hsame
  have hget : (get : EvalM Kernel).run k₁ = (.ok k₁, k₁) := rfl
  have hround : ∀ r : Evaluator, (r.evaluateRound c (.node id head args)).run k =
      (.ok (.done (.node id head args)), k₁) := by
    intro r
    rw [Evaluator.evaluateRound, EvalM.run_bind_ok (run_checkAbort hquiet),
      EvalM.run_bind_ok hshare]
    refine (EvalM.run_bind_ok hget).trans ?_
    have hevaluated : (k₁.stampGeneration? c).any (k₁.isEvaluated (.node id head args)) = true := h
    rw [if_pos hevaluated]
    rfl
  have hrounds : ∀ (r : Evaluator) (left : Nat),
      (r.evaluateRounds c left (.node id head args)).run k = (.ok (.node id head args), k₁) := by
    intro r left
    cases left <;> rw [Evaluator.evaluateRounds, EvalM.run_bind_ok (hround r)] <;> rfl
  have hget : (get : EvalM Kernel).run k = (.ok k, k) := rfl
  rw [evaluateWith, Evaluator.evaluateFully, EvalM.run_bind_ok hget]
  dsimp only
  split
  · rw [EvalM.run_ensuring, hrounds]
  · exact hrounds _ _

end Kernel

/-! ## a held sequence -/

/-- The outcome is a success such that. -/
def succeedsWith (q : Term → Kernel → Bool) : Except EvalError Term × Kernel → Bool
  | (.ok v, k) => q v k
  | (.error _, _) => false

theorem exists_of_succeedsWith {q : Term → Kernel → Bool} {p : Except EvalError Term × Kernel}
    (h : succeedsWith q p = true) : ∃ v k, p = (.ok v, k) ∧ q v k = true := by
  obtain ⟨result, k⟩ := p
  cases result with
  | ok v => exact ⟨v, k, rfl, h⟩
  | error e => cases h

/-- The kernel after `y := 1`. -/
def oneKernel : Kernel :=
  ((namedKernel {}).updateRecord ⟨39, "y"⟩ fun r => { r with value := some (.int 1) }).bump

/-- `Pattern(Sequence(x, y))`; the first argument of `Pattern` is held. -/
def heldSequence : Term :=
  .app .pattern [.app .sequence [.symbol ⟨38, "x"⟩, .symbol ⟨39, "y"⟩]]

theorem reached_oneKernel : Reached oneKernel .empty :=
  .kernel (.define ⟨0⟩ (.symbol ⟨39, "y"⟩) (.int 1) .immediate) (reached_namedKernel {})

theorem orderly_oneKernel : oneKernel.Orderly := Kernel.orderly_of_all (by decide +kernel)

/-! ## evaluating again -/

variable {k k' : Kernel} {c : ContextId} {id : Nat} {head : Term} {args : List Term}

/-- Where native code is orderly and no local definitions are in sight, a call that an evaluation
gives back is answered at once when it is evaluated again: no rule is tried and no code is run. -/
theorem Kernel.Orderly.evaluateWith_again (hk : k.Orderly) (hc : c.index < k.contexts.size)
    (hempty : k.pendingException c = none) (hlocal : k.stampGeneration? c ≠ none)
    (hquiet : k.Quiet c) {fuel : Nat} {t : Term}
    (hrun : (evaluateWith fuel c t).run k = (.ok (.node id head args), k')) (hid : 0 < id)
    (hknown : id < k'.stamps.size) (fuel' : Nat) :
    (evaluateWith (fuel' + 1) c (.node id head args)).run k' = (.ok (.node id head args),
      if k'.depth c = 0 then (k'.elapse Kernel.lookTime).setLimitReported c false
      else k'.elapse Kernel.lookTime) := by
  have hleaves := hk.unwound_evaluateWith hc hempty fuel t
  rw [hrun] at hleaves
  have hremembers := hk.remembers_evaluateWith hc hempty hlocal hrun hid hknown
  exact hremembers.run_evaluateWith hid (hleaves.definitions.quiet hquiet) fuel'

/-- After `y := 1`, `Pattern(Sequence(x, y))` gives `Pattern(x, y)`, with no limit in sight, and a
copy of that gives something else: `y`, held before, is its second argument now. -/
theorem evaluate_copy_of_held : ∃ k, Reached k .empty ∧ k.Orderly ∧ k.Quiet ⟨0⟩ ∧
    k.stampGeneration? ⟨0⟩ ≠ none ∧ ∃ v k' w k'',
      (evaluate ⟨0⟩ heldSequence).run k = (.ok v, k') ∧ k'.messages = [] ∧
        (evaluate ⟨0⟩ v.strip).run k' = (.ok w, k'') ∧ k''.messages = [] ∧ (w == v) = false := by
  have hrun : succeedsWith (fun v k' => k'.messages.isEmpty &&
        succeedsWith (fun w k'' => k''.messages.isEmpty && !(w == v))
          ((evaluate ⟨0⟩ v.strip).run k'))
      ((evaluate ⟨0⟩ heldSequence).run oneKernel) = true := by decide +kernel
  obtain ⟨v, k', hv, hcopy⟩ := exists_of_succeedsWith hrun
  obtain ⟨hmessages, hcopy⟩ := (Bool.and_eq_true _ _).mp hcopy
  obtain ⟨w, k'', hw, hdiffers⟩ := exists_of_succeedsWith hcopy
  obtain ⟨hmessages', hdiffers⟩ := (Bool.and_eq_true _ _).mp hdiffers
  exact ⟨oneKernel, reached_oneKernel, orderly_oneKernel, ⟨rfl, rfl⟩, nofun, v, k', w, k'', hv,
    List.isEmpty_iff.mp hmessages, hw, List.isEmpty_iff.mp hmessages',
    by rwa [Bool.not_eq_true'] at hdiffers⟩

end Termwise
