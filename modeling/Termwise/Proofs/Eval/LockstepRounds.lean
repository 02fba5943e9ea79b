import Termwise.Eval.Evaluate
import Termwise.Proofs.Eval.Lockstep
import Termwise.Proofs.Eval.Stages

/-!
# Termwise.Proofs.Eval.LockstepRounds

Calls and rounds in two runs.  One round on terms that correspond ends in the same way in
both, so the two take as many rounds; and since evaluation nests as deep in both, the
evaluator of any fuel runs in lockstep (`inLockstep_ofFuel`).
-/

namespace Termwise

open Correspondence Evaluator

/-- Ends of a round that correspond. -/
inductive Likeness.Steps {W : Type} [Preorder W] (L : Likeness W) (w : W) : Step → Step → Prop
  | done {t t' : Term} : L.Like w t t' → Steps L w (.done t) (.done t')
  | rewritten {t t' : Term} : L.Like w t t' → Steps L w (.rewritten t) (.rewritten t')

namespace Likeness

variable {W : Type} [Preorder W] {L : Likeness W} {w : W} {t t' : Term}

theorem upSymbols_eq (attrs : Attributes) (ht : L.Like w t t') :
    upSymbols attrs t = upSymbols attrs t' := by
  rw [upSymbols, upSymbols, (all_args ht).filterMap_eq topmost?_eq]

theorem symbol?_eq (ht : L.Like w t t') : symbol? t = symbol? t' := by
  rcases symbol_or ht with ⟨s, rfl, rfl⟩ | ⟨hne, hne'⟩
  · rfl
  · have hnone : ∀ {u : Term}, (∀ s, u ≠ .symbol s) → symbol? u = none := fun {u} hu => by
      cases u with
      | symbol s => exact absurd rfl (hu s)
      | _ => rfl
    rw [hnone hne, hnone hne']

end Likeness

namespace Evaluator

variable {W : Type} [Preorder W] {T : Twins W} {c : ContextId} {r : Evaluator} {w : W} {n : Nat}
  {t t' : Term}

/-! ## parts of calls -/

theorem InLockstep.evaluateArgs (h : r.InLockstep T c) (attrs : Attributes) (i : Nat)
    {ts ts' : List Term} (hts : T.likeness.All w ts ts') :
    (T.running n).Alike w (T.likeness.Fill ts) (r.evaluateArgs c attrs i ts)
      (r.evaluateArgs c attrs i ts') := by
  induction hts generalizing i with
  | nil => exact (T.running n).alike_pure fun _ _ => ⟨.nil, rfl⟩
  | @cons t t' ts ts' ht _ ih =>
      have hrest : ∀ {w' v v'}, w ≤ w' → T.likeness.Like w' v v' →
          (T.running n).Alike w' (T.likeness.Fill (t :: ts))
            (do return v :: (← r.evaluateArgs c attrs (i + 1) ts))
            (do return v' :: (← r.evaluateArgs c attrs (i + 1) ts')) := fun hw hv =>
        (T.running n).alike_bind ((T.running n).later hw (ih (i + 1))) fun _ _ _ hw' hvs =>
          (T.running n).alike_pure fun _ hw'' => ⟨.cons (T.likeness.later (hw'.trans hw'') hv)
            (hvs.1.later hw''), congrArg (· + 1) hvs.2⟩
      simp only [Evaluator.evaluateArgs, Likeness.hasHead_eq ht]
      split
      · exact hrest le_rfl ht
      · exact (T.running n).alike_bind (h.evaluate n ht) fun _ _ _ hw hv => hrest hw hv

section

variable (hosts : T.Hosts c)

include hosts

theorem alike_threadListable (ht : T.likeness.Like w t t') :
    (T.running n).Answers w T.likeness.Like t.threadListable t'.threadListable := by
  unfold Term.threadListable
  rw [(Likeness.all_args ht).listLengths_eq]
  split
  · exact answers_none
  · split
    · exact (T.running n).alike_pure fun _ hw =>
        .some (T.likeness.later hw (Likeness.like_rows ht _))
    · exact alike_then (alike_message hosts _ _ (.cons ht .nil)) answers_none

theorem alike_normalize (attrs : Attributes) (ht : T.likeness.Like w t t') :
    (T.running n).Alike w T.likeness.Steps (normalize attrs t) (normalize attrs t') := by
  have hspliced := Likeness.like_spliced attrs ht
  have hsorted := Likeness.like_rearranged attrs hspliced
  rw [normalize_eq, normalize_eq]
  split
  · refine (T.running n).alike_bind (alike_threadListable hosts hspliced) fun w' o o' hw ho => ?_
    cases ho with
    | some hrows =>
        exact (T.running n).alike_pure fun _ hw => .rewritten (T.likeness.later hw hrows)
    | none =>
        have hsorted := T.likeness.later hw hsorted
        exact (T.running n).alike_pure fun _ hw => .done (T.likeness.later hw hsorted)
  · exact (T.running n).alike_pure fun _ hw => .done (T.likeness.later hw hsorted)

theorem alike_hold (ht : T.likeness.Like w t t') :
    (T.running n).Alike w T.likeness.Like (hold c t) (hold c t') := by
  refine (T.running n).alike_bind (hosts.share n (Likeness.app _ (.cons ht .nil)))
    fun w' held held' hw hheld => ?_
  refine alike_then (Twins.alike_modify fun _ _ _ hw' hk => ?_)
    ((T.running n).alike_pure fun _ hw' => T.likeness.later hw' hheld)
  exact hosts.stamp hk (hosts.generations hk) (T.likeness.later hw' hheld)

/-! ## calls -/

theorem InLockstep.runCode? (h : r.InLockstep T c) (usage : CodeUsage) (s : Symbol)
    (ht : T.likeness.Like w t t') :
    (T.running n).Answers w T.likeness.Like (r.runCode? c usage t s)
      (r.runCode? c usage t' s) := by
  refine Twins.alike_get fun w' k k' hw hk => ?_
  rw [hosts.record hk]
  cases hcode : (k.record s).code.get usage with
  | none => exact answers_none
  | some code =>
      exact h.run hosts (hosts.code hk s usage code hcode) (T.likeness.later hw ht)

theorem InLockstep.reduce (h : r.InLockstep T c) (attrs : Attributes) (head : Option Symbol)
    (ht : T.likeness.Like w t t') :
    (T.running n).Answers w T.likeness.Like (r.reduce c attrs head t)
      (r.reduce c attrs head t') := by
  have hattempts := forall₂_attempts (R := (T.running n).Answers w T.likeness.Like)
    (fun cache s => h.findRule? hosts s cache ht) (fun s => h.findLocalRule? hosts s ht)
    (fun usage s => h.runCode? hosts usage s ht) (Likeness.upSymbols_eq attrs ht)
    (Likeness.topmost?_eq (Likeness.like_key ht)) head
  rw [reduce_eq, reduce_eq]
  exact alike_findSomeM? (lasting_like _) hattempts fun _ _ _ hx => hx

theorem InLockstep.finishCall (h : r.InLockstep T c) {generation generation' : Option Nat}
    (hgeneration : T.Generations generation generation') (attrs : Attributes) (head : Option Symbol)
    (ht : T.likeness.Like w t t') :
    (T.running n).Alike w T.likeness.Steps (r.finishCall c generation attrs head t)
      (r.finishCall c generation' attrs head t') := by
  refine (T.running n).alike_bind (hosts.share n ht) fun w₁ normal normal' hw₁ hnormal => ?_
  refine (T.running n).alike_bind (h.reduce hosts attrs head hnormal) fun w₂ o o' hw₂ ho => ?_
  cases ho with
  | some hresult =>
      exact (T.running n).alike_pure fun _ hw => .rewritten (T.likeness.later hw hresult)
  | none =>
      have hnormal := T.likeness.later hw₂ hnormal
      refine alike_then (Twins.alike_modify fun _ _ _ hw hk => ?_)
        ((T.running n).alike_pure fun _ hw => .done (T.likeness.later hw hnormal))
      exact hosts.stamp hk hgeneration (T.likeness.later hw hnormal)

theorem InLockstep.arrangeCall (h : r.InLockstep T c) {generation generation' : Option Nat}
    (hgeneration : T.Generations generation generation') (attrs : Attributes) (head : Option Symbol)
    (ht : T.likeness.Like w t t') :
    (T.running n).Alike w T.likeness.Steps (r.arrangeCall c generation attrs head t)
      (r.arrangeCall c generation' attrs head t') := by
  refine (T.running n).alike_bind (hosts.share n ht) fun w₁ _ _ hw₁ hshared => ?_
  refine (T.running n).alike_bind (alike_normalize hosts attrs hshared)
    fun w₂ step step' hw₂ hstep => ?_
  cases hstep with
  | rewritten hrows =>
      exact (T.running n).alike_pure fun _ hw => .rewritten (T.likeness.later hw hrows)
  | done hnormal => exact h.finishCall hosts hgeneration attrs head hnormal

theorem InLockstep.evaluateOn (h : r.InLockstep T c) {generation generation' : Option Nat}
    (hgeneration : T.Generations generation generation') (attrs : Attributes) {i j : Nat}
    {f g head head' : Term} {xs ys : List Term}
    (ht : T.likeness.Like w (.node i f xs) (.node j g ys)) (hhead : T.likeness.Like w head head') :
    (T.running n).Alike w T.likeness.Steps
      (r.evaluateOn c generation (.node i f xs) head attrs)
      (r.evaluateOn c generation' (.node j g ys) head' attrs) := by
  refine (T.running n).alike_bind (h.evaluateArgs attrs 1 (T.likeness.args ht))
    fun w₁ args args' hw₁ hargs => ?_
  have hrebuilt := hosts.rebuild (T.likeness.later hw₁ ht) (T.likeness.later hw₁ hhead) hargs.1
    hargs.2
  rw [Likeness.symbol?_eq hhead]
  exact h.arrangeCall hosts hgeneration attrs _ hrebuilt

theorem InLockstep.evaluateParts (h : r.InLockstep T c) {generation generation' : Option Nat}
    (hgeneration : T.Generations generation generation') {i j : Nat} {f g : Term}
    {xs ys : List Term} (ht : T.likeness.Like w (.node i f xs) (.node j g ys)) :
    (T.running n).Alike w T.likeness.Steps (r.evaluateParts c generation (.node i f xs))
      (r.evaluateParts c generation' (.node j g ys)) := by
  rw [evaluateParts_eq, evaluateParts_eq]
  refine (T.running n).alike_bind (h.evaluate n (T.likeness.head ht))
    fun w₁ head head' hw₁ hhead => ?_
  refine Twins.alike_get fun w₂ k k' hw₂ hk => ?_
  rw [Likeness.symbol?_eq hhead, hosts.attributes hk]
  exact h.evaluateOn hosts hgeneration _ (T.likeness.later (hw₁.trans hw₂) ht)
    (T.likeness.later hw₂ hhead)

/-- Beyond the recursion limit both runs give up in the same way. -/
theorem alike_refuse (ht : T.likeness.Like w t t') :
    (T.running n).Alike w T.likeness.Steps (refuse c t) (refuse c t') := by
  refine Twins.alike_get fun w₁ k k' hw₁ hk => ?_
  have hhold := fun w₂ (hw : w₁ ≤ w₂) =>
    alike_hold hosts (n := n) (T.likeness.later (hw₁.trans hw) ht)
  dsimp only
  rw [hosts.config hk, hosts.depth hk, hosts.limitReported hk]
  split
  · exact Twins.alike_throw fun _ _ => .other rfl
  split
  · exact (T.running n).alike_bind (hhold w₁ le_rfl) fun _ _ _ _ hheld => alike_raise hosts hheld
  · refine alike_then (Twins.alike_modify fun _ _ _ _ hk => hosts.setLimitReported true hk) ?_
    refine alike_then (alike_message hosts _ _ (.cons (T.likeness.int _ _) .nil)) ?_
    exact (T.running n).alike_bind (hhold w₁ le_rfl) fun _ _ _ _ hheld =>
      (T.running n).alike_pure fun _ hw => .done (T.likeness.later hw hheld)

theorem InLockstep.evaluateCall (h : r.InLockstep T c) {i j : Nat} {f g : Term}
    {xs ys : List Term} (ht : T.likeness.Like w (.node i f xs) (.node j g ys)) :
    (T.running n).Alike w T.likeness.Steps (r.evaluateCall c (.node i f xs))
      (r.evaluateCall c (.node j g ys)) := by
  refine Twins.alike_get fun w₁ k k' hw₁ hk => ?_
  have hgeneration := hosts.generations hk
  refine alike_then (Twins.alike_modify fun _ _ _ _ hk => hosts.enter hk) ?_
  refine Twins.alike_ensuring (Twins.alike_get fun w₂ k k' hw₂ hk => ?_) fun _ _ _ _ hk =>
    hosts.leave hk
  have ht := T.likeness.later (hw₁.trans hw₂) ht
  rw [hosts.config hk, hosts.depth hk]
  split
  · exact alike_refuse hosts ht
  · exact h.evaluateParts hosts hgeneration ht

/-! ## rounds -/

theorem InLockstep.evaluateSymbol (h : r.InLockstep T c) (w : W) (s : Symbol) :
    (T.running n).Answers w T.likeness.Like (r.evaluateSymbol c s) (r.evaluateSymbol c s) := by
  refine Twins.alike_get fun w₁ k k' hw₁ hk => ?_
  rw [hosts.record hk, hosts.localValue? hk, Kernel.value?, Kernel.value?, hosts.record hk]
  split
  · exact answers_none
  · split
    · rename_i value hvalue
      have hsettled := hosts.value hk s value hvalue
      exact (T.running n).alike_pure fun _ hw => .some (T.likeness.later hw hsettled)
    · exact h.findRule? hosts s .own (T.likeness.symbol w₁ s)

theorem InLockstep.roundStep (h : r.InLockstep T c) (ht : T.likeness.Like w t t') :
    (T.running n).Alike w T.likeness.Steps (r.roundStep c t) (r.roundStep c t') := by
  cases t with
  | symbol s =>
      rw [Likeness.eq_symbol ht]
      refine (T.running n).alike_bind (h.evaluateSymbol hosts w s) fun w' o o' hw ho => ?_
      cases ho with
      | some hvalue =>
          exact (T.running n).alike_pure fun _ hw => .rewritten (T.likeness.later hw hvalue)
      | none => exact (T.running n).alike_pure fun w _ => .done (T.likeness.symbol w s)
  | node i f xs =>
      obtain ⟨j, g, ys, rfl, -, -⟩ := Likeness.exists_node ht
      refine Twins.alike_get fun w' k k' hw hk => ?_
      have ht := T.likeness.later hw ht
      rw [hosts.evaluated hk ht]
      split
      · exact (T.running n).alike_pure fun _ hw => .done (T.likeness.later hw ht)
      · exact h.evaluateCall hosts ht
  | _ =>
      have hstrip := T.likeness.strip_eq ht
      cases t' with
      | node | symbol => simp [Term.strip] at hstrip
      | _ => exact (T.running n).alike_pure fun _ hw => .done (T.likeness.later hw ht)

theorem alike_endRound (ht : T.likeness.Like w t t') {step step' : Step}
    (hstep : T.likeness.Steps w step step') :
    (T.running n).Alike w T.likeness.Steps (endRound c t step) (endRound c t' step') := by
  cases hstep with
  | done hvalue => exact (T.running n).alike_pure fun _ hw => .done (T.likeness.later hw hvalue)
  | rewritten hnext =>
      refine (T.running n).alike_bind (hosts.share n hnext) fun w' next next' hw hnext => ?_
      rw [Likeness.beq_congr hnext (T.likeness.later hw ht)]
      split
      · refine alike_then (Twins.alike_modify fun _ _ _ hw hk => ?_)
          ((T.running n).alike_pure fun _ hw => .done (T.likeness.later hw hnext))
        exact hosts.stamp hk (hosts.generations hk) (T.likeness.later hw hnext)
      · exact (T.running n).alike_pure fun _ hw => .rewritten (T.likeness.later hw hnext)

theorem InLockstep.evaluateRound (h : r.InLockstep T c) (ht : T.likeness.Like w t t') :
    (T.running n).Alike w T.likeness.Steps (r.evaluateRound c t) (r.evaluateRound c t') := by
  rw [evaluateRound_eq, evaluateRound_eq]
  refine alike_then (hosts.poll w n) ?_
  refine (T.running n).alike_bind (hosts.share n ht) fun w₁ t t' hw₁ ht => ?_
  exact (T.running n).alike_bind (h.roundStep hosts ht) fun w₂ step step' hw₂ hstep =>
    alike_endRound hosts (T.likeness.later hw₂ ht) hstep

theorem InLockstep.afterRound (h : r.InLockstep T c) (left : Nat) {step step' : Step}
    (hstep : T.likeness.Steps w step step') :
    (T.running n).Alike w T.likeness.Like (r.afterRound c left step)
      (r.afterRound c left step') := by
  induction left generalizing w step step' with
  | zero =>
      cases hstep with
      | done hvalue => exact (T.running n).alike_pure fun _ hw => T.likeness.later hw hvalue
      | rewritten hnext =>
          refine Twins.alike_get fun w₁ k k' hw₁ hk => ?_
          rw [hosts.config hk]
          exact alike_then (alike_message hosts _ _ (.cons (T.likeness.int _ _) .nil))
            (alike_hold hosts (T.likeness.later hw₁ hnext))
  | succ left ih =>
      cases hstep with
      | done hvalue => exact (T.running n).alike_pure fun _ hw => T.likeness.later hw hvalue
      | rewritten hnext =>
          rw [Evaluator.afterRound, Evaluator.afterRound, evaluateRounds_eq, evaluateRounds_eq]
          exact (T.running n).alike_bind (h.evaluateRound hosts hnext) fun _ _ _ _ hstep => ih hstep

theorem InLockstep.evaluateRounds (h : r.InLockstep T c) (left : Nat)
    (ht : T.likeness.Like w t t') :
    (T.running n).Alike w T.likeness.Like (r.evaluateRounds c left t)
      (r.evaluateRounds c left t') := by
  rw [evaluateRounds_eq, evaluateRounds_eq]
  exact (T.running n).alike_bind (h.evaluateRound hosts ht) fun _ _ _ _ hstep =>
    h.afterRound hosts left hstep

theorem InLockstep.evaluateFully (h : r.InLockstep T c) (ht : T.likeness.Like w t t') :
    (T.running n).Alike w T.likeness.Like (r.evaluateFully c t) (r.evaluateFully c t') := by
  refine Twins.alike_get fun w₁ k k' hw₁ hk => ?_
  have hrounds := h.evaluateRounds hosts (n := n) k.config.maxIterations (T.likeness.later hw₁ ht)
  dsimp only
  rw [hosts.config hk, hosts.depth hk]
  split
  · exact Twins.alike_ensuring hrounds fun _ _ _ _ hk => hosts.setLimitReported false hk
  · exact hrounds

/-- The evaluator of any fuel runs in lockstep. -/
theorem inLockstep_ofFuel (fuel : Nat) : (ofFuel fuel).InLockstep T c := by
  induction fuel with
  | zero =>
      exact ⟨fun _ _ => Twins.alike_throw fun _ _ => .other rfl,
        fun _ _ _ _ => Twins.alike_throw fun _ _ => .other rfl⟩
  | succ fuel ih =>
      exact ⟨fun _ ht => ih.evaluateFully hosts ht,
        fun _ hlhs hrhs ht => ih.rewriteWith hosts hlhs hrhs ht⟩

end

end Evaluator

end Termwise
