import Termwise.Proofs.Eval.Arrangement
import Termwise.Proofs.Eval.Counterparts
import Termwise.Proofs.Eval.Twins

/-!
# Termwise.Proofs.Eval.Lockstep

Evaluation in two runs.  Terms that correspond are evaluated to terms that correspond, or
fail with errors that do, from kernels that correspond into kernels that do.  What has to
be known is how the kernels correspond under what evaluation does to them by itself
(`Twins.Hosts`).
-/

namespace Termwise

open Correspondence

/-- The evaluator runs in lockstep on terms and kernels that correspond. -/
structure Evaluator.InLockstep {W : Type} [Preorder W] (r : Evaluator) (T : Twins W)
    (c : ContextId) : Prop where
  evaluate : ∀ {w t t'} (n : Nat), T.likeness.Like w t t' →
    (T.running n).Alike w T.likeness.Like (r.evaluate c t) (r.evaluate c t')
  rewrite : ∀ {w lhs lhs' rhs rhs' t t'} (n : Nat), T.likeness.Like w lhs lhs' →
    T.likeness.Like w rhs rhs' → T.likeness.Like w t t' →
    (T.running n).Answers w T.likeness.Like (r.rewrite c lhs rhs t) (r.rewrite c lhs' rhs' t')

/-! ## what is read -/

namespace Twins.Hosts

variable {W : Type} [Preorder W] {T : Twins W} {c : ContextId} {w : W} {n : Nat} {k k' : Kernel}

theorem record (hosts : T.Hosts c) (hk : T.Kernels w n k k') : k'.record = k.record := by
  funext s
  rw [Kernel.record, Kernel.record, hosts.symbols hk]

theorem attributes (hosts : T.Hosts c) (hk : T.Kernels w n k k') :
    k'.attributes = k.attributes := by
  funext s
  rw [Kernel.attributes, Kernel.attributes, hosts.record hk]

theorem rules? (hosts : T.Hosts c) (hk : T.Kernels w n k k') (s : Symbol) (cache : RuleCache) :
    k'.rules? s cache = k.rules? s cache := by
  rw [Kernel.rules?, Kernel.rules?, hosts.record hk]

end Twins.Hosts

namespace Evaluator

variable {W : Type} [Preorder W] {T : Twins W} {c : ContextId} {r : Evaluator} {w : W} {n : Nat}
  {t t' : Term}

section

variable (h : r.InLockstep T c) (hosts : T.Hosts c)

include h hosts

/-! ## lookups and searches -/

/-- What the evaluator calls in the two runs corresponds. -/
theorem InLockstep.callees (n : Nat) : (r.callees c).Correspond (r.callees c) T.likeness
    (T.running n) fun w k k' => T.Kernels w n k k' where
  kernel := Twins.alike_get
  rules hk := {
    config := hosts.config hk
    attributes := hosts.attributes hk
    epoch := hosts.epoch hk
    rules? := funext fun s => funext fun cache => hosts.rules? hk s cache
    settled := hosts.rules hk }
  share := hosts.share n
  poll w := hosts.poll w n
  evaluate := h.evaluate n
  rewrite := h.rewrite n

theorem InLockstep.findRule? (s : Symbol) (cache : RuleCache) (ht : T.likeness.Like w t t') :
    (T.running n).Answers w T.likeness.Like (r.findRule? c s cache t)
      (r.findRule? c s cache t') := (h.callees hosts n).findRule? s cache ht

theorem InLockstep.findLocalRule? (s : Symbol) (ht : T.likeness.Like w t t') :
    (T.running n).Answers w T.likeness.Like (r.findLocalRule? c s t)
      (r.findLocalRule? c s t') := by
  refine Twins.alike_get fun w' k k' hw hk => ?_
  rw [hosts.localRules? hk]
  cases hrules : k.localRules? c s with
  | some list =>
      exact (h.callees hosts n).find? (hosts.localRules hk s list hrules) (T.likeness.later hw ht)
  | none => exact answers_none

theorem InLockstep.rewriteWith {lhs lhs' rhs rhs' : Term} (hlhs : T.likeness.Like w lhs lhs')
    (hrhs : T.likeness.Like w rhs rhs') (ht : T.likeness.Like w t t') :
    (T.running n).Answers w T.likeness.Like (r.rewriteWith c lhs rhs t)
      (r.rewriteWith c lhs' rhs' t') := (h.callees hosts n).rewriteWith hlhs hrhs ht

theorem InLockstep.isMatch {pattern pattern' : Term} (ht : T.likeness.Like w t t')
    (hpattern : T.likeness.Like w pattern pattern') :
    (T.running n).Alike w (fun _ => Eq) (r.isMatch c t pattern) (r.isMatch c t' pattern') :=
  (h.callees hosts n).isMatch ht hpattern

/-! ## exceptions and gathers -/

omit h in
theorem alike_message (s : Symbol) (tag : String) {args args' : List Term}
    (hargs : T.likeness.All w args args') :
    (T.running n).Alike w (fun _ _ _ => True) (message s tag args) (message s tag args') :=
  Twins.alike_modify fun _ _ _ hw hk => hosts.message s tag hk (hargs.later hw)

omit h in
theorem alike_raise {α β : Type} {R : W → α → β → Prop} (ht : T.likeness.Like w t t') :
    (T.running n).Alike w R (Termwise.raise c t) (Termwise.raise c t') := by
  have hrecord : (T.running n).Alike w (fun _ _ _ => True)
      (modify fun k => k.recordException c t) (modify fun k => k.recordException c t') :=
    Twins.alike_modify fun _ _ _ hw hk => hosts.raise hk (T.likeness.later hw ht)
  exact alike_then hrecord (Twins.alike_throw fun _ hw => .thrown (T.likeness.later hw ht))

theorem InLockstep.capture (ht : T.likeness.Like w t t') :
    (T.running n).Alike w T.likeness.Like (r.capture c t) (r.capture c t') := by
  have hreturn : ∀ {w' v v'}, T.likeness.Like w' v v' →
      (T.running n).Alike w' T.likeness.Like (pure v) (pure v') := fun hv =>
    (T.running n).alike_pure fun _ hw => T.likeness.later hw hv
  refine Twins.alike_outcome (h.evaluate n ht) fun w' o o' hw ho => ?_
  cases ho with
  | ok hv => exact hreturn hv
  | error he =>
      cases he with
      | thrown hv =>
          exact alike_then (Twins.alike_modify fun _ _ _ _ hk => hosts.catches hk) (hreturn hv)
      | other hnone =>
          rename_i e
          cases e with
          | thrown v => cases hnone
          | _ => exact Twins.alike_throw fun _ _ => .other rfl

theorem InLockstep.gather {pattern pattern' : Term} (ht : T.likeness.Like w t t')
    (hpattern : T.likeness.Like w pattern pattern') :
    (T.running n).Alike w T.likeness.Like (r.gather c t pattern) (r.gather c t' pattern') := by
  intro w' k k' hw hk
  obtain ⟨w₁, hw₁, hopen⟩ := hosts.opens hk (T.likeness.later hw hpattern)
  have ht := T.likeness.later (hw.trans hw₁) ht
  obtain ⟨w₂, hw₂, hk₂, hresult⟩ := h.evaluate (n + 1) ht w₁ _ _ le_rfl hopen
  obtain ⟨hclosed, hvalues⟩ := hosts.closes hk₂
  refine ⟨w₂, hw₁.trans hw₂, ?_⟩
  rw [run_gather, run_gather]
  refine ⟨hclosed, ?_⟩
  generalize ((r.evaluate c t).run (k.gatherBegin c pattern)).1 = o,
    ((r.evaluate c t').run (k'.gatherBegin c pattern')).1 = o' at hresult
  cases hresult with
  | ok hv => exact .ok (Likeness.app _ (.cons hv (.cons (Likeness.app _ hvalues) .nil)))
  | error he => exact .error he

variable {value value' tag tag' : Term}

theorem InLockstep.offer {owner : ContextId} {g g' : GatherFrame}
    (hid : T.Gathers w owner g.id g'.id) (hpattern : T.likeness.Like w g.pattern g'.pattern)
    (hvalue : T.likeness.Like w value value') (htag : T.likeness.Like w tag tag') :
    (T.running n).Answers w (fun _ _ _ => True) (r.offer c owner value tag g)
      (r.offer c owner value' tag' g') := by
  refine alike_read (h.isMatch hosts htag hpattern) fun matched => ?_
  split
  · refine Twins.alike_get fun w₁ k k' hw₁ hk => ?_
    have hid := T.gathers_later hw₁ hid
    rw [hosts.isOpen hk hid]
    split
    · refine alike_then (Twins.alike_modify fun w₂ _ _ hw₂ hk => ?_)
        ((T.running n).alike_pure fun _ _ => .some trivial)
      exact hosts.collect hk (T.gathers_later hw₂ hid) (T.likeness.later (hw₁.trans hw₂) hvalue)
    · exact answers_none
  · exact answers_none

theorem InLockstep.emitInto (hvalue : T.likeness.Like w value value')
    (htag : T.likeness.Like w tag tag') {owners : List ContextId}
    (howners : ∀ {w n k k'}, T.Kernels w n k k' → ∀ owner ∈ owners,
      T.OpenAlike w owner (k.context owner).gathers (k'.context owner).gathers) (seen : Bool) :
    (T.running n).Alike w (fun _ _ _ => True) (r.emitInto c value tag owners seen)
      (r.emitInto c value' tag' owners seen) := by
  induction owners generalizing w seen with
  | nil =>
      unfold Evaluator.emitInto
      split
      · exact alike_message hosts _ _ (.cons hvalue (.cons htag .nil))
      · exact alike_message hosts _ _ (.cons hvalue .nil)
  | cons owner rest ih =>
      refine Twins.alike_get fun w' k k' hw hk => ?_
      have hvalue := T.likeness.later hw hvalue
      have htag := T.likeness.later hw htag
      have hopen := howners hk owner List.mem_cons_self
      dsimp only
      rw [Pattern.isEmpty_congr hopen]
      refine (T.running n).alike_bind (alike_findSomeM? (lasting_const _) hopen
        fun g _ g' hg => h.offer hosts hg.1 hg.2 hvalue htag) fun w'' found found' hw' hfound => ?_
      cases hfound with
      | some => exact (T.running n).alike_pure fun _ _ => trivial
      | none =>
          exact ih (T.likeness.later hw' hvalue) (T.likeness.later hw' htag)
            (fun hk owner howner => howners hk owner (List.mem_cons_of_mem _ howner)) _

theorem InLockstep.emit (hvalue : T.likeness.Like w value value')
    (htag : T.likeness.Like w tag tag') :
    (T.running n).Alike w (fun _ _ _ => True) (r.emit c value tag) (r.emit c value' tag') := by
  obtain ⟨owners, howners⟩ := hosts.ancestors
  refine Twins.alike_get fun w' k k' hw hk => ?_
  obtain ⟨hleft, hright, -⟩ := howners hk
  rw [hleft, hright]
  exact h.emitInto hosts (T.likeness.later hw hvalue) (T.likeness.later hw htag)
    (fun hk => (howners hk).2.2) false

/-! ## native code -/

theorem InLockstep.format (ht : T.likeness.Like w t t') :
    (T.running n).Alike w T.likeness.Like (r.format c t) (r.format c t') := by
  unfold Evaluator.format
  rw [Likeness.topmost?_eq ht]
  cases t'.topmost? with
  | none => exact (T.running n).alike_pure fun _ hw => T.likeness.later hw ht
  | some s =>
      refine (T.running n).alike_bind (h.findRule? hosts s .format ht) fun w' o o' hw ho =>
        (T.running n).alike_pure fun _ hw' => ?_
      cases ho with
      | none => exact T.likeness.later (hw.trans hw') ht
      | some hresult => exact T.likeness.later hw' hresult

/-- Native code makes terms that correspond of calls that do. -/
theorem InLockstep.run {code : Native} (hcode : Twins.Fits T.likeness code)
    (ht : T.likeness.Like w t t') :
    (T.running n).Answers w T.likeness.Like (r.run c code t) (r.run c code t') := by
  have hlike := lasting_like T.likeness
  have hreturn : ∀ {v v'}, T.likeness.Like w v v' →
      (T.running n).Answers w T.likeness.Like (pure (some v)) (pure (some v')) := fun hv =>
    (T.running n).alike_pure fun _ hw => .some (T.likeness.later hw hv)
  have hbool : ∀ b : Bool, T.likeness.Like w (.ofBool b) (.ofBool b) := fun b =>
    T.likeness.symbol w _
  unfold Evaluator.run
  have hargs := Likeness.all_args ht
  generalize t.args = xs, t'.args = ys at hargs
  cases code with
  | function f =>
      refine (T.running n).alike_pure fun _ hw => ?_
      exact (hcode ht).later hw
  | raise =>
      rcases hargs with _ | ⟨hx, _ | ⟨hy, hrest⟩⟩
      · exact answers_none
      · exact alike_raise hosts hx
      · exact answers_none
  | capture =>
      rcases hargs with _ | ⟨hx, _ | ⟨hy, hrest⟩⟩
      · exact answers_none
      · exact alike_some hlike (h.capture hosts hx)
      · exact answers_none
  | gather =>
      rcases hargs with _ | ⟨hx, _ | ⟨hy, _ | ⟨hz, hrest⟩⟩⟩
      · exact answers_none
      · exact alike_some hlike (h.gather hosts hx (Likeness.app _ .nil))
      · exact alike_some hlike (h.gather hosts hx hy)
      · exact answers_none
  | emit =>
      rcases hargs with _ | ⟨hx, _ | ⟨hy, _ | ⟨hz, hrest⟩⟩⟩
      · exact answers_none
      · exact alike_then (h.emit hosts hx (T.likeness.magic w .null)) (hreturn hx)
      · exact alike_then (h.emit hosts hx hy) (hreturn hx)
      · exact answers_none
  | release =>
      rcases hargs with _ | ⟨hx, _ | ⟨hy, hrest⟩⟩
      · exact hreturn (Likeness.app _ .nil)
      · exact hreturn hx
      · exact hreturn (Likeness.app _ (.cons hx (.cons hy hrest)))
  | depth =>
      rcases hargs with _ | ⟨hx, hrest⟩
      · refine Twins.alike_get fun w' k k' _ hk => ?_
        rw [hosts.depth hk]
        exact (T.running n).alike_pure fun w'' _ => .some (T.likeness.int w'' _)
      · exact answers_none
  | isMatch =>
      rcases hargs with _ | ⟨hx, _ | ⟨hy, _ | ⟨hz, hrest⟩⟩⟩
      case cons.cons.nil =>
        exact alike_read (h.isMatch hosts hx hy) fun matched => hreturn (hbool matched)
      all_goals exact answers_none
  | replace everywhere =>
      rcases hargs with _ | @⟨_, _, rules, rules', hx, hrest⟩
      · exact answers_none
      · refine Twins.alike_get fun w' k k' hw hk => ?_
        rw [hosts.attributes hk]
        have hrules := Rule.rel_mapM_ofTerm? k.attributes (Likeness.All.later hrest hw)
        generalize rules.mapM (Rule.ofTerm? k.attributes) = o,
          rules'.mapM (Rule.ofTerm? k.attributes) = o' at hrules
        cases hrules with
        | none => exact answers_none
        | some hrules =>
            exact alike_some hlike ((h.callees hosts n).replace hosts.rebuild everywhere hrules
              (T.likeness.later hw hx))
  | format =>
      rcases hargs with _ | ⟨hx, _ | ⟨hy, hrest⟩⟩
      · exact answers_none
      · exact alike_some hlike (h.format hosts hx)
      · exact answers_none
  | _ => cases hcode

end

end Evaluator

end Termwise
