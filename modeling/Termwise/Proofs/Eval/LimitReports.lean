import Termwise.Proofs.Eval.Depth
import Termwise.Proofs.Eval.Preserved
import Termwise.Proofs.Eval.Terminates
import Mathlib.Order.Interval.Finset.Nat

/-!
# Termwise.Proofs.Eval.LimitReports

Reports that the recursion limit was hit.  The first call beyond the limit is reported and
held, and that this has happened is remembered in the context until its outermost
evaluation ends; the next ones are thrown (`Evaluator.exists_run_evaluateCall_beyond`).

Inside calls nothing that is remembered is forgotten, so there are just as many reports
as contexts that come to remember one (`Kernel.Tallies`): the context that an evaluation
goes on in, and those that are made meanwhile.  This holds at every moment on the way; an
evaluator that checks it whenever it goes on (`Evaluator.audited`) says so of a whole run.

What is outermost is told by the depth of the context, and outside calls there are
evaluations that are not: a rule for a symbol itself may start one.  An evaluation that
starts none is *sheltered* (`Kernel.Sheltered`), as all are where nothing is evaluated but
inside calls (`Kernel.Plain.sheltered`).
-/

namespace Termwise

/-! ## contexts that remember a report -/

namespace Kernel

/-- The numbers of the contexts in which the recursion limit has been reported. -/
def reporters (k : Kernel) : Finset Nat :=
  (Finset.range k.contexts.size).filter fun i => k.limitReported ⟨i⟩ = true

variable {k k' k'' : Kernel} {c c₀ : ContextId} {n : Nat}

theorem mem_reporters : c.index ∈ k.reporters ↔ k.limitReported c = true := by
  rw [reporters, Finset.mem_filter, Finset.mem_range]
  refine ⟨fun h => h.2, fun h => ⟨?_, h⟩⟩
  by_contra hout
  rw [limitReported, context, Array.getD_eq_getD_getElem?,
    Array.getElem?_eq_none (Nat.le_of_not_lt hout)] at h
  cases h

theorem reporters_congr (hsize : k'.contexts.size = k.contexts.size)
    (hlimit : ∀ c, k'.limitReported c = k.limitReported c) : k'.reporters = k.reporters := by
  simp only [reporters, hsize, hlimit]

theorem size_updateContext (k : Kernel) (c : ContextId) (f : Context → Context) :
    (k.updateContext c f).contexts.size = k.contexts.size := by
  rw [updateContext, Array.size_modify]

/-- The contexts that remember a report are joined by the one that it is made in. -/
theorem reporters_reportLimit (hc : c.index < k.contexts.size) (args : List Term) :
    (k.reportLimit c args).reporters = insert c.index k.reporters := by
  have hsize : (k.reportLimit c args).contexts.size = k.contexts.size :=
    k.size_updateContext c _
  ext i
  rw [Finset.mem_insert]
  by_cases hi : i = c.index
  · subst hi
    have hset : (k.reportLimit c args).limitReported c = true :=
      congrArg Context.limitReported (k.context_updateContext_self _ hc)
    simp [mem_reporters, hset]
  · have hother : (k.reportLimit c args).limitReported ⟨i⟩ = k.limitReported ⟨i⟩ :=
      congrArg Context.limitReported (k.context_updateContext_of_ne _ fun h => hi (h ▸ rfl))
    simp only [reporters, Finset.mem_filter, Finset.mem_range, hsize, hother, hi, false_or]

/-- In a later kernel there are as many more reports as there are contexts that have come to
remember one: a certain one, or some with numbers that were not given before. -/
structure AddsUp (c₀ : ContextId) (n : Nat) (k k' : Kernel) : Prop where
  size : k.contexts.size ≤ k'.contexts.size
  reporters : k.reporters ⊆ k'.reporters
  limitReports : k'.limitReports + k.reporters.card = k.limitReports + k'.reporters.card
  others : ∀ i ∈ k'.reporters, i ∈ k.reporters ∨ i = c₀.index ∨ n ≤ i

instance (c₀ : ContextId) (n : Nat) (k k' : Kernel) : Decidable (AddsUp c₀ n k k') :=
  decidable_of_iff (k.contexts.size ≤ k'.contexts.size ∧ k.reporters ⊆ k'.reporters ∧
      k'.limitReports + k.reporters.card = k.limitReports + k'.reporters.card ∧
      ∀ i ∈ k'.reporters, i ∈ k.reporters ∨ i = c₀.index ∨ n ≤ i)
    ⟨fun ⟨hsize, hreporters, hreports, hothers⟩ => ⟨hsize, hreporters, hreports, hothers⟩,
      fun h => ⟨h.size, h.reporters, h.limitReports, h.others⟩⟩

/-- Besides, depths are as they were. -/
structure Tallies (c₀ : ContextId) (n : Nat) (k k' : Kernel) : Prop extends AddsUp c₀ n k k' where
  config : k'.config = k.config
  depth : ∀ c : ContextId, c.index < k.contexts.size → k'.depth c = k.depth c

theorem AddsUp.trans (h : AddsUp c₀ n k k') (h' : AddsUp c₀ n k' k'') : AddsUp c₀ n k k'' where
  size := Nat.le_trans h.size h'.size
  reporters := h.reporters.trans h'.reporters
  limitReports := by
    have := h.limitReports
    have := h'.limitReports
    omega
  others i hi := (h'.others i hi).elim (h.others i) .inr

/-- A change that makes no context and no report. -/
theorem AddsUp.of_eq (hsize : k'.contexts.size = k.contexts.size)
    (hlimit : ∀ c, k'.limitReported c = k.limitReported c)
    (hreports : k'.limitReports = k.limitReports) : k.AddsUp c₀ n k' := by
  have hreporters := reporters_congr hsize hlimit
  refine ⟨Nat.le_of_eq hsize.symm, ?_, ?_, fun i hi => .inl ?_⟩
  · rw [hreporters]
  · rw [hreporters, hreports]
  · rwa [← hreporters]

theorem Tallies.refl (c₀ : ContextId) (n : Nat) (k : Kernel) : k.Tallies c₀ n k :=
  ⟨.of_eq rfl (fun _ => rfl) rfl, rfl, fun _ _ => rfl⟩

theorem Tallies.trans (h : Tallies c₀ n k k') (h' : Tallies c₀ n k' k'') : Tallies c₀ n k k'' where
  toAddsUp := h.toAddsUp.trans h'.toAddsUp
  config := h'.config.trans h.config
  depth c hc := (h'.depth c (Nat.lt_of_lt_of_le hc h.size)).trans (h.depth c hc)

theorem Tallies.of_eq (hconfig : k'.config = k.config)
    (hsize : k'.contexts.size = k.contexts.size) (hdepth : ∀ c, k'.depth c = k.depth c)
    (hlimit : ∀ c, k'.limitReported c = k.limitReported c)
    (hreports : k'.limitReports = k.limitReports) : k.Tallies c₀ n k' :=
  ⟨.of_eq hsize hlimit hreports, hconfig, fun c _ => hdepth c⟩

theorem Minor.tallies (h : k.Minor k') : k.Tallies c₀ n k' :=
  .of_eq h.stays.config h.stays.size h.stays.depth h.limitReported_eq h.limitReports

theorem Tallies.of_contexts_eq (hconfig : k'.config = k.config)
    (hcontexts : k'.contexts = k.contexts) (hmessages : k'.messages = k.messages) :
    k.Tallies c₀ n k' := by
  refine .of_eq hconfig (by rw [hcontexts]) (fun c => ?_) (fun c => ?_) ?_
  · simp only [Kernel.depth, context, hcontexts]
  · simp only [limitReported, context, hcontexts]
  · rw [Kernel.limitReports, hmessages, Kernel.limitReports]

theorem tallies_setDeadline (k : Kernel) (c : ContextId) (d : Nat) :
    k.Tallies c₀ n (k.setDeadline c d) :=
  .of_eq rfl (k.size_updateContext c _) (fun c' => k.context_updateContext_of_eq c c' fun _ => rfl)
    (fun c' => k.context_updateContext_of_eq c c' fun _ => rfl) rfl

/-- Stamping a node changes stamps only. -/
theorem stamp_fields (k : Kernel) (c : ContextId) (t : Term) (generation : Option Nat) :
    (k.stamp c t generation).config = k.config ∧
      (k.stamp c t generation).contexts = k.contexts ∧
      (k.stamp c t generation).messages = k.messages := by
  unfold stamp markEvaluated
  repeat' split
  all_goals exact ⟨rfl, rfl, rfl⟩

theorem tallies_stamp (k : Kernel) (c : ContextId) (t : Term) (generation : Option Nat) :
    k.Tallies c₀ n (k.stamp c t generation) :=
  have ⟨hconfig, hcontexts, hmessages⟩ := k.stamp_fields c t generation
  .of_contexts_eq hconfig hcontexts hmessages

/-- A new context does not remember a report. -/
theorem tallies_spawnChild (k : Kernel) (c : ContextId) :
    k.Tallies c₀ n (k.spawnChild c).2 := by
  have hkeeps := (k.keeps_spawnChild c).1
  have hreporters : (k.spawnChild c).2.reporters = k.reporters := by
    ext i
    simp only [reporters, Finset.mem_filter, Finset.mem_range, limitReported, context, spawnChild,
      Array.size_push, Array.getD_eq_getD_getElem?, Array.getElem?_push]
    by_cases hi : i = k.contexts.size
    · simp [hi]
    · rw [if_neg hi]
      exact and_congr_left fun _ => by omega
  refine ⟨⟨hkeeps.size, ?_, ?_, fun i hi => .inl ?_⟩, rfl, hkeeps.depth⟩
  · rw [hreporters]
  · rw [hreporters]
    rfl
  · rwa [← hreporters]

/-- A report is made where none is remembered. -/
theorem tallies_reportLimit (hc : c.index < k.contexts.size) (hclear : k.limitReported c = false)
    (hown : c = c₀ ∨ n ≤ c.index) (args : List Term) : k.Tallies c₀ n (k.reportLimit c args) := by
  have hreporters := reporters_reportLimit hc args
  have hnew : c.index ∉ k.reporters := fun h => by
    rw [mem_reporters, hclear] at h
    cases h
  have hstays := k.stays_reportLimit c args
  refine ⟨⟨Nat.le_of_eq hstays.size.symm, ?_, ?_, fun i hi => ?_⟩, rfl, fun c' _ => hstays.depth c'⟩
  · rw [hreporters]
    exact Finset.subset_insert _ _
  · have hmore : (k.reportLimit c args).limitReports = k.limitReports + 1 :=
      List.countP_cons_of_pos rfl
    rw [hreporters, Finset.card_insert_of_notMem hnew, hmore]
    omega
  · rw [hreporters, Finset.mem_insert] at hi
    rcases hi with rfl | hi
    · exact .inr (hown.imp_left (congrArg ContextId.index))
    · exact .inl hi

theorem addsUp_enter (k : Kernel) (c : ContextId) : k.AddsUp c₀ n (k.enter c) :=
  .of_eq (k.size_updateContext c _) (k.limitReported_enter c) rfl

theorem addsUp_leave (k : Kernel) (c : ContextId) : k.AddsUp c₀ n (k.leave c) :=
  .of_eq (k.size_updateContext c _) (k.limitReported_leave c) rfl

/-- A call that was entered is left again. -/
theorem Tallies.leave (h : (k.enter c).Tallies c₀ n k') : k.Tallies c₀ n (k'.leave c) where
  toAddsUp := ((k.addsUp_enter c).trans h.toAddsUp).trans (k'.addsUp_leave c)
  config := h.config
  depth c' hc' := by
    have hsize : (k.enter c).contexts.size = k.contexts.size := k.size_updateContext c _
    have hle := h.size
    have hdepth := h.depth c' (by rwa [hsize])
    rw [hsize] at hle
    rw [depth_leave_eq, hdepth, depth_enter_eq]
    by_cases hcc : c = c'
    · subst hcc
      rw [if_pos ⟨rfl, Nat.lt_of_lt_of_le hc' hle⟩, if_pos ⟨rfl, hc'⟩]
      rfl
    · rw [if_neg fun h => hcc h.1, if_neg fun h => hcc h.1]

/-! ## the contract -/

/-- A context in which an evaluation goes on that began in another kernel, in a context of that or
the same: the context that it began in, or one that was made since.  It is so deep at least, and no
deeper than the recursion limit. -/
structure TakesPart (k₀ : Kernel) (c₀ : ContextId) (least : Nat) (k : Kernel) (c : ContextId) :
    Prop where
  context : c.index < k.contexts.size
  since : k₀.AddsUp c₀ k₀.contexts.size k
  own : c = c₀ ∨ k₀.contexts.size ≤ c.index
  limit : 1 ≤ k.config.maxRecursion
  deep : least ≤ k.depth c
  shallow : k.depth c ≤ k.config.maxRecursion

variable {k₀ : Kernel} {least : Nat}

theorem TakesPart.tallies (h : k₀.TakesPart c₀ least k c)
    (hk : k.Tallies c₀ k₀.contexts.size k') : k₀.TakesPart c₀ least k' c where
  context := Nat.lt_of_lt_of_le h.context hk.size
  since := h.since.trans hk.toAddsUp
  own := h.own
  limit := by rw [hk.config]; exact h.limit
  deep := by rw [hk.depth c h.context]; exact h.deep
  shallow := by rw [hk.depth c h.context, hk.config]; exact h.shallow

/-- Inside a call within the limit it is deeper. -/
theorem TakesPart.enter (h : k₀.TakesPart c₀ least k c)
    (hwithin : (k.enter c).depth c ≤ k.config.maxRecursion) :
    k₀.TakesPart c₀ least (k.enter c) c where
  context := by rw [Kernel.enter, size_updateContext]; exact h.context
  since := h.since.trans (k.addsUp_enter c)
  own := h.own
  limit := h.limit
  deep := by rw [depth_enter h.context]; exact Nat.le_succ_of_le h.deep
  shallow := hwithin

/-- A child takes part as its parent does. -/
theorem TakesPart.spawnChild (h : k₀.TakesPart c₀ least k c) :
    k₀.TakesPart c₀ least (k.spawnChild c).2 (k.spawnChild c).1 := by
  obtain ⟨hkeeps, hindex, hdepth⟩ := k.keeps_spawnChild c
  exact ⟨hindex, h.since.trans (k.tallies_spawnChild c).toAddsUp, .inr h.since.size, h.limit,
    by rw [hdepth]; exact h.deep, by rw [hdepth]; exact h.shallow⟩

theorem TakesPart.refl (hc : c.index < k.contexts.size) (hlimit : 1 ≤ k.config.maxRecursion)
    (hdeep : least ≤ k.depth c) (hshallow : k.depth c ≤ k.config.maxRecursion) :
    k.TakesPart c least k c :=
  ⟨hc, (Tallies.refl c _ k).toAddsUp, .inl rfl, hlimit, hdeep, hshallow⟩

/-- Report a kernel in which the reports since an earlier one do not add up. -/
def audit (k₀ : Kernel) (c₀ : ContextId) (k : Kernel) : Kernel :=
  if k₀.AddsUp c₀ k₀.contexts.size k then k else k.addMessage .general "miscounted" []

end Kernel

/-- Reports are made for contexts that come to remember one, and the error for a depth of twice the
limit does not come up. -/
def tallying (c₀ : ContextId) (n : Nat) : Contract where
  Ok := Kernel.Tallies c₀ n
  Fails e k k' := (∀ limit, e ≠ .recursionLimit limit) ∧ k.Tallies c₀ n k'
  refl := .refl c₀ n
  trans := .trans
  trans_fails h h' := ⟨h'.1, h.trans h'.2⟩

/-- Evaluation starts in the contexts that take part. -/
def participants (k₀ : Kernel) (c₀ : ContextId) (least : Nat) :
    (tallying c₀ k₀.contexts.size).Scope where
  From c k := k₀.TakesPart c₀ least k c
  keeps h hk := h.tallies hk

theorem Contract.Leaves.tallies {α : Type} {c₀ : ContextId} {n : Nat} {k k' : Kernel}
    {result : Except EvalError α} (h : (tallying c₀ n).Leaves k result k') :
    k.Tallies c₀ n k' := by
  cases result with
  | ok value => exact h
  | error e => exact h.2

/-- A change in the end, however an action ended. -/
theorem Contract.Leaves.tallied {α : Type} {c₀ : ContextId} {n : Nat} {k₀ k k' k'' : Kernel}
    {result : Except EvalError α} (h : (tallying c₀ n).Leaves k₀ result k')
    (hk : k₀.Tallies c₀ n k' → k.Tallies c₀ n k'') : (tallying c₀ n).Leaves k result k'' := by
  cases result with
  | ok value => exact hk h
  | error e => exact ⟨h.1, hk h.2⟩

section Participants

variable (k₀ : Kernel) (c₀ : ContextId) (least : Nat)

theorem lenient_participants : (participants k₀ c₀ least).Lenient where
  minor h := h.tallies
  stamp c _ k t _ := k.tallies_stamp c t _
  ok_of_fails h := h.2
  again h k := ⟨h.1, .refl c₀ _ k⟩
  errors _ hlimit k := ⟨hlimit, .refl c₀ _ k⟩
  child h := ⟨Kernel.tallies_spawnChild _ _, h.spawnChild⟩
  constrains h _ := h.tallies (Kernel.tallies_setDeadline _ _ _)
  lifts hleaves := hleaves.tallied fun h =>
    ((Kernel.tallies_setDeadline _ _ _).trans h).trans (Kernel.tallies_setDeadline _ _ _)

theorem calm_define_participants (c : ContextId) (lhs rhs : Term) (kind : RuleKind) :
    (tallying c₀ k₀.contexts.size).Calm (define c lhs rhs kind) := by
  have hlenient := lenient_participants k₀ c₀ 0
  refine hlenient.defining.calm_define c (fun s cache rule _ => ?_) lhs rhs kind
  refine hlenient.calm_changeRules (fun k opened hopen => ?_) fun k store k' _ => ?_
  · exact (Kernel.minor_openRules hopen).tallies
  · exact .of_contexts_eq rfl rfl rfl

end Participants

namespace Evaluator

open Contract

variable {C : Contract} {S : C.Scope} {r r' : Evaluator} {k₀ : Kernel} {c c₀ : ContextId}
  {least : Nat}

/-- A call is tallied if what is evaluated inside it is. -/
theorem alike_evaluateCall_participants (h : r.AgreesIn (participants k₀ c₀ least) r')
    (c : ContextId) (call : Term) :
    ((participants k₀ c₀ least).agreeing c).Alike (r.evaluateCall c call)
      (r'.evaluateCall c call) := by
  have hlenient := lenient_participants k₀ c₀ least
  have hcode : CodeAlike (participants k₀ c₀ least) r r' c := fun k hk s usage code _ call =>
    h.run hlenient c (fun kind _ lhs rhs => calm_define_participants k₀ c₀ c lhs rhs kind) call k hk
  refine h.evaluateCall (hlenient.hosts c) hcode (fun k hk => hk.enter) (fun k hk hdeep => ?_)
    (fun k hk hclear args => ?_) (fun k k' result hk hleaves => ?_) call
  · have hdepth := k.depth_enter_le c c
    have hshallow := hk.shallow
    have hlimit := hk.limit
    omega
  · refine Kernel.tallies_reportLimit ?_ hclear hk.own args
    rw [Kernel.enter, Kernel.size_updateContext]
    exact hk.context
  · exact hleaves.tallied .leave

/-! ## evaluations inside calls -/

/-- The evaluators that start evaluations inside calls only: outside they run out of fuel. -/
def inCalls : Nat → Evaluator
  | 0 => ofFuel 0
  | fuel + 1 =>
    { evaluate := fun c t => do
        if (← get).depth c = 0 then throw .outOfFuel else (inCalls fuel).evaluateFully c t
      rewrite := fun c lhs rhs t => (inCalls fuel).rewriteWith c lhs rhs t }

theorem run_evaluate_inCalls (fuel : Nat) (c : ContextId) (t : Term) (k : Kernel) :
    ((inCalls (fuel + 1)).evaluate c t).run k =
      if k.depth c = 0 then (.error .outOfFuel, k)
      else ((inCalls fuel).evaluateFully c t).run k := by
  change ((if k.depth c = 0 then throw .outOfFuel else (inCalls fuel).evaluateFully c t :
    EvalM Term).run k) = _
  split <;> rfl

/-- After the outermost evaluation of a context the report is forgotten. -/
theorem run_evaluateFully_eq (r : Evaluator) (c : ContextId) (t : Term) (k : Kernel) :
    (r.evaluateFully c t).run k =
      (((r.evaluateRounds c k.config.maxIterations t).run k).1,
        if k.depth c = 0 then
          ((r.evaluateRounds c k.config.maxIterations t).run k).2.setLimitReported c false
        else ((r.evaluateRounds c k.config.maxIterations t).run k).2) := by
  change ((if k.depth c = 0 then EvalM.ensuring _ _ else _ : EvalM Term).run k) = _
  split <;> rfl

/-- Where all evaluation goes on inside calls, these evaluators do the same. -/
theorem agreesIn_inCalls (hfuel : ∀ k, C.Fails .outOfFuel k k) (hosts : ∀ c, S.Hosts c)
    (hdeep : ∀ c k, S.From c k → k.depth c ≠ 0)
    (hcall : ∀ {r r' : Evaluator}, r.AgreesIn S r' → ∀ c call,
      (S.agreeing c).Alike (r.evaluateCall c call) (r'.evaluateCall c call)) (fuel : Nat) :
    (ofFuel fuel).AgreesIn S (inCalls fuel) := by
  induction fuel with
  | zero =>
      exact ⟨fun c t => (calm_throw hfuel).alike, fun c lhs rhs t => (calm_throw hfuel).alike⟩
  | succ fuel ih =>
      refine ⟨fun c t k hk => ?_, fun c lhs rhs t => ih.rewriteWith (hosts c) lhs rhs t⟩
      have hreset : S.Resets c := fun hk hdepth _ => absurd hdepth (hdeep c _ hk)
      obtain ⟨heq, hleaves⟩ := alike_evaluateFully (hosts c) (ih.rewritesAlike c)
        (Callees.rules_true _ .own) (hcall ih c) hreset t k hk
      refine ⟨?_, hleaves⟩
      rw [run_evaluate_inCalls, if_neg (hdeep c k hk)]
      exact heq

theorem fails_outOfFuel_tallying {n : Nat} (k : Kernel) : (tallying c₀ n).Fails .outOfFuel k k :=
  ⟨nofun, .refl c₀ n k⟩

/-- Inside calls evaluation tallies. -/
theorem agreesIn_participants (k₀ : Kernel) (c₀ : ContextId) (fuel : Nat) :
    (ofFuel fuel).AgreesIn (participants k₀ c₀ 1) (inCalls fuel) :=
  agreesIn_inCalls fails_outOfFuel_tallying (lenient_participants k₀ c₀ 1).hosts
    (fun _ _ hk => Nat.ne_of_gt hk.deep) alike_evaluateCall_participants fuel

/-! ## an audit -/

/-- The evaluators that start evaluations inside calls only, and audit the kernel since an earlier
one whenever they start an evaluation or a rewriting. -/
def audited (k₀ : Kernel) (c₀ : ContextId) : Nat → Evaluator
  | 0 => ofFuel 0
  | fuel + 1 =>
    { evaluate := fun c t => do
        modify (k₀.audit c₀)
        if (← get).depth c = 0 then throw .outOfFuel
        else (audited k₀ c₀ fuel).evaluateFully c t
      rewrite := fun c lhs rhs t => do
        modify (k₀.audit c₀)
        (audited k₀ c₀ fuel).rewriteWith c lhs rhs t }

/-- Where reports add up the audit says nothing. -/
theorem alike_audit {α : Type} {x y : EvalM α}
    (h : ((participants k₀ c₀ least).agreeing c).Alike x y) :
    ((participants k₀ c₀ least).agreeing c).Alike x (do modify (k₀.audit c₀); y) := by
  intro k hk
  obtain ⟨heq, hleaves⟩ := h k hk
  refine ⟨?_, hleaves⟩
  have haudit : k₀.audit c₀ k = k := if_pos hk.since
  change y.run (k₀.audit c₀ k) = x.run k
  rw [haudit, heq]

/-- Evaluation that goes on inside calls only tallies everywhere, and stands the audit. -/
theorem agreesIn_audited (k₀ : Kernel) (c₀ : ContextId) (fuel : Nat) :
    (inCalls fuel).AgreesIn (participants k₀ c₀ 0) (audited k₀ c₀ fuel) := by
  have hosts := (lenient_participants k₀ c₀ 0).hosts
  induction fuel with
  | zero =>
      exact ⟨fun c t => (calm_throw fails_outOfFuel_tallying).alike,
        fun c lhs rhs t => (calm_throw fails_outOfFuel_tallying).alike⟩
  | succ fuel ih =>
      refine ⟨fun c t => alike_audit (Contract.alike_get fun k hk => ?_),
        fun c lhs rhs t => alike_audit (ih.rewriteWith (hosts c) lhs rhs t)⟩
      split
      next => exact calm_throw fails_outOfFuel_tallying k
      next hdepth =>
        have hrounds := alike_evaluateRounds (hosts c) (ih.rewritesAlike c)
          (Callees.rules_true _ .own) (alike_evaluateCall_participants ih c)
          k.config.maxIterations t k hk
        refine ⟨?_, ?_⟩
        · rw [run_evaluateFully_eq, run_evaluateFully_eq, hrounds.run_eq]
        · rw [run_evaluateFully_eq, if_neg hdepth]
          exact hrounds.leaves

/-! ## calls beyond the limit -/

/-- A call is held by a node of its own; contexts and messages stay as they are. -/
theorem exists_run_hold (c : ContextId) (t : Term) (k : Kernel) :
    ∃ held k', (hold c t).run k = (.ok held, k') ∧ (held == .app .hold [t]) = true ∧
      k'.contexts = k.contexts ∧ k'.messages = k.messages := by
  let shared := k.share (.app .hold [t])
  obtain ⟨-, hcontexts, hmessages⟩ := shared.2.stamp_fields c shared.1 (shared.2.stampGeneration? c)
  exact ⟨shared.1, shared.2.stamp c shared.1 (shared.2.stampGeneration? c), rfl,
    (Term.beq_iff_strip _ _).mpr (Term.strip_share _ _), hcontexts, hmessages⟩

/-- Where a report is remembered a call that is refused is thrown. -/
theorem exists_run_refuse_of_reported {k : Kernel} (hreported : k.limitReported c = true)
    (hdouble : ¬2 * k.config.maxRecursion < k.depth c) (call : Term) :
    ∃ (held : Term) (k' : Kernel),
      (refuse c call).run k = (.error (.thrown held), k'.recordException c held) ∧
        (held == .app .hold [call]) = true ∧ k'.contexts = k.contexts ∧
          k'.messages = k.messages := by
  obtain ⟨held, k', hhold, hheld, hfields⟩ := exists_run_hold c call k
  have hget : (get : EvalM Kernel).run k = (.ok k, k) := rfl
  have hset : (k.context c).limitReported = true := hreported
  refine ⟨held, k', ?_, hheld, hfields⟩
  rw [refuse, EvalM.run_bind_ok hget, if_neg hdouble, if_pos hset, EvalM.run_bind_ok hhold]
  rfl

/-- Where none is remembered it is reported and held. -/
theorem exists_run_refuse_of_clear {k : Kernel} (hclear : k.limitReported c = false)
    (hdouble : ¬2 * k.config.maxRecursion < k.depth c) (call : Term) :
    ∃ (held : Term) (k' : Kernel) (args : List Term),
      (refuse c call).run k = (.ok (.done held), k') ∧
        (held == .app .hold [call]) = true ∧ k'.contexts = (k.reportLimit c args).contexts ∧
          k'.messages = (k.reportLimit c args).messages := by
  let args : List Term := [.int (.ofNat k.config.maxRecursion)]
  obtain ⟨held, k', hhold, hheld, hfields⟩ := exists_run_hold c call (k.reportLimit c args)
  have hget : (get : EvalM Kernel).run k = (.ok k, k) := rfl
  have hset : ¬(k.context c).limitReported = true := ne_true_of_eq_false hclear
  have hmodify : (modify fun k => k.setLimitReported c true : EvalM PUnit).run k =
      (.ok ⟨⟩, k.setLimitReported c true) := rfl
  have hmessage : (message .general "reclim" args).run (k.setLimitReported c true) =
      (.ok ⟨⟩, k.reportLimit c args) := rfl
  refine ⟨held, k', args, ?_, hheld, hfields⟩
  rw [refuse, EvalM.run_bind_ok hget, if_neg hdouble, if_neg hset, EvalM.run_bind_ok hmodify,
    EvalM.run_bind_ok hmessage, EvalM.run_bind_ok hhold]
  rfl

/-- How a call beyond the recursion limit is refused: where no report is remembered it is reported
and held, and the report is remembered; where one is, the call is thrown. -/
theorem exists_run_evaluateCall_beyond (r : Evaluator) {k : Kernel}
    (hc : c.index < k.contexts.size) (hbeyond : k.config.maxRecursion ≤ k.depth c)
    (hdouble : k.depth c < 2 * k.config.maxRecursion) (call : Term) :
    ∃ held k', (held == .app .hold [call]) = true ∧ k'.limitReported c = true ∧
      if k.limitReported c then
        (r.evaluateCall c call).run k = (.error (.thrown held), k') ∧
          k'.limitReports = k.limitReports
      else
        (r.evaluateCall c call).run k = (.ok (.done held), k') ∧
          k'.limitReports = k.limitReports + 1 := by
  have hdepth := Kernel.depth_enter hc
  have hbeyond' : (k.enter c).config.maxRecursion < (k.enter c).depth c := by
    rw [hdepth]
    exact Nat.lt_succ_of_le hbeyond
  have hdouble' : ¬2 * (k.enter c).config.maxRecursion < (k.enter c).depth c := by
    rw [hdepth]
    exact Nat.not_lt.mpr hdouble
  have hrun : (r.evaluateCall c call).run k =
      (((refuse c call).run (k.enter c)).1, ((refuse c call).run (k.enter c)).2.leave c) := by
    change (((if (k.enter c).config.maxRecursion < (k.enter c).depth c then refuse c call else _ :
      EvalM Step).ensuring fun k => k.leave c).run (k.enter c)) = _
    rw [if_pos hbeyond', EvalM.run_ensuring]
  have hentered : (k.enter c).limitReported c = k.limitReported c := k.limitReported_enter c c
  have hremembers : ∀ {k k' : Kernel}, k'.contexts = k.contexts →
      k'.limitReported c = k.limitReported c := fun hcontexts => by
    rw [Kernel.limitReported, Kernel.context, hcontexts, Kernel.limitReported, Kernel.context]
  have hcount : ∀ {k k' : Kernel}, k'.messages = k.messages → k'.limitReports = k.limitReports :=
    fun hmessages => by rw [Kernel.limitReports, hmessages, Kernel.limitReports]
  cases hreported : k.limitReported c with
  | true =>
      rw [hreported] at hentered
      obtain ⟨held, k', hrefuse, hheld, hcontexts, hmessages⟩ :=
        exists_run_refuse_of_reported hentered hdouble' call
      rw [hrefuse] at hrun
      refine ⟨held, _, hheld, ?_, by rw [if_pos rfl]; exact ⟨hrun, hcount hmessages⟩⟩
      have hsame : (k'.recordException c held).limitReported c = k'.limitReported c :=
        k'.context_updateContext_of_eq c c fun _ => rfl
      rw [Kernel.limitReported_leave, hsame, hremembers hcontexts, hentered]
  | false =>
      rw [hreported] at hentered
      obtain ⟨held, k', args, hrefuse, hheld, hcontexts, hmessages⟩ :=
        exists_run_refuse_of_clear hentered hdouble' call
      rw [hrefuse] at hrun
      have hmore : k'.limitReports = k.limitReports + 1 :=
        (hcount hmessages).trans (List.countP_cons_of_pos rfl)
      refine ⟨held, _, hheld, ?_, by rw [if_neg Bool.false_ne_true]; exact ⟨hrun, hmore⟩⟩
      have hset : ((k.enter c).reportLimit c args).limitReported c = true := by
        refine congrArg Context.limitReported (Kernel.context_updateContext_self _ _ ?_)
        rwa [Kernel.enter, Kernel.size_updateContext]
      rw [Kernel.limitReported_leave, hremembers hcontexts, hset]

end Evaluator

/-! ## sheltered evaluations -/

/-- An evaluation starts others inside calls only: evaluators that have to do the same. -/
def Kernel.Sheltered (k : Kernel) (fuel : Nat) (c : ContextId) (t : Term) : Prop :=
  ((Evaluator.inCalls fuel).evaluateFully c t).run k = (evaluateWith (fuel + 1) c t).run k

/-- The kernel is left as by an evaluation that has ended, however it ends. -/
def keeping : Contract := .always Kernel.Keeps .refl .trans

/-- Evaluation starts in plain kernels, where the context is so deep at least. -/
def plainKernels (least : Nat) : keeping.Scope where
  From c k := c.index < k.contexts.size ∧ least ≤ k.depth c ∧ k.Plain
  keeps {c} _ _ h hk := ⟨Nat.lt_of_lt_of_le h.1 hk.size, by rw [hk.depth c h.1]; exact h.2.1,
    hk.plain h.2.2⟩

theorem lenient_plainKernels (least : Nat) : (plainKernels least).Lenient := by
  refine .of_stays (fun h => h.keeps) (fun h => h) (fun _ => .refl) (fun _ _ => .refl)
    fun {c k} h => ?_
  obtain ⟨hkeeps, hindex, hdepth⟩ := k.keeps_spawnChild c
  exact ⟨hkeeps, hindex, by rw [hdepth]; exact h.2.1, hkeeps.plain h.2.2⟩

namespace Evaluator

open Contract

variable {r r' : Evaluator} {c : ContextId}

/-- What is evaluated for a call in a plain kernel is evaluated inside it. -/
theorem alike_evaluateCall_plain (h : r.AgreesIn (plainKernels 1) r') (least : Nat)
    (c : ContextId) (call : Term) :
    ((plainKernels least).agreeing c).Alike (r.evaluateCall c call) (r'.evaluateCall c call) := by
  have hlenient := lenient_plainKernels 1
  have hcode : CodeAlike (plainKernels 1) r r' c := fun k hk s usage code hget call =>
    h.run hlenient c (fun kind hkind => (hk.2.2.code s usage kind (by rw [hget, hkind])).elim)
      call k hk
  refine Contract.alike_get fun k hk => AgreeFrom.inCall (AgreeFrom.get ?_)
    fun result k' hleaves => always_leaves_iff.mpr (.of_enter hk.1 (always_leaves_iff.mp hleaves))
  split
  · exact agreeFrom_refuse (hlenient.hosts c) (fun _ => .refl _)
      (fun _ args => (Kernel.stays_reportLimit _ c args).keeps) call
  · refine h.evaluateEntered (hlenient.hosts c) hcode ⟨?_, ?_, hk.2.2.of_symbols_eq rfl⟩ call
    · rw [Kernel.enter, Kernel.size_updateContext]
      exact hk.1
    · rw [Kernel.depth_enter hk.1]
      exact Nat.le_add_left 1 _

/-- In plain kernels evaluation inside calls agrees with evaluation that goes on there only. -/
theorem agreesIn_plainKernels (fuel : Nat) :
    (ofFuel fuel).AgreesIn (plainKernels 1) (inCalls fuel) :=
  agreesIn_inCalls Kernel.Keeps.refl (lenient_plainKernels 1).hosts
    (fun _ _ hk => Nat.ne_of_gt hk.2.1) (fun h => alike_evaluateCall_plain h 1) fuel

/-- Rules for symbols themselves start no evaluation. -/
theorem rewritesAlike_own_inCalls (fuel : Nat) (c : ContextId) :
    RewritesAlike (plainKernels 0) (ofFuel fuel) (inCalls fuel) c RuleCache.own.Plain := by
  cases fuel with
  | zero => exact fun _ _ _ _ => (calm_throw Kernel.Keeps.refl).alike
  | succ fuel =>
      exact fun _ _ t h => alike_rewriteWith_own ((lenient_plainKernels 0).hosts c) (ofFuel fuel)
        (inCalls fuel) h t

end Evaluator

/-- Where nothing is evaluated but inside calls, all evaluations are sheltered. -/
theorem Kernel.Plain.sheltered {k : Kernel} {c : ContextId} (hk : k.Plain)
    (hc : c.index < k.contexts.size) (fuel : Nat) (t : Term) : k.Sheltered fuel c t := by
  have hown : Callees.Rules ((plainKernels 0).From c) .own RuleCache.own.Plain :=
    fun _ hk _ _ hlist => hk.2.2.rules? hlist
  have hrounds := Evaluator.alike_evaluateRounds ((lenient_plainKernels 0).hosts c)
    (Evaluator.rewritesAlike_own_inCalls fuel c) hown
    (Evaluator.alike_evaluateCall_plain (Evaluator.agreesIn_plainKernels fuel) 0 c)
    k.config.maxIterations t k ⟨hc, Nat.zero_le _, hk⟩
  change _ = ((Evaluator.ofFuel fuel).evaluateFully c t).run k
  rw [Evaluator.run_evaluateFully_eq, Evaluator.run_evaluateFully_eq, hrounds.run_eq]

/-! ## one report for each context -/

namespace Kernel

variable {k k' : Kernel} {c c₀ : ContextId} {n fuel : Nat} {t : Term}

/-- One report for the context that an evaluation began in and one for each that was made meanwhile,
at most. -/
theorem Tallies.limitReports_le (h : k.Tallies c k.contexts.size k') :
    k'.limitReports ≤ k.limitReports + 1 + (k'.contexts.size - k.contexts.size) := by
  have hsubset : k'.reporters ⊆
      insert c.index (k.reporters ∪ Finset.Ico k.contexts.size k'.contexts.size) := fun i hi => by
    have hi' : i < k'.contexts.size := Finset.mem_range.mp (Finset.mem_filter.mp hi).1
    rw [Finset.mem_insert, Finset.mem_union, Finset.mem_Ico]
    rcases h.others i hi with hold | hown | hnew
    · exact .inr (.inl hold)
    · exact .inl hown
    · exact .inr (.inr ⟨hnew, hi'⟩)
  have hcard := Finset.card_le_card hsubset
  have hinsert := Finset.card_insert_le c.index
    (k.reporters ∪ Finset.Ico k.contexts.size k'.contexts.size)
  have hunion := Finset.card_union_le k.reporters (Finset.Ico k.contexts.size k'.contexts.size)
  rw [Nat.card_Ico] at hunion
  have hreports := h.limitReports
  omega

/-- Inside calls what is remembered is not forgotten, whatever is evaluated. -/
theorem limitReported_evaluateWith (hc : c.index < k.contexts.size) (hdeep : 1 ≤ k.depth c)
    (hshallow : k.depth c ≤ k.config.maxRecursion) (fuel : Nat) (t : Term) {c' : ContextId}
    (h : k.limitReported c' = true) :
    ((evaluateWith fuel c t).run k).2.limitReported c' = true := by
  have hk : k.TakesPart c 1 k c := .refl hc (Nat.le_trans hdeep hshallow) hdeep hshallow
  have hagrees := (Evaluator.agreesIn_participants k c fuel).evaluate c t k hk
  exact mem_reporters.mp (hagrees.leaves.tallies.reporters (mem_reporters.mpr h))

/-- How a sheltered evaluation outside calls leaves the kernel, but for what it forgets in the end;
and it stands the audit. -/
theorem Sheltered.tallies (h : k.Sheltered fuel c t) (hc : c.index < k.contexts.size)
    (hdepth : k.depth c = 0) (hlimit : 1 ≤ k.config.maxRecursion) :
    (∃ k₁, (tallying c k.contexts.size).Leaves k ((evaluateWith (fuel + 1) c t).run k).1 k₁ ∧
      ((evaluateWith (fuel + 1) c t).run k).2 = k₁.setLimitReported c false) ∧
    ((Evaluator.audited k c fuel).evaluateFully c t).run k =
      (evaluateWith (fuel + 1) c t).run k := by
  have hk : k.TakesPart c 0 k c := .refl hc hlimit (Nat.zero_le _) (by omega)
  have hagrees := Evaluator.agreesIn_audited k c fuel
  have hrounds := Evaluator.alike_evaluateRounds ((lenient_participants k c 0).hosts c)
    (hagrees.rewritesAlike c) (Callees.rules_true _ .own)
    (Evaluator.alike_evaluateCall_participants hagrees c) k.config.maxIterations t k hk
  rw [← h, Evaluator.run_evaluateFully_eq, Evaluator.run_evaluateFully_eq, hrounds.run_eq,
    if_pos hdepth]
  exact ⟨⟨_, hrounds.leaves, rfl⟩, rfl⟩

/-- A sheltered evaluation that begins outside calls, as all do in plain kernels, reports the
recursion limit at most once, and once more for each context that native code makes meanwhile;
afterwards the context remembers no report, however the evaluation has ended, and it has not ended
with the error for a depth of twice the limit.

At every moment on the way at which an evaluation or a rewriting starts, just as many reports have
been made as contexts have come to remember one: the audited evaluation, which would report anything
else, does just the same.  What is evaluated inside calls forgets no report that a context
remembers; and a call beyond the limit is reported and held where the context remembers none, and
thrown where it remembers one. -/
theorem evaluateWith_reports_once (h : k.Plain ∨ k.Sheltered fuel c t)
    (hc : c.index < k.contexts.size) (hdepth : k.depth c = 0)
    (hlimit : 1 ≤ k.config.maxRecursion) :
    let result := ((evaluateWith (fuel + 1) c t).run k).1
    let k' := ((evaluateWith (fuel + 1) c t).run k).2
    k'.limitReports ≤ k.limitReports + 1 + (k'.contexts.size - k.contexts.size) ∧
    k'.limitReported c = false ∧ (∀ limit, result ≠ .error (.recursionLimit limit)) ∧
    ((Evaluator.audited k c fuel).evaluateFully c t).run k = (result, k') ∧
    ∀ (k₁ : Kernel) (c₁ : ContextId), c₁.index < k₁.contexts.size → 1 ≤ k₁.depth c₁ →
      k₁.depth c₁ ≤ k₁.config.maxRecursion →
      (∀ (fuel' : Nat) (t' : Term) (c' : ContextId), k₁.limitReported c' = true →
        ((evaluateWith fuel' c₁ t').run k₁).2.limitReported c' = true) ∧
      (k₁.depth c₁ = k₁.config.maxRecursion → ∀ (r : Evaluator) (call : Term), ∃ held k₂,
        (held == .app .hold [call]) = true ∧ k₂.limitReported c₁ = true ∧
          if k₁.limitReported c₁ then
            (r.evaluateCall c₁ call).run k₁ = (.error (.thrown held), k₂) ∧
              k₂.limitReports = k₁.limitReports
          else
            (r.evaluateCall c₁ call).run k₁ = (.ok (.done held), k₂) ∧
              k₂.limitReports = k₁.limitReports + 1) := by
  intro result k'
  have hsheltered : k.Sheltered fuel c t := h.elim (fun hk => hk.sheltered hc fuel t) id
  obtain ⟨⟨k₁, hleaves, hend⟩, haudited⟩ := hsheltered.tallies hc hdepth hlimit
  have hk' : k' = k₁.setLimitReported c false := hend
  refine ⟨?_, ?_, fun limit herror => ?_, haudited, fun k₁ c₁ hc₁ hdeep hshallow => ⟨?_, ?_⟩⟩
  · have hsize : k'.contexts.size = k₁.contexts.size := by
      rw [hk', setLimitReported, size_updateContext]
    have hreports : k'.limitReports = k₁.limitReports := by
      rw [hk']
      rfl
    rw [hreports, hsize]
    exact hleaves.tallies.limitReports_le
  · rw [hk']
    exact congrArg Context.limitReported (k₁.context_updateContext_self _
      (Nat.lt_of_lt_of_le hc hleaves.tallies.size))
  · have hresult : ((evaluateWith (fuel + 1) c t).run k).1 = .error (.recursionLimit limit) :=
      herror
    rw [hresult] at hleaves
    exact hleaves.1 limit rfl
  · exact fun fuel' t' c' => k₁.limitReported_evaluateWith hc₁ hdeep hshallow fuel' t'
  · intro hbeyond r call
    exact Evaluator.exists_run_evaluateCall_beyond r hc₁ (Nat.le_of_eq hbeyond.symm) (by omega) call

/-- The evaluation of `x(1)`, which is nested without end, reports the limit once at most. -/
theorem reports_once_growing :
    let k' := ((evaluateWith (8 + 1) ⟨0⟩ (.node 0 (.symbol ⟨38, "x"⟩) [.int 1])).run
      growingKernel).2
    growingKernel.Plain ∧ k'.limitReports ≤ 1 ∧ k'.limitReported ⟨0⟩ = false := by
  have hknown : (⟨0⟩ : ContextId).index < growingKernel.contexts.size := by decide +kernel
  have hdepth : growingKernel.depth ⟨0⟩ = 0 := by decide +kernel
  have hlimit : 1 ≤ growingKernel.config.maxRecursion := by decide +kernel
  obtain ⟨hreports, hforgotten, -⟩ := @evaluateWith_reports_once growingKernel ⟨0⟩ 8
    (.node 0 (.symbol ⟨38, "x"⟩) [.int 1]) (.inl plain_growingKernel) hknown hdepth hlimit
  have hbound : growingKernel.limitReports + 1 +
      (((evaluateWith (8 + 1) ⟨0⟩ (.node 0 (.symbol ⟨38, "x"⟩) [.int 1])).run
        growingKernel).2.contexts.size - growingKernel.contexts.size) = 1 := by decide +kernel
  exact ⟨plain_growingKernel, Nat.le_trans hreports (Nat.le_of_eq hbound), hforgotten⟩

end Kernel

/-! ## two reports -/

/-- The kernel with two levels for calls in which `x` holds its argument, and native code for it
evaluates the argument in a child context. -/
def branchingKernel : Kernel :=
  ((namedKernel { maxRecursion := 2 }).register ⟨38, "x"⟩ .down .child).storeAttributes ⟨38, "x"⟩
    (.ofList [.holdFirst])

/-- The kernel with one level for calls, after `x :> 1 /; y(z(1))` and `x :> 2 /; y(z(2))`. -/
def testingKernel : Kernel :=
  let k := namedKernel { maxRecursion := 1 }
  let provided (n : Int64) : Term := .node 0 (.symbol .condition) [.int n,
    .node 0 (.symbol ⟨39, "y"⟩) [.node 0 (.symbol ⟨40, "z"⟩) [.int n]]]
  let insert (k : Kernel) (n : Int64) : Kernel := ((insertRule ⟨38, "x"⟩ .write .own
    (.make k.attributes (.symbol ⟨38, "x"⟩) (provided n) .delayed)).run k).2
  insert (insert k 1) 2

/-- Two calls hit the limit in two children of a context, and each child reports it: `{x(z(1)),
x(z(2))}`.  And one context reports it twice where rules for a symbol itself evaluate outside
calls: `x`. -/
theorem reports_twice :
    (let held (n : Int64) : Term :=
        .node 0 (.symbol ⟨38, "x"⟩) [.node 0 (.symbol ⟨40, "z"⟩) [.int n]]
     let k' := ((evaluateWith 9 ⟨0⟩ (.node 0 (.symbol .list) [held 1, held 2])).run
        branchingKernel).2
     branchingKernel.depth ⟨0⟩ = 0 ∧ branchingKernel.limitReports = 0 ∧
        k'.limitReports = 2 ∧ k'.reporters = {1, 2}) ∧
    (let k' := ((evaluateWith 9 ⟨0⟩ (.symbol ⟨38, "x"⟩)).run testingKernel).2
     testingKernel.depth ⟨0⟩ = 0 ∧ testingKernel.limitReports = 0 ∧
        k'.contexts.size = testingKernel.contexts.size ∧ k'.limitReports = 2) := by
  decide +kernel

end Termwise
