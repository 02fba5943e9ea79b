import Termwise.Proofs.Eval.Arrangement
import Termwise.Proofs.Eval.Enduring
import Termwise.Proofs.Eval.Stable

/-!
# Termwise.Proofs.Eval.Inert

Removed symbols are inert.  In every kernel that comes about (`Kernel.Occurs`) they have
no attributes, no value and no rules, whatever native code has done meanwhile; so a
removed symbol evaluates to itself, like any symbol for which nothing is found
(`Kernel.Idle`), and a call of one stays as it is once its arguments are evaluated.

A call is taken up all the same by what is not kept with the symbol or not refused by it:
local rules, and native code that is bound to it after its removal
(`evaluate_call_of_removed`).
-/

namespace Termwise

/-! ## burying -/

/-- Whatever happens, what was removed is gone and stays so. -/
theorem enduring_buries : Enduring Kernel.Buries where
  refl := .refl
  trans := .trans
  minor h := h.stays.buries
  stamp c t _ := (Kernel.stays_stamp _ c t _).buries
  spawnChild _ _ := .of_symbols_eq rfl
  enter _ _ := .of_symbols_eq rfl
  leave _ _ := .of_symbols_eq rfl
  putRules cache list hopen := (Kernel.buries_putRules (Kernel.not_gone_of_openRules hopen) cache
    list).trans (.of_symbols_eq rfl)
  limit _ _ := ⟨fun _ => .of_symbols_eq rfl, .of_symbols_eq rfl⟩
  lifts {k _ c nanos} h := by
    have hset : k.Buries (k.constrain c nanos) := .of_symbols_eq rfl
    exact (hset.trans h).trans (.of_symbols_eq rfl)

namespace Kernel

theorem buries_apply (k : Kernel) (event : Event) : k.Buries (event.apply k) := by
  cases event with
  | call fuel c definition => exact enduring_buries.perform k fuel c definition
  | changeRules s mode cache f => exact enduring_buries.changeRules k s mode cache _
  | evaluate fuel c t => exact enduring_buries.evaluateWith k fuel c t
  | intern name => exact k.buries_intern name
  | remove s => exact k.buries_remove s
  | aside f h => exact .of_symbols_eq (h k)

/-- The kernels that come about. -/
inductive Occurs : Kernel → Prop
  /-- A new kernel. -/
  | new (config : Config) : Occurs (.new config)
  /-- After a definition, an evaluation, the making or the removal of a symbol, or something that
  leaves symbols alone. -/
  | event {k : Kernel} (event : Event) : Occurs k → Occurs (event.apply k)
  /-- After native code has run, of any kind. -/
  | run {k : Kernel} (fuel : Nat) (c : ContextId) (code : Native) (call : Term) :
      Occurs k → Occurs (((Evaluator.ofFuel fuel).run c code call).run k).2
  /-- After native code was bound to a symbol. -/
  | register {k : Kernel} (s : Symbol) (usage : CodeUsage) (code : Native) :
      Occurs k → Occurs (k.register s usage code)
  /-- After native code for approximation was bound to a symbol. -/
  | registerApprox {k : Kernel} (s : Symbol) (code : ApproxNative) :
      Occurs k → Occurs (k.registerApprox s code)

/-- Removed symbols are gone in all kernels that come about. -/
theorem Occurs.buried {k : Kernel} (h : k.Occurs) : k.Buried := by
  induction h with
  | new config =>
      intro s hs
      rcases record_new config s with h | ⟨s', h⟩ <;> rw [h] at hs <;> cases hs
  | event event _ ih => exact ih.buries (buries_apply _ event)
  | run fuel c code call _ ih => exact ih.buries (enduring_buries.run _ fuel c code call)
  | register s usage code _ ih => exact ih.buries (buries_register _ s usage code)
  | registerApprox s code _ ih => exact ih.buries (buries_registerApprox _ s code)

end Kernel

/-! ## symbols for which nothing is found -/

namespace Kernel

/-- Nothing is found for a symbol: it has been removed, or has neither a value nor own rules. -/
def Idle (k : Kernel) (c : ContextId) (s : Symbol) : Prop :=
  (k.record s).removed = true ∨
    (k.localValue? c s).or (k.value? s) = none ∧ k.rules? s .own = none

theorem Idle.of_definitions {k k' : Kernel} {c : ContextId} {s : Symbol} (h : k.Idle c s)
    (hk : k.SameDefinitions k') : k'.Idle c s := by
  rw [Idle, value?, rules?, hk.record_eq, hk.localValue?_eq]
  exact h

/-- Time passes and a node is named; no definition changes. -/
theorem sameDefinitions_elapse_share (k : Kernel) (n : Nat) (t : Term) :
    k.SameDefinitions ((k.elapse n).share t).2 := ⟨rfl, rfl, rfl, rfl, fun _ => rfl⟩

end Kernel

namespace Evaluator

variable {r : Evaluator} {c : ContextId} {k k' : Kernel} {s : Symbol} {t v : Term}

/-- An evaluation that is done after one round. -/
theorem exists_run_evaluateFully (h : (r.evaluateRound c t).run k = (.ok (.done v), k')) :
    ∃ k'', (r.evaluateFully c t).run k = (.ok v, k'') ∧ k'.SameDefinitions k'' := by
  have hget : (get : EvalM Kernel).run k = (.ok k, k) := rfl
  have hrounds := run_evaluateRounds_done h k.config.maxIterations
  rw [evaluateFully, EvalM.run_bind_ok hget]
  dsimp only
  split
  · rw [EvalM.run_ensuring, hrounds]
    exact ⟨_, rfl, Kernel.sameDefinitions_updateContext k' c fun _ => rfl⟩
  · exact ⟨k', hrounds, .refl k'⟩

theorem run_findRule?_none {cache : RuleCache} (h : k.rules? s cache = none) (subject : Term) :
    (r.findRule? c s cache subject).run k = (.ok none, k) := by
  have hget : (get : EvalM Kernel).run k = (.ok k, k) := rfl
  rw [findRule?, EvalM.run_bind_ok hget, h]
  rfl

/-- Nothing is looked up for a removed symbol, not even a local value. -/
theorem run_evaluateSymbol_of_idle (h : k.Idle c s) :
    (r.evaluateSymbol c s).run k = (.ok none, k) := by
  have hget : (get : EvalM Kernel).run k = (.ok k, k) := rfl
  cases hremoved : (k.record s).removed with
  | true =>
      rw [evaluateSymbol, EvalM.run_bind_ok hget, if_pos hremoved]
      rfl
  | false =>
      obtain ⟨hvalue, hrules⟩ := h.resolve_left (by simp [hremoved])
      rw [run_evaluateSymbol r c hremoved, hvalue]
      exact run_findRule?_none hrules _

theorem run_evaluateRound_of_idle (h : k.Idle c s) (hquiet : k.Quiet c) :
    (r.evaluateRound c (.symbol s)).run k =
      (.ok (.done (.symbol s)), ((k.elapse Kernel.lookTime).share (.symbol s)).2) := by
  let k₁ := ((k.elapse Kernel.lookTime).share (.symbol s)).2
  have hshare : (share (.symbol s)).run (k.elapse Kernel.lookTime) = (.ok (.symbol s), k₁) := rfl
  have hidle : k₁.Idle c s := h.of_definitions (k.sameDefinitions_elapse_share _ _)
  have hstep : (r.roundStep c (.symbol s)).run k₁ = (.ok (.done (.symbol s)), k₁) := by
    rw [roundStep, EvalM.run_bind_ok (run_evaluateSymbol_of_idle hidle)]
    rfl
  rw [evaluateRound_eq, EvalM.run_bind_ok (run_checkAbort hquiet), EvalM.run_bind_ok hshare,
    EvalM.run_bind_ok hstep]
  rfl

end Evaluator

/-- A symbol for which nothing is found evaluates to itself. -/
theorem exists_run_evaluateWith_of_idle {k : Kernel} {c : ContextId} {s : Symbol}
    (h : k.Idle c s) (hquiet : k.Quiet c) (fuel : Nat) :
    ∃ k', (evaluateWith (fuel + 1) c (.symbol s)).run k = (.ok (.symbol s), k') ∧
      k.SameDefinitions k' := by
  obtain ⟨k', hrun, hdefinitions⟩ := Evaluator.exists_run_evaluateFully (r := .ofFuel fuel)
    (Evaluator.run_evaluateRound_of_idle h hquiet)
  exact ⟨k', hrun, (k.sameDefinitions_elapse_share _ _).trans hdefinitions⟩

theorem exists_run_evaluateWith_of_removed {k : Kernel} {c : ContextId} {f : Symbol}
    (hf : (k.record f).removed = true) (hquiet : k.Quiet c) (fuel : Nat) :
    ∃ k', (evaluateWith (fuel + 1) c (.symbol f)).run k = (.ok (.symbol f), k') ∧
      k'.symbols = k.symbols := by
  obtain ⟨k', hrun, hdefinitions⟩ := exists_run_evaluateWith_of_idle (.inl hf) hquiet fuel
  exact ⟨k', hrun, hdefinitions.symbols⟩

/-! ## calls of removed symbols -/

/-- Terms that evaluate to themselves, one after the other, from one kernel to another. -/
inductive Evaluator.SelfEvaluating (r : Evaluator) (c : ContextId) :
    Kernel → List Term → Kernel → Prop
  | nil (k : Kernel) : SelfEvaluating r c k [] k
  | cons {k k₁ k' : Kernel} {t v : Term} {ts : List Term} :
      (r.evaluate c t).run k = (.ok v, k₁) → (v == t) = true → SelfEvaluating r c k₁ ts k' →
        SelfEvaluating r c k (t :: ts) k'

namespace Kernel

/-- The kernel in which the arguments of a call are evaluated: inside the call, its head
evaluated. -/
def insideCall (k : Kernel) (fuel : Nat) (c : ContextId) (call : Term) : Kernel :=
  ((evaluateWith fuel c call.key).run (((k.elapse lookTime).share call).2.enter c)).2

/-- Nothing but a symbol itself takes up its calls: there are no local rules and no native code for
it, and its arguments carry no definitions for calls around them. -/
structure Unclaimed (k : Kernel) (c : ContextId) (f : Symbol) (args : List Term) : Prop where
  localRules : k.localRules? c f = none
  code : (k.record f).code.get .down = none
  ups : ∀ t ∈ args, ∀ s, t.topmost? = some s →
    k.rules? s .up = none ∧ (k.record s).code.get .up = none

/-- Equal calls are unclaimed alike. -/
theorem Unclaimed.of_strip {k : Kernel} {c : ContextId} {f : Symbol} {call call' : Term}
    (h : k.Unclaimed c f call.args) (hstrip : call'.strip = call.strip) :
    k.Unclaimed c f call'.args where
  localRules := h.localRules
  code := h.code
  ups t ht s hs := by
    have hargs : call'.args.map Term.strip = call.args.map Term.strip := by
      rw [← Term.args_strip, ← Term.args_strip, hstrip]
    obtain ⟨t₀, ht₀, hequal⟩ := List.mem_map.mp (hargs ▸ List.mem_map_of_mem ht)
    have htopmost : t₀.topmost? = t.topmost? :=
      Likeness.topmost?_eq (L := Likeness.bare) (w := ()) hequal
    exact h.ups t₀ ht₀ s (htopmost.trans hs)

end Kernel

namespace Evaluator

variable {r : Evaluator} {c : ContextId} {k k' : Kernel} {f : Symbol} {ts : List Term}

/-- A head without attributes has all its arguments evaluated. -/
theorem SelfEvaluating.run_evaluateArgs (h : r.SelfEvaluating c k ts k') (i : Nat) :
    ∃ vs, (r.evaluateArgs c .none i ts).run k = (.ok vs, k') ∧
      vs.map Term.strip = ts.map Term.strip := by
  induction h generalizing i with
  | nil => exact ⟨[], rfl, rfl⟩
  | @cons k k₁ k' t v ts hvalue hequal _ ih =>
      obtain ⟨vs, hrun, hvs⟩ := ih (i + 1)
      refine ⟨v :: vs, ?_, ?_⟩
      · have hevaluated : (Attributes.none.has .holdAllComplete ||
            (Attributes.none.holds i && !t.hasHead .evaluate)) = false := by
          simp only [Attributes.holds, Attributes.has_none, Bool.or_false, Bool.false_and]
        rw [evaluateArgs]
        dsimp only
        rw [hevaluated]
        refine (EvalM.run_bind_ok hvalue).trans ?_
        rw [EvalM.run_bind_ok hrun]
        rfl
      · rw [List.map_cons, List.map_cons, hvs, (Term.beq_iff_strip v t).mp hequal]

theorem SelfEvaluating.buries {fuel : Nat} (h : (ofFuel fuel).SelfEvaluating c k ts k') :
    k.Buries k' := by
  induction h with
  | nil k => exact .refl k
  | @cons k k₁ k' t v ts hvalue _ _ ih =>
      have hstep := enduring_buries.evaluateWith k fuel c t
      change ((evaluateWith fuel c t).run k) = _ at hvalue
      rw [hvalue] at hstep
      exact hstep.trans ih

/-- A call made from parts equal to its own is equal to it. -/
theorem strip_rebuild_of_equal {i : Nat} {g g' : Term} {xs ys : List Term}
    (hhead : g'.strip = g.strip) (hargs : ys.map Term.strip = xs.map Term.strip) :
    (rebuild (.node i g xs) g' ys).strip = (Term.node i g xs).strip := by
  unfold rebuild
  split
  · rfl
  · rw [Term.strip_call, Term.strip, hhead, hargs, Term.stripAll_eq_map]
    rfl

theorem run_firstResult_none {xs : List (EvalM (Option Term))}
    (h : ∀ x ∈ xs, x.run k = (.ok none, k)) : (firstResult xs).run k = (.ok none, k) := by
  induction xs with
  | nil => rfl
  | cons x xs ih =>
      obtain ⟨hx, hxs⟩ := List.forall_mem_cons.mp h
      rw [firstResult, EvalM.run_bind_ok hx]
      exact ih hxs

theorem run_runCode?_none {s : Symbol} {usage : CodeUsage} (h : (k.record s).code.get usage = none)
    (call : Term) : (r.runCode? c usage call s).run k = (.ok none, k) := by
  have hget : (get : EvalM Kernel).run k = (.ok k, k) := rfl
  rw [runCode?, EvalM.run_bind_ok hget, h]
  rfl

theorem run_findLocalRule?_none {s : Symbol} (h : k.localRules? c s = none) (call : Term) :
    (r.findLocalRule? c s call).run k = (.ok none, k) := by
  have hget : (get : EvalM Kernel).run k = (.ok k, k) := rfl
  rw [findLocalRule?, EvalM.run_bind_ok hget, h]
  rfl

/-- Nothing replaces an unclaimed call of a symbol that is gone. -/
theorem run_reduce_none (hgone : k.Gone f) {call : Term} (h : k.Unclaimed c f call.args) :
    (r.reduce c .none (some f) call).run k = (.ok none, k) := by
  have hups : ∀ s ∈ upSymbols .none call,
      k.rules? s .up = none ∧ (k.record s).code.get .up = none := by
    intro s hs
    rw [upSymbols, if_neg (by rw [Attributes.has_none]; exact Bool.false_ne_true),
      List.mem_eraseDups] at hs
    obtain ⟨t, ht, hs⟩ := List.mem_filterMap.mp hs
    exact h.ups t ht s hs
  refine run_firstResult_none fun x hx => ?_
  simp only [List.mem_append, List.mem_map, List.mem_cons, List.not_mem_nil, or_false] at hx
  obtain ((⟨s, hs, rfl⟩ | rfl | rfl) | ⟨s, hs, rfl⟩) | rfl := hx
  · exact run_findRule?_none (hups s hs).1 call
  · exact run_findLocalRule?_none h.localRules call
  · exact run_findRule?_none (hgone.rules? .down) call
  · exact run_runCode?_none (hups s hs).2 call
  · exact run_runCode?_none h.code call

/-- An unclaimed call in normal form is the result. -/
theorem exists_run_finishCall (hgone : k.Gone f) (generation : Option Nat) {t : Term}
    (h : k.Unclaimed c f t.args) :
    ∃ v k', (r.finishCall c generation .none (some f) t).run k = (.ok (.done v), k') ∧
      v.strip = t.strip := by
  have hshare : (share t).run k = (.ok (k.share t).1, (k.share t).2) := rfl
  have hstrip : (k.share t).1.strip = t.strip := Term.strip_share t _
  generalize hv : (k.share t).1 = v at hshare hstrip
  have hfree := h.of_strip hstrip
  have hreduce : (r.reduce c .none (some f) v).run (k.share t).2 = (.ok none, (k.share t).2) :=
    run_reduce_none (k := (k.share t).2) hgone ⟨hfree.localRules, hfree.code, hfree.ups⟩
  refine ⟨v, (k.share t).2.stamp c v generation, ?_, hstrip⟩
  rw [finishCall, EvalM.run_bind_ok hshare, EvalM.run_bind_ok hreduce]
  rfl

/-- Without attributes, all that is done to a call is that sequences are spliced in. -/
theorem exists_run_arrangeCall (hgone : k.Gone f) (generation : Option Nat) {t : Term}
    (h : k.Unclaimed c f t.spliceSequences.args) :
    ∃ v k', (r.arrangeCall c generation .none (some f) t).run k = (.ok (.done v), k') ∧
      v.strip = t.spliceSequences.strip := by
  have hshare : (share t).run k = (.ok (k.share t).1, (k.share t).2) := rfl
  have hstrip : (k.share t).1.strip = t.strip := Term.strip_share t _
  generalize (k.share t).1 = u at hshare hstrip
  have hspliced : u.spliceSequences.strip = t.spliceSequences.strip :=
    Likeness.like_spliceSequences (L := Likeness.bare) (w := ()) hstrip
  have hnormal : rearranged .none (spliced .none u) = u.spliceSequences := by
    simp only [rearranged, spliced, Attributes.has_none, Bool.or_self, Bool.false_eq_true, if_false]
  have hfree := h.of_strip hspliced
  obtain ⟨v, k', hrun, hv⟩ := exists_run_finishCall (r := r) (k := (k.share t).2)
    (t := u.spliceSequences) hgone generation ⟨hfree.localRules, hfree.code, hfree.ups⟩
  refine ⟨v, k', ?_, hv.trans hspliced⟩
  rw [arrangeCall, EvalM.run_bind_ok hshare,
    EvalM.run_bind_ok (run_normalize (Attributes.has_none _) u _), hnormal]
  exact hrun

/-- Inside a call of a removed symbol nothing is found that replaces it. -/
theorem exists_run_evaluateParts {fuel i : Nat} {xs : List Term} {generation : Option Nat}
    (hquiet : k.Quiet c) (hburied : k.Buried) (hremoved : (k.record f).removed = true)
    (hargs : (ofFuel (fuel + 1)).SelfEvaluating c
      ((evaluateWith (fuel + 1) c (.symbol f)).run k).2 xs k')
    (hfree : k'.Unclaimed c f (Term.node i (.symbol f) xs).spliceSequences.args) :
    ∃ v k'', ((ofFuel (fuel + 1)).evaluateParts c generation (.node i (.symbol f) xs)).run k =
      (.ok (.done v), k'') ∧ v.strip = (Term.node i (.symbol f) xs).spliceSequences.strip := by
  obtain ⟨k₁, hhead, hsymbols⟩ := exists_run_evaluateWith_of_removed hremoved hquiet fuel
  rw [hhead] at hargs
  have hburies : k.Buries k' := (Kernel.Buries.of_symbols_eq hsymbols).trans hargs.buries
  have hgone : k'.Gone f := hburies.gone f (hburied f hremoved)
  have hattrs : k₁.attributes f = .none := by
    rw [Kernel.attributes, Kernel.record, hsymbols]
    exact (hburied f hremoved).attributes
  -- the arguments are evaluated, and the call is made anew from them
  obtain ⟨vs, hvs, hequal⟩ := hargs.run_evaluateArgs 1
  have hrebuilt : (rebuild (.node i (.symbol f) xs) (.symbol f) vs).strip =
      (Term.node i (.symbol f) xs).strip := strip_rebuild_of_equal rfl hequal
  have hspliced := Likeness.like_spliceSequences (L := Likeness.bare) (w := ()) hrebuilt
  obtain ⟨v, k'', hrun, hv⟩ := exists_run_arrangeCall (r := ofFuel (fuel + 1)) hgone generation
    (hfree.of_strip hspliced)
  have hget : (get : EvalM Kernel).run k₁ = (.ok k₁, k₁) := rfl
  refine ⟨v, k'', ?_, hv.trans hspliced⟩
  rw [evaluateParts_eq]
  refine (EvalM.run_bind_ok hhead).trans ((EvalM.run_bind_ok hget).trans ?_)
  dsimp only [symbol?]
  rw [hattrs]
  exact (EvalM.run_bind_ok hvs).trans hrun

/-- A round on a call of a removed symbol is the last one: the call is remembered, or nothing
replaces it. -/
theorem exists_run_evaluateRound {fuel id : Nat} {args : List Term} (hquiet : k.Quiet c)
    (hburied : k.Buried) (hremoved : (k.record f).removed = true)
    (hlimit : k.depth c < k.config.maxRecursion)
    (hargs : (ofFuel (fuel + 1)).SelfEvaluating c
      (k.insideCall (fuel + 1) c (.node id (.symbol f) args))
      (k.share (.node id (.symbol f) args)).1.args k')
    (hfree : k'.Unclaimed c f (Term.node id (.symbol f) args).spliceSequences.args) :
    ∃ v k'', ((ofFuel (fuel + 1)).evaluateRound c (.node id (.symbol f) args)).run k =
      (.ok (.done v), k'') ∧ (v.strip = (Term.node id (.symbol f) args).strip ∨
        v.strip = (Term.node id (.symbol f) args).spliceSequences.strip) := by
  generalize hcall : Term.node id (.symbol f) args = call at hargs hfree ⊢
  let k₁ := ((k.elapse Kernel.lookTime).share call).2
  have hshare : (share call).run (k.elapse Kernel.lookTime) = (.ok (k.share call).1, k₁) := rfl
  have hstrip : (k.share call).1.strip = call.strip := Term.strip_share call _
  obtain ⟨i, xs, hnode⟩ : ∃ i xs, (k.share call).1 = .node i (.symbol f) xs := by
    subst hcall
    cases id <;> exact ⟨_, _, rfl⟩
  rw [evaluateRound_eq, EvalM.run_bind_ok (run_checkAbort hquiet), EvalM.run_bind_ok hshare]
  rw [hnode] at hargs hstrip ⊢
  cases hfresh : (k₁.stampGeneration? c).any (k₁.isEvaluated (.node i (.symbol f) xs)) with
  | true =>
      have hget : (get : EvalM Kernel).run k₁ = (.ok k₁, k₁) := rfl
      have hstep : (roundStep (ofFuel (fuel + 1)) c (.node i (.symbol f) xs)).run k₁ =
          (.ok (.done (.node i (.symbol f) xs)), k₁) := by
        rw [roundStep, EvalM.run_bind_ok hget, if_pos hfresh]
        rfl
      exact ⟨_, k₁, EvalM.run_bind_ok hstep, .inl hstrip⟩
  | false =>
      have hspliced := Likeness.like_spliceSequences (L := Likeness.bare) (w := ()) hstrip
      have hkey : call.key = .symbol f := by rw [← hcall]; rfl
      rw [Kernel.insideCall, hkey, Term.args] at hargs
      have hdefinitions : k₁.SameDefinitions (k₁.enter c) :=
        Kernel.sameDefinitions_updateContext k₁ c fun _ => rfl
      have hquiet' : (k₁.enter c).Quiet c := hdefinitions.quiet ((hquiet.elapse _).share call)
      obtain ⟨v, k₂, hparts, hv⟩ := exists_run_evaluateParts (k := k₁.enter c)
        hquiet' hburied hremoved hargs (hfree.of_strip hspliced)
      have hstep := run_roundStep_call hfresh hlimit (ofFuel (fuel + 1))
      rw [EvalM.run_ensuring, hparts] at hstep
      exact ⟨v, _, EvalM.run_bind_ok hstep, .inr (hv.trans hspliced)⟩

end Evaluator

/-- In every kernel that comes about, a removed symbol evaluates to itself, and a call of it stays
as it is but for sequences spliced in, if the arguments evaluate to themselves and nothing but the
symbol takes up the call. -/
theorem Kernel.Occurs.evaluate_removed {k : Kernel} {c : ContextId} {f : Symbol} (hk : k.Occurs)
    (hremoved : (k.record f).removed = true) (hquiet : k.Quiet c) (fuel : Nat) :
    ((evaluateWith (fuel + 1) c (.symbol f)).run k).1 = .ok (.symbol f) ∧
    ∀ (id : Nat) (args : List Term) (k' : Kernel), k.depth c < k.config.maxRecursion →
      (Evaluator.ofFuel (fuel + 1)).SelfEvaluating c
        (k.insideCall (fuel + 1) c (.node id (.symbol f) args))
        (k.share (.node id (.symbol f) args)).1.args k' →
      k'.Unclaimed c f (Term.node id (.symbol f) args).spliceSequences.args →
      ∃ v k'', (evaluateWith (fuel + 2) c (.node id (.symbol f) args)).run k = (.ok v, k'') ∧
        ((v == .node id (.symbol f) args) = true ∨
          (v == (Term.node id (.symbol f) args).spliceSequences) = true) := by
  constructor
  · obtain ⟨k', hrun, -⟩ := exists_run_evaluateWith_of_removed hremoved hquiet fuel
    rw [hrun]
  · intro id args k' hlimit hargs hfree
    obtain ⟨v, k₁, hround, hv⟩ :=
      Evaluator.exists_run_evaluateRound hquiet hk.buried hremoved hlimit hargs hfree
    obtain ⟨k'', hrun, -⟩ := Evaluator.exists_run_evaluateFully hround
    refine ⟨v, k'', hrun, ?_⟩
    rwa [Term.beq_iff_strip, Term.beq_iff_strip]

/-- The call `x(2)`. -/
def twoCall : Term := .app ⟨38, "x"⟩ [.int 2]

/-- The kernel in which `x` was defined in every way before it was removed. -/
def strippedKernel : Kernel :=
  let x : Symbol := ⟨38, "x"⟩
  let events : List Event :=
    [.call 1 ⟨0⟩ (.assignDelayed twoCall (.int 1)), .call 1 ⟨0⟩ (.setValue x (some (.int 1))),
      .call 1 ⟨0⟩ (.setAttributes x (.ofList [.holdAllComplete]))]
  let k := events.foldl Event.apply pairKernel
  ((k.register x .down (.function fun _ => some (.int 1))).remove x).2

theorem occurs_pairKernel : pairKernel.Occurs :=
  .event (.intern "y") (.event (.intern "x") (.event (.aside (fun k => k.newRoot.2) fun _ => rfl)
    (.new {})))

/-- There `x` evaluates to itself, and `x(2)` too. -/
theorem evaluate_removed_two :
    ((evaluateWith 1 ⟨0⟩ (.symbol ⟨38, "x"⟩)).run strippedKernel).1 = .ok (.symbol ⟨38, "x"⟩) ∧
      ∃ v k', (evaluateWith 2 ⟨0⟩ twoCall).run strippedKernel = (.ok v, k') ∧
        ((v == twoCall) = true ∨ (v == twoCall.spliceSequences) = true) := by
  have hoccurs : strippedKernel.Occurs := .event (.remove ⟨38, "x"⟩) (.register _ _ _
    (.event (.call _ _ _) (.event (.call _ _ _) (.event (.call _ _ _) occurs_pairKernel))))
  have hinert := hoccurs.evaluate_removed (c := ⟨0⟩) (f := ⟨38, "x"⟩) rfl ⟨rfl, rfl⟩ 0
  refine ⟨hinert.1, hinert.2 0 [.int 2] _ (by decide) (.cons rfl rfl (.nil _)) ⟨rfl, rfl, ?_⟩⟩
  intro t ht s hs
  rw [List.mem_singleton.mp ht] at hs
  cases hs

/-- But with a local rule of `x`, or with native code bound to `x` after its removal, `x(2)`
evaluates to 1. -/
theorem evaluate_call_of_removed :
    let x : Symbol := ⟨38, "x"⟩
    let rule : Rule := .make (fun _ => .none) twoCall (.int 1) .delayed
    let k₁ := ((pairKernel.addLocalRule ⟨0⟩ x rule).remove x).2
    let k₂ := (pairKernel.remove x).2.register x .down (.function fun _ => some (.int 1))
    (k₁.Occurs ∧ (k₁.record x).removed = true ∧
      ∃ v k', (evaluateWith 3 ⟨0⟩ twoCall).run k₁ = (.ok v, k') ∧ (v == .int 1) = true) ∧
    k₂.Occurs ∧ (k₂.record x).removed = true ∧
      ∃ v k', (evaluateWith 3 ⟨0⟩ twoCall).run k₂ = (.ok v, k') ∧ (v == .int 1) = true := by
  intro x rule k₁ k₂
  have hlocal : (pairKernel.addLocalRule ⟨0⟩ x rule).Occurs :=
    .event (.aside (fun k => k.addLocalRule ⟨0⟩ x rule) fun _ => rfl) occurs_pairKernel
  have hanswer : ∀ k ∈ [k₁, k₂],
      succeedsWith (fun v _ => v == .int 1) ((evaluateWith 3 ⟨0⟩ twoCall).run k) = true := by
    decide +kernel
  refine ⟨⟨.event (.remove x) hlocal, rfl, ?_⟩,
    .register x .down _ (.event (.remove x) occurs_pairKernel), rfl, ?_⟩
  · exact exists_of_succeedsWith (hanswer k₁ (by simp))
  · exact exists_of_succeedsWith (hanswer k₂ (by simp))

end Termwise
