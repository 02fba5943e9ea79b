import Termwise.Eval.Evaluate
import Termwise.Proofs.Eval.Callees
import Termwise.Proofs.Eval.Contract
import Termwise.Proofs.Eval.Stages

/-!
# Termwise.Proofs.Eval.Nested

What evaluation does is the same with evaluators that agree (`Evaluator.AgreesIn`), and
keeps to a contract if they do.  What the contract has to allow for is what evaluation
does to the kernel by itself (`Contract.Scope.Hosts`): nodes are named and stamped,
messages sent, time passes, exceptions are thrown and caught, gathers are opened, filled
and closed.

What is left open here is what entering and leaving a call, which moves the nesting
depth, and reporting the recursion limit do to the contract, and native code.
-/

namespace Termwise

/-! ## what evaluation does by itself -/

/-- From a kernel on, nodes may be stamped with a generation. -/
def Contract.Stamps (C : Contract) (c : ContextId) (generation : Option Nat) (k : Kernel) : Prop :=
  ∀ (k' : Kernel) (t : Term), C.Ok k k' → C.Ok k' (k'.stamp c t generation)

theorem Contract.Stamps.later {C : Contract} {c : ContextId} {generation : Option Nat}
    {k k' : Kernel} (h : C.Stamps c generation k) (hk : C.Ok k k') : C.Stamps c generation k' :=
  fun k'' t hk' => h k'' t (C.trans hk hk')

/-- A contract allows for what evaluation in a context does to the kernel by itself. -/
structure Contract.Scope.Hosts {C : Contract} (S : C.Scope) (c : ContextId) : Prop where
  share : ∀ (k : Kernel) (t : Term), C.Ok k (k.share t).2
  message : ∀ (k : Kernel) (s : Symbol) (tag : String) (args : List Term), tag ≠ "reclim" →
    C.Ok k (k.addMessage s tag args)
  elapse : ∀ (k : Kernel) (nanos : Nat), C.Ok k (k.elapse nanos)
  /-- Nodes are stamped with a generation that was read before. -/
  stamp : ∀ k : Kernel, C.Stamps c (k.stampGeneration? c) k
  aborted : ∀ k, C.Fails .aborted k k
  raise : ∀ (k : Kernel) (value : Term), C.Fails (.thrown value) k (k.recordException c value)
  /-- What was thrown may be caught. -/
  catches : ∀ {k k' : Kernel} {value : Term}, C.Fails (.thrown value) k k' →
    C.Ok k (k'.catchException c).2
  collect : ∀ (k : Kernel) (owner : ContextId) (id : Nat) (value : Term),
    C.Ok k (k.collect owner id value)
  /-- Evaluation may start while a gather is open. -/
  opens : ∀ {k : Kernel}, S.From c k → ∀ pattern, S.From c (k.gatherBegin c pattern)
  /-- A gather may be closed however the evaluation within it has ended. -/
  closes : ∀ {k k' : Kernel} {pattern : Term} {result : Except EvalError Term},
    C.Leaves (k.gatherBegin c pattern) result k' → C.Leaves k result (k'.gatherEnd c).2

/-- After the outermost evaluation in a context the recursion limit may be reported anew. -/
def Contract.Scope.Resets {C : Contract} (S : C.Scope) (c : ContextId) : Prop :=
  ∀ {k k' : Kernel} {result : Except EvalError Term}, S.From c k → k.depth c = 0 →
    C.Leaves k result k' → C.Leaves k result (k'.setLimitReported c false)

namespace Contract

variable {C : Contract} {S : C.Scope} {c : ContextId} {α : Type}

theorem Scope.Hosts.calm_share (h : S.Hosts c) (t : Term) : C.Calm (Termwise.share t) :=
  calm_modifyGet fun k => h.share k t

theorem Scope.Hosts.calm_message (h : S.Hosts c) (s : Symbol) {tag : String}
    (htag : tag ≠ "reclim") (args : List Term) : C.Calm (Termwise.message s tag args) :=
  calm_modify fun k => h.message k s tag args htag

theorem Scope.Hosts.calm_raise (h : S.Hosts c) (value : Term) :
    C.Calm (Termwise.raise c value : EvalM α) := fun k => ⟨rfl, h.raise k value⟩

theorem Scope.Hosts.calm_checkAbort (h : S.Hosts c) : C.Calm (checkAbort c) := by
  refine calm_bind (calm_modify fun k => h.elapse k _) fun _ => calm_bind calm_get fun k => ?_
  split
  · exact calm_throw h.aborted
  · exact calm_pure _

end Contract

/-! ## evaluators that agree -/

/-- Two evaluators agree in all contexts. -/
structure Evaluator.AgreesIn {C : Contract} (S : C.Scope) (r r' : Evaluator) : Prop where
  evaluate : ∀ c t, (S.agreeing c).Alike (r.evaluate c t) (r'.evaluate c t)
  rewrite : ∀ c lhs rhs t, (S.agreeing c).Alike (r.rewrite c lhs rhs t) (r'.rewrite c lhs rhs t)

namespace Evaluator

open Contract

variable {C : Contract} {S : C.Scope} {r r' : Evaluator} {c : ContextId} {q : Term → Term → Prop}

/-- The two rewrite alike with sides such that. -/
abbrev RewritesAlike (S : C.Scope) (r r' : Evaluator) (c : ContextId) (q : Term → Term → Prop) :
    Prop :=
  (r.callees c).RewritesAlike (r'.callees c) (S.agreeing c) q

theorem AgreesIn.rewritesAlike (h : AgreesIn S r r') (c : ContextId) :
    RewritesAlike S r r' c fun _ _ => True := fun lhs rhs t _ => h.rewrite c lhs rhs t

/-! ## lookups and searches -/

theorem alike_callees (hosts : S.Hosts c) (r r' : Evaluator) :
    (r.callees c).Alike (r'.callees c) (S.agreeing c) (S.From c) where
  kernel hf := Contract.alike_get fun k hk => hf k hk k hk
  share t := (hosts.calm_share t).alike
  poll := hosts.calm_checkAbort.alike

section Hosted

variable (h : AgreesIn S r r') (hosts : S.Hosts c)

include h hosts

theorem AgreesIn.findRule? (s : Symbol) (cache : RuleCache) (subject : Term) :
    (S.agreeing c).Alike (r.findRule? c s cache subject) (r'.findRule? c s cache subject) :=
  Callees.alike_findRule? (alike_callees hosts r r') (h.rewritesAlike c)
    (Callees.rules_true (S.From c) cache) s subject

theorem AgreesIn.findLocalRule? (s : Symbol) (call : Term) :
    (S.agreeing c).Alike (r.findLocalRule? c s call) (r'.findLocalRule? c s call) := by
  refine (S.agreeing c).alike_bind calm_get.alike fun k => ?_
  cases k.localRules? c s with
  | some list =>
      exact Callees.alike_find? (alike_callees hosts r r') (h.rewritesAlike c) list.all_true call
  | none => exact (S.agreeing c).alike_pure none

theorem AgreesIn.format (t : Term) : (S.agreeing c).Alike (r.format c t) (r'.format c t) := by
  unfold Evaluator.format
  cases t.topmost? with
  | none => exact (S.agreeing c).alike_pure t
  | some s =>
      exact (S.agreeing c).alike_bind (h.findRule? hosts s .format t) fun _ =>
        (S.agreeing c).alike_pure _

omit hosts in
theorem AgreesIn.replace (c : ContextId) (everywhere : Bool) (rules : List Rule) (t : Term) :
    (S.agreeing c).Alike (r.replace c everywhere rules t) (r'.replace c everywhere rules t) :=
  Callees.alike_replace (h.rewritesAlike c) everywhere rules t

theorem AgreesIn.surroundings :
    (r.callees c).surroundings.Alike (r'.callees c).surroundings
      ((S.agreeing c).state SearchState) True True :=
  Callees.alike_surroundings (alike_callees hosts r r') (fun _ => h.evaluate c) fun _ =>
    Callees.alike_default? (alike_callees hosts r r') (h.rewritesAlike c)
      (Callees.rules_true (S.From c) .default)

theorem AgreesIn.rewriteWith (lhs rhs subject : Term) :
    (S.agreeing c).Alike (r.rewriteWith c lhs rhs subject) (r'.rewriteWith c lhs rhs subject) :=
  Callees.alike_rewriteWith (h.surroundings hosts) (alike_callees hosts r r').share
    (Pattern.every_asks_ofTerm lhs) (fun _ => trivial) subject

theorem AgreesIn.isMatch (subject pattern : Term) :
    (S.agreeing c).Alike (r.isMatch c subject pattern) (r'.isMatch c subject pattern) :=
  (S.agreeing c).alike_bind (Callees.alike_match? (h.surroundings hosts) subject pattern) fun b =>
    (S.agreeing c).alike_pure b.isSome

/-! ## exceptions and gathers -/

theorem AgreesIn.capture (t : Term) :
    (S.agreeing c).Alike (r.capture c t) (r'.capture c t) := by
  refine fun k hk => (h.evaluate c t k hk).outcome fun result k' hleaves => ?_
  cases result with
  | ok value => exact ⟨rfl, hleaves⟩
  | error e =>
      cases e with
      | thrown value => exact ⟨rfl, hosts.catches hleaves⟩
      | _ => exact ⟨rfl, hleaves⟩

omit h hosts in
/-- A gather is closed however the evaluation within it has ended. -/
theorem run_gather (r : Evaluator) (c : ContextId) (t pattern : Term) (k : Kernel) :
    (r.gather c t pattern).run k =
      (((r.evaluate c t).run (k.gatherBegin c pattern)).1.map
          fun value => .list [value, .list
            (((r.evaluate c t).run (k.gatherBegin c pattern)).2.gatherEnd c).1],
        (((r.evaluate c t).run (k.gatherBegin c pattern)).2.gatherEnd c).2) := by
  have hbegin : (modify fun k => k.gatherBegin c pattern : EvalM PUnit).run k =
      (.ok ⟨⟩, k.gatherBegin c pattern) := rfl
  have hend : ∀ k' : Kernel, (modifyGet fun k => k.gatherEnd c : EvalM (List Term)).run k' =
      (.ok (k'.gatherEnd c).1, (k'.gatherEnd c).2) := fun _ => rfl
  rw [Evaluator.gather, EvalM.run_bind_ok hbegin, EvalM.run_bind_ok (EvalM.run_outcome _ _),
    EvalM.run_bind_ok (hend _)]
  cases ((r.evaluate c t).run (k.gatherBegin c pattern)).1 <;> rfl

theorem AgreesIn.gather (t pattern : Term) :
    (S.agreeing c).Alike (r.gather c t pattern) (r'.gather c t pattern) := by
  intro k hk
  obtain ⟨heq, hleaves⟩ := h.evaluate c t _ (hosts.opens hk pattern)
  refine ⟨?_, ?_⟩
  · rw [run_gather, run_gather, heq]
  · rw [run_gather]
    have hclosed := hosts.closes hleaves
    cases hresult : ((r.evaluate c t).run (k.gatherBegin c pattern)).1 <;>
      rw [hresult] at hclosed <;> exact hclosed

theorem AgreesIn.offer (owner : ContextId) (value tag : Term) (frame : GatherFrame) :
    (S.agreeing c).Alike (r.offer c owner value tag frame) (r'.offer c owner value tag frame) := by
  refine (S.agreeing c).alike_bind (h.isMatch hosts tag frame.pattern) fun matched => ?_
  refine Calm.alike (iteInduction (motive := C.Calm) (fun _ => ?_) fun _ => calm_pure none)
  refine calm_bind calm_get fun k => iteInduction (motive := C.Calm) (fun _ => ?_)
    fun _ => calm_pure none
  exact calm_bind (calm_modify fun k => hosts.collect k owner frame.id value) fun _ =>
    calm_pure (some ())

theorem AgreesIn.emitInto (value tag : Term) (owners : List ContextId) (seen : Bool) :
    (S.agreeing c).Alike (r.emitInto c value tag owners seen)
      (r'.emitInto c value tag owners seen) := by
  induction owners generalizing seen with
  | nil =>
      unfold Evaluator.emitInto
      split <;> exact (hosts.calm_message _ (by decide) _).alike
  | cons owner rest ih =>
      refine (S.agreeing c).alike_bind calm_get.alike fun k => ?_
      refine (S.agreeing c).alike_bind (Congruence.alike_findSomeM? fun frame _ =>
        h.offer hosts owner value tag frame) fun found => ?_
      cases found with
      | some _ => exact (S.agreeing c).alike_pure ()
      | none => exact ih _

theorem AgreesIn.emit (value tag : Term) :
    (S.agreeing c).Alike (r.emit c value tag) (r'.emit c value tag) :=
  (S.agreeing c).alike_bind calm_get.alike fun _ => h.emitInto hosts value tag _ false

end Hosted

/-! ## parts of calls -/

theorem AgreesIn.evaluateArgs (h : AgreesIn S r r') (c : ContextId) (attrs : Attributes) (i : Nat)
    (ts : List Term) :
    (S.agreeing c).Alike (r.evaluateArgs c attrs i ts) (r'.evaluateArgs c attrs i ts) := by
  induction ts generalizing i with
  | nil => exact (S.agreeing c).alike_pure []
  | cons t ts ih =>
      have hrest := fun value : Term => (S.agreeing c).alike_bind (ih (i + 1)) fun values =>
        (S.agreeing c).alike_pure (value :: values)
      simp only [Evaluator.evaluateArgs]
      split
      · exact hrest t
      · exact (S.agreeing c).alike_bind (h.evaluate c t) hrest

theorem calm_normalize (hosts : S.Hosts c) (attrs : Attributes) (call : Term) :
    C.Calm (normalize attrs call) := by
  have hthread : ∀ t : Term, C.Calm t.threadListable := fun t => by
    unfold Term.threadListable
    split
    · exact calm_pure none
    · exact iteInduction (motive := C.Calm) (fun _ => calm_pure _)
        fun _ => calm_bind (hosts.calm_message _ (by decide) _) fun _ => calm_pure none
  refine iteInduction (motive := C.Calm) (fun _ => calm_bind (hthread _) fun threaded => ?_)
    fun _ => calm_bind (calm_pure none) fun threaded => ?_
  all_goals cases threaded <;> exact calm_pure _

theorem calm_hold (hosts : S.Hosts c) (t : Term) : C.Calm (hold c t) :=
  calm_bind (hosts.calm_share _) fun held =>
    calm_bind (calm_modify fun k => hosts.stamp k k held (C.refl k)) fun _ => calm_pure held

/-- Beyond the recursion limit nothing is evaluated. -/
theorem agreeFrom_refuse (hosts : S.Hosts c) {k : Kernel} (hlimit : 2 * k.config.maxRecursion <
    k.depth c → C.Fails (.recursionLimit k.config.maxRecursion) k k)
    (hreport : (k.context c).limitReported = false → ∀ args, C.Ok k (k.reportLimit c args))
    (call : Term) : C.AgreeFrom k (refuse c call) (refuse c call) := by
  refine AgreeFrom.get ?_
  dsimp only
  split
  · rename_i hdeep
    exact ⟨rfl, hlimit hdeep⟩
  · split
    · exact calm_bind (calm_hold hosts call) (fun held => hosts.calm_raise held) k
    · rename_i hclear
      have hreported : ∀ args, C.AgreeFrom k (do
          modify fun k => k.setLimitReported c true
          message .general "reclim" args) (do
          modify fun k => k.setLimitReported c true
          message .general "reclim" args) := fun args =>
        ⟨rfl, hreport (eq_false_of_ne_true hclear) args⟩
      rw [← bind_assoc]
      exact (hreported _).bind fun _ k' _ _ =>
        calm_bind (calm_hold hosts call) (fun _ => calm_pure _) k'

/-! ## calls -/

/-- Native code that a symbol may have in a scope does the same with two evaluators. -/
def CodeAlike (S : C.Scope) (r r' : Evaluator) (c : ContextId) : Prop :=
  ∀ k, S.From c k → ∀ s usage code, (k.record s).code.get usage = some code →
    ∀ call, C.AgreeFrom k (r.run c code call) (r'.run c code call)

theorem CodeAlike.runCode? (hcode : CodeAlike S r r' c) (usage : CodeUsage) (call : Term)
    (s : Symbol) :
    (S.agreeing c).Alike (r.runCode? c usage call s) (r'.runCode? c usage call s) := by
  refine Contract.alike_get fun k hk => ?_
  cases hget : (k.record s).code.get usage with
  | some code => exact hcode k hk s usage code hget call
  | none => exact calm_pure none k

theorem AgreesIn.reduce (h : AgreesIn S r r') (hosts : S.Hosts c) (hcode : CodeAlike S r r' c)
    (attrs : Attributes) (head : Option Symbol) (call : Term) :
    (S.agreeing c).Alike (r.reduce c attrs head call) (r'.reduce c attrs head call) := by
  rw [reduce_eq, reduce_eq]
  exact Congruence.alike_findSomeM?_forall₂ (forall₂_attempts
    (fun cache s => h.findRule? hosts s cache call) (fun s => h.findLocalRule? hosts s call)
    (fun usage s => hcode.runCode? usage call s) rfl rfl head)

section Call

variable (h : AgreesIn S r r') (hosts : S.Hosts c) (hcode : CodeAlike S r r' c) {k : Kernel}
  {generation : Option Nat} (hk : S.From c k) (hstamps : C.Stamps c generation k)

include h hosts hcode hk hstamps

theorem AgreesIn.finishCall (attrs : Attributes) (head : Option Symbol) (normal : Term) :
    C.AgreeFrom k (r.finishCall c generation attrs head normal)
      (r'.finishCall c generation attrs head normal) := by
  refine (hosts.calm_share normal k).bind fun normal k₁ _ hk₁ => ?_
  refine (h.reduce hosts hcode attrs head normal k₁ (S.keeps hk hk₁)).bind
    fun result k₂ _ hk₂ => ?_
  cases result with
  | some result => exact calm_pure _ k₂
  | none =>
      have hstamped := hstamps k₂ normal (C.trans hk₁ hk₂)
      exact AgreeFrom.bind ⟨rfl, hstamped⟩ fun _ k₃ _ _ => calm_pure _ k₃

theorem AgreesIn.arrangeCall (attrs : Attributes) (head : Option Symbol) (call : Term) :
    C.AgreeFrom k (r.arrangeCall c generation attrs head call)
      (r'.arrangeCall c generation attrs head call) := by
  refine (hosts.calm_share _ k).bind fun call k₁ _ hk₁ => ?_
  refine (calm_normalize hosts attrs call k₁).bind fun step k₂ _ hk₂ => ?_
  have hok : C.Ok k k₂ := C.trans hk₁ hk₂
  cases step with
  | rewritten threaded => exact calm_pure _ k₂
  | done normal =>
      exact AgreesIn.finishCall h hosts hcode (S.keeps hk hok) (hstamps.later hok) _ _ normal

theorem AgreesIn.evaluateOn (call head : Term) (attrs : Attributes) :
    C.AgreeFrom k (r.evaluateOn c generation call head attrs)
      (r'.evaluateOn c generation call head attrs) :=
  (h.evaluateArgs c _ 1 call.args k hk).bind fun _ _ _ hk₁ =>
    AgreesIn.arrangeCall h hosts hcode (S.keeps hk hk₁) (hstamps.later hk₁) _ _ _

theorem AgreesIn.evaluateParts (call : Term) :
    C.AgreeFrom k (r.evaluateParts c generation call) (r'.evaluateParts c generation call) := by
  rw [evaluateParts_eq, evaluateParts_eq]
  refine (h.evaluate c call.key k hk).bind fun head k₁ _ hk₁ => AgreeFrom.get ?_
  exact AgreesIn.evaluateOn h hosts hcode (S.keeps hk hk₁) (hstamps.later hk₁) _ _ _

omit hk hstamps in
/-- Inside a call, nodes are stamped with the generation that was read before it was entered. -/
theorem AgreesIn.evaluateEntered (hk : S.From c (k.enter c)) (call : Term) :
    C.AgreeFrom (k.enter c) (r.evaluateParts c (k.stampGeneration? c) call)
      (r'.evaluateParts c (k.stampGeneration? c) call) := by
  rw [← k.stampGeneration?_enter c c]
  exact h.evaluateParts hosts hcode hk (hosts.stamp _) call

end Call

/-- A call within the recursion limit is evaluated inside, one beyond it is refused there; and the
contract that is kept inside has to allow for leaving the call. -/
theorem AgreesIn.evaluateCall (h : AgreesIn S r r') (hosts : S.Hosts c) (hcode : CodeAlike S r r' c)
    (henter : ∀ k : Kernel, S.From c k → (k.enter c).depth c ≤ k.config.maxRecursion →
      S.From c (k.enter c))
    (hrefuse : ∀ k : Kernel, S.From c k → 2 * k.config.maxRecursion < (k.enter c).depth c →
      C.Fails (.recursionLimit k.config.maxRecursion) (k.enter c) (k.enter c))
    (hreport : ∀ k : Kernel, S.From c k → ((k.enter c).context c).limitReported = false →
      ∀ args, C.Ok (k.enter c) ((k.enter c).reportLimit c args))
    (hleave : ∀ (k k' : Kernel) (result : Except EvalError Step), S.From c k →
      C.Leaves (k.enter c) result k' → C.Leaves k result (k'.leave c)) (call : Term) :
    (S.agreeing c).Alike (r.evaluateCall c call) (r'.evaluateCall c call) := by
  refine Contract.alike_get fun k hk => ?_
  refine AgreeFrom.inCall (AgreeFrom.get ?_) fun result k' => hleave k k' result hk
  split
  · exact agreeFrom_refuse hosts (hrefuse k hk) (hreport k hk) call
  · rename_i hwithin
    exact h.evaluateEntered hosts hcode (henter k hk (Nat.le_of_not_lt hwithin)) call

/-! ## rounds -/

/-- Within the recursion limit a call that is not remembered is entered. -/
theorem run_roundStep_call {k : Kernel} {i : Nat} {f : Term} {xs : List Term}
    (hfresh : (k.stampGeneration? c).any (k.isEvaluated (.node i f xs)) = false)
    (hlimit : k.depth c < k.config.maxRecursion) (r : Evaluator) :
    (r.roundStep c (.node i f xs)).run k =
      ((r.evaluateParts c (k.stampGeneration? c) (.node i f xs)).ensuring
        fun k => k.leave c).run (k.enter c) := by
  have hget : (get : EvalM Kernel).run k = (.ok k, k) := rfl
  have hdepth := k.depth_enter_le c c
  have hwithin : ¬(k.enter c).config.maxRecursion < (k.enter c).depth c :=
    Nat.not_lt.mpr (Nat.le_trans hdepth hlimit)
  rw [roundStep, EvalM.run_bind_ok hget, hfresh]
  change ((if (k.enter c).config.maxRecursion < (k.enter c).depth c then refuse c (.node i f xs)
    else r.evaluateParts c (k.stampGeneration? c) (.node i f xs)).ensuring fun k => k.leave c).run
      (k.enter c) = _
  rw [if_neg hwithin]

theorem alike_evaluateSymbol (hosts : S.Hosts c) (hown : RewritesAlike S r r' c q)
    (hq : Callees.Rules (S.From c) .own q) (s : Symbol) :
    (S.agreeing c).Alike (r.evaluateSymbol c s) (r'.evaluateSymbol c s) := by
  refine (S.agreeing c).alike_bind calm_get.alike fun k => ?_
  split
  · exact (S.agreeing c).alike_pure none
  · split
    · exact (S.agreeing c).alike_pure _
    · exact Callees.alike_findRule? (alike_callees hosts r r') hown hq s (.symbol s)

theorem calm_endRound (hosts : S.Hosts c) (t : Term) (step : Step) :
    C.Calm (endRound c t step) := by
  cases step with
  | done value => exact calm_pure _
  | rewritten next =>
      refine calm_bind (hosts.calm_share next) fun next =>
        iteInduction (motive := C.Calm) (fun _ => ?_) fun _ => calm_pure _
      exact calm_bind (calm_modify fun k => hosts.stamp k k next (C.refl k)) fun _ => calm_pure _

section Rounds

variable (hosts : S.Hosts c) (hown : RewritesAlike S r r' c q)
  (hq : Callees.Rules (S.From c) .own q)
  (hcall : ∀ call, (S.agreeing c).Alike (r.evaluateCall c call) (r'.evaluateCall c call))

include hosts hown hq hcall

theorem alike_roundStep (t : Term) :
    (S.agreeing c).Alike (r.roundStep c t) (r'.roundStep c t) := by
  cases t with
  | symbol s =>
      refine (S.agreeing c).alike_bind (alike_evaluateSymbol hosts hown hq s) fun value => ?_
      cases value <;> exact (S.agreeing c).alike_pure _
  | node i f args =>
      refine (S.agreeing c).alike_bind calm_get.alike fun k => ?_
      split
      · exact (S.agreeing c).alike_pure _
      · exact hcall _
  | _ => exact (S.agreeing c).alike_pure _

theorem alike_evaluateRound (t : Term) :
    (S.agreeing c).Alike (r.evaluateRound c t) (r'.evaluateRound c t) := by
  rw [evaluateRound_eq, evaluateRound_eq]
  refine (S.agreeing c).alike_bind hosts.calm_checkAbort.alike fun _ => ?_
  refine (S.agreeing c).alike_bind (hosts.calm_share t).alike fun t => ?_
  exact (S.agreeing c).alike_bind (alike_roundStep hosts hown hq hcall t) fun step =>
    (calm_endRound hosts t step).alike

theorem alike_afterRound (left : Nat) (step : Step) :
    (S.agreeing c).Alike (r.afterRound c left step) (r'.afterRound c left step) := by
  induction left generalizing step with
  | zero =>
      cases step with
      | done value => exact (S.agreeing c).alike_pure value
      | rewritten next =>
          refine Calm.alike (calm_bind calm_get fun k => ?_)
          exact calm_bind (hosts.calm_message _ (by decide) _) fun _ => calm_hold hosts next
  | succ left ih =>
      cases step with
      | done value => exact (S.agreeing c).alike_pure value
      | rewritten next =>
          rw [afterRound, afterRound, evaluateRounds_eq, evaluateRounds_eq]
          exact (S.agreeing c).alike_bind (alike_evaluateRound hosts hown hq hcall next) ih

theorem alike_evaluateRounds (left : Nat) (t : Term) :
    (S.agreeing c).Alike (r.evaluateRounds c left t) (r'.evaluateRounds c left t) := by
  rw [evaluateRounds_eq, evaluateRounds_eq]
  exact (S.agreeing c).alike_bind (alike_evaluateRound hosts hown hq hcall t)
    (alike_afterRound hosts hown hq hcall left)

/-- Evaluation is alike if calls are, and rewriting with rules for symbols themselves. -/
theorem alike_evaluateFully (hreset : S.Resets c) (t : Term) :
    (S.agreeing c).Alike (r.evaluateFully c t) (r'.evaluateFully c t) := by
  refine Contract.alike_get fun k hk => ?_
  have hrounds := alike_evaluateRounds hosts hown hq hcall k.config.maxIterations t k hk
  dsimp only
  split
  · rename_i hdepth
    exact hrounds.ensuring fun result k' hleaves => hreset hk hdepth hleaves
  · exact hrounds

end Rounds

/-! ## any amount of fuel -/

/-- Evaluation agrees with itself if calls do wherever what is inside them does. -/
theorem agreesIn_ofFuel (hfuel : ∀ k, C.Fails .outOfFuel k k) (hosts : ∀ c, S.Hosts c)
    (hreset : ∀ c, S.Resets c) (hcall : ∀ {r : Evaluator}, r.AgreesIn S r → ∀ c call,
      (S.agreeing c).Alike (r.evaluateCall c call) (r.evaluateCall c call)) (fuel : Nat) :
    (ofFuel fuel).AgreesIn S (ofFuel fuel) := by
  induction fuel with
  | zero =>
      exact ⟨fun c t => (calm_throw hfuel).alike, fun c lhs rhs t => (calm_throw hfuel).alike⟩
  | succ fuel ih =>
      refine ⟨fun c t => ?_, fun c lhs rhs t => ih.rewriteWith (hosts c) lhs rhs t⟩
      exact alike_evaluateFully (hosts c) (ih.rewritesAlike c) (Callees.rules_true _ .own)
        (hcall ih c) (hreset c) t

end Evaluator

end Termwise
