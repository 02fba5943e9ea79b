import Termwise.Proofs.Eval.Defining
import Termwise.Proofs.Eval.Nested
import Termwise.Proofs.Kernel.Minor

/-!
# Termwise.Proofs.Eval.Native

Native code under a contract.  A contract is *lenient* (`Contract.Scope.Lenient`) if it
restricts what native code does only by which errors may come up and by how kernels are
left in the end: changes that are no evaluation are allowed, a failure may be caught
anywhere and thrown again, evaluations may have time limits, and a child may take part.
Then native code does the same with evaluators that agree, whatever it is; definitions
alone are left open.
-/

namespace Termwise

/-! ## time limits -/

namespace Kernel

/-- When a time limit that is set now runs out. -/
def expiry (k : Kernel) (nanos : Nat) : Nat := min (k.clock + nanos) noDeadline

/-- Under a time limit, if no earlier one is set in the context already. -/
def constrain (k : Kernel) (c : ContextId) (nanos : Nat) : Kernel :=
  k.setDeadline c (min (k.context c).deadline (k.expiry nanos))

end Kernel

namespace EvalM

variable {α : Type}

/-- What comes of an action under a time limit, by how it ended and when. -/
def inTime (k : Kernel) (expiry : Nat) : Except EvalError α → Except EvalError (Option α)
  | .ok value => .ok (some value)
  | .error .aborted => if !k.aborting && expiry ≤ k.clock then .ok none else .error .aborted
  | .error e => .error e

/-- The deadline is put back however the action has ended. -/
theorem run_timeConstrained (c : ContextId) (nanos : Nat) (x : EvalM α) (k : Kernel) :
    (timeConstrained c nanos x).run k =
      (inTime (x.run (k.constrain c nanos)).2 (k.expiry nanos) (x.run (k.constrain c nanos)).1,
        (x.run (k.constrain c nanos)).2.setDeadline c (k.context c).deadline) := by
  let previous := (k.context c).deadline
  have hget : (get : EvalM Kernel).run k = (.ok k, k) := rfl
  have hset : (modify fun k' => k'.setDeadline c (min previous (k.expiry nanos)) :
      EvalM PUnit).run k = (.ok ⟨⟩, k.constrain c nanos) := rfl
  rw [timeConstrained, run_bind_ok hget]
  refine (run_bind_ok hset).trans ((run_bind_ok (run_outcome _ _)).trans ?_)
  rw [run_ensuring]
  generalize x.run (k.constrain c nanos) = ended
  obtain ⟨e | value, k'⟩ := ended
  · cases e with
    | aborted =>
        have hend : ∀ (late : Bool) (k' : Kernel),
            (if late then pure none else throw .aborted : EvalM (Option α)).run k' =
              (if late then .ok none else .error .aborted, k') := fun late k' => by
          cases late <;> rfl
        exact hend _ _
    | _ => rfl
  · rfl

end EvalM

/-! ## lenient contracts -/

/-- A contract that native code keeps to if the evaluations that it starts do. -/
structure Contract.Scope.Lenient {C : Contract} (S : C.Scope) : Prop where
  /-- Changes that are no evaluation. -/
  minor : ∀ {k k' : Kernel}, k.Minor k' → C.Ok k k'
  stamp : ∀ (c : ContextId) (k : Kernel), C.Stamps c (k.stampGeneration? c) k
  /-- A failure may be caught. -/
  ok_of_fails : ∀ {e : EvalError} {k k' : Kernel}, C.Fails e k k' → C.Ok k k'
  /-- An error that came up once may come up anywhere. -/
  again : ∀ {e : EvalError} {k k' : Kernel}, C.Fails e k k' → ∀ k'', C.Fails e k'' k''
  errors : ∀ {e : EvalError}, e ≠ .outOfFuel → (∀ depth, e ≠ .recursionLimit depth) →
    ∀ k, C.Fails e k k
  child : ∀ {c : ContextId} {k : Kernel}, S.From c k →
    C.Ok k (k.spawnChild c).2 ∧ S.From (k.spawnChild c).1 (k.spawnChild c).2
  /-- Evaluation may start under a time limit. -/
  constrains : ∀ {c : ContextId} {k : Kernel}, S.From c k → ∀ nanos, S.From c (k.constrain c nanos)
  /-- A time limit may be lifted however the evaluation under it has ended. -/
  lifts : ∀ {c : ContextId} {k k' : Kernel} {nanos : Nat} {result : Except EvalError Term},
    C.Leaves (k.constrain c nanos) result k' →
      C.Leaves k result (k'.setDeadline c (k.context c).deadline)

namespace Contract.Scope.Lenient

variable {C : Contract} {S : C.Scope} {α β : Type} {k k' k'' : Kernel}

/-- In the end there may be another change, also after a failure. -/
theorem leaves (h : S.Lenient) {result : Except EvalError α} (hleaves : C.Leaves k result k')
    (hk : C.Ok k' k'') : C.Leaves k result k'' := by
  cases result with
  | ok a => exact C.trans hleaves hk
  | error e =>
      have hok : C.Ok k k'' := C.trans (h.ok_of_fails hleaves) hk
      exact C.trans_fails hok (h.again hleaves k'')

/-- Changes that leave depths alone are allowed, whatever else they change. -/
theorem of_stays (hstays : ∀ {k k' : Kernel}, k.Stays k' → C.Ok k k')
    (hok : ∀ {e : EvalError} {k k' : Kernel}, C.Fails e k k' → C.Ok k k')
    (hagain : ∀ {e : EvalError} {k k' : Kernel}, C.Fails e k k' → ∀ k'', C.Fails e k'' k'')
    (herrors : ∀ {e : EvalError}, e ≠ .outOfFuel → (∀ depth, e ≠ .recursionLimit depth) →
      ∀ k, C.Fails e k k)
    (hchild : ∀ {c : ContextId} {k : Kernel}, S.From c k →
      C.Ok k (k.spawnChild c).2 ∧ S.From (k.spawnChild c).1 (k.spawnChild c).2) : S.Lenient where
  minor hk := hstays hk.stays
  stamp c _ k t _ := hstays (k.stays_stamp c t _)
  ok_of_fails := hok
  again := hagain
  errors := herrors
  child := hchild
  constrains hk _ := S.keeps hk (hstays (Kernel.stays_setDeadline _ _ _))
  lifts {c k k' nanos result} hleaves := by
    have hset : C.Ok k (k.constrain c nanos) := hstays (k.stays_setDeadline c _)
    have hlift := hstays (k'.stays_setDeadline c (k.context c).deadline)
    cases result with
    | ok value => exact C.trans hset (C.trans hleaves hlift)
    | error e => exact C.trans_fails (C.trans hset (C.trans (hok hleaves) hlift)) (hagain hleaves _)

theorem hosts (h : S.Lenient) (c : ContextId) : S.Hosts c where
  share k t := h.minor (k.minor_share t)
  message k s _ args htag := h.minor (k.minor_addMessage s htag args)
  elapse k nanos := h.minor (k.minor_elapse nanos)
  stamp k := h.stamp c k
  aborted k := h.errors (e := .aborted) nofun nofun k
  raise k value := C.trans_fails (h.minor (k.minor_recordException c value))
    (h.errors (e := .thrown value) nofun nofun _)
  catches hfails := C.trans (h.ok_of_fails hfails) (h.minor (Kernel.minor_catchException _ c))
  collect k owner id value := h.minor (k.minor_collect owner id value)
  opens hk pattern := S.keeps hk (h.minor (Kernel.minor_gatherBegin _ c pattern))
  closes hleaves := h.leaves (hleaves.since (h.minor (Kernel.minor_gatherBegin _ c _)))
    (h.minor (Kernel.minor_gatherEnd _ c))

theorem calm_modify (h : S.Lenient) {f : Kernel → Kernel} (hf : ∀ k : Kernel, k.Minor (f k)) :
    C.Calm (modify f) :=
  Contract.calm_modify fun k => h.minor (hf k)

theorem calm_modifyGet (h : S.Lenient) {f : Kernel → α × Kernel}
    (hf : ∀ k : Kernel, k.Minor (f k).2) : C.Calm (modifyGet f) :=
  Contract.calm_modifyGet fun k => h.minor (hf k)

/-- After an action, whatever its outcome, the kernel is as after success; an error that it ended
with may be thrown again. -/
theorem outcome (h : S.Lenient) {x y : EvalM α} {f g : Except EvalError α → EvalM β}
    (hx : C.AgreeFrom k x y)
    (hf : ∀ result k', (∀ e, result = .error e → C.Calm (throw e : EvalM β)) →
      C.AgreeFrom k' (f result) (g result)) :
    C.AgreeFrom k (x.outcome >>= f) (y.outcome >>= g) := by
  refine hx.outcome fun result k' hleaves => ?_
  cases result with
  | ok a => exact (hf (.ok a) k' nofun).since hleaves
  | error e =>
      refine (hf _ k' fun e' he => ?_).since (h.ok_of_fails hleaves)
      cases he
      exact calm_throw (h.again hleaves)

/-! ## changes of definitions -/

theorem calm_change (h : S.Lenient) {f : Kernel → Except SymbolError Kernel}
    (hf : ∀ k k' : Kernel, f k = .ok k' → k.Minor k') : C.Calm (change f) := by
  refine fun k => AgreeFrom.get ?_
  cases hk : f k with
  | ok k' => exact ⟨rfl, h.minor (hf k k' hk)⟩
  | error e => exact calm_throw (e := .symbol e) (h.errors nofun nofun) k

/-- A change of the rules for a use, if the contract allows for opening them and for putting them
back. -/
theorem calm_changeRules (h : S.Lenient) {s : Symbol} {mode : AccessMode} {cache : RuleCache}
    {f : RuleList → RuleList × α}
    (hopen : ∀ (k : Kernel) opened, k.openRules s mode = .ok opened → C.Ok k opened.2)
    (hput : ∀ (k : Kernel) store k', k.openRules s mode = .ok (some store, k') →
      C.Ok k' (k'.putRules s cache (f (store.get cache)).1).bump) :
    C.Calm (changeRules s mode cache f) := by
  intro k
  have hrun := run_openRules s mode k
  cases hopened : k.openRules s mode with
  | error e =>
      rw [hopened] at hrun
      refine AgreeFrom.bind ⟨rfl, ?_⟩ fun store k' h _ => ?_
      · rw [hrun]
        exact h.errors (e := .symbol e) nofun nofun k
      · rw [hrun] at h
        cases h
  | ok opened =>
      rw [hopened] at hrun
      refine AgreeFrom.bind ⟨rfl, ?_⟩ fun store k' hstore _ => ?_
      · rw [hrun]
        exact hopen k opened hopened
      · rw [hrun] at hstore
        cases hstore
        cases hstore : opened.1 with
        | none => exact calm_pure none _
        | some store =>
            dsimp only
            cases mode.refusal? cache s with
            | some e => exact calm_throw (e := .symbol e) (h.errors nofun nofun) _
            | none =>
                refine AgreeFrom.bind ⟨rfl, ?_⟩ fun _ k' _ _ => calm_pure _ k'
                exact hput k store opened.2 (by rw [hopened, ← hstore])

/-- Definition calls are allowed, but for adding rules. -/
theorem defining (h : S.Lenient) : C.Defining where
  share t := h.calm_modifyGet fun k => k.minor_share t
  refuses e := h.errors (e := .pattern e) nofun nofun
  setLocal k c s value := h.minor (k.minor_setLocal c s value)
  unsetLocal k c s := h.minor (k.minor_unsetLocal c s)
  setValue s value := h.calm_change fun k k' => Kernel.minor_setValue
  removeRule s cache attrs lhs := by
    refine h.calm_changeRules (fun k opened hopen => h.minor (Kernel.minor_openRules hopen))
      fun k store k' hopen => h.minor ?_
    refine k'.minor_putRules (Kernel.not_gone_of_openRules hopen) cache (fun hk => ?_)
      fun hk hcache => ?_
    · exact ((Kernel.stays_openRules hopen).2 store cache rfl hk).remove _ _
    · subst hcache
      exact RuleList.isEmpty_remove (hk.isEmpty_of_opened hopen) _ _

theorem calm_pause (h : S.Lenient) (c : ContextId) (nanos : Nat) : C.Calm (pause c nanos) := by
  refine calm_bind calm_get fun k => ?_
  refine calm_bind (h.calm_modify fun k' => ?_) fun _ => (h.hosts c).calm_checkAbort
  split
  · exact .refl k'
  · exact k'.minor_elapse _

end Contract.Scope.Lenient

namespace Evaluator

open Contract

variable {C : Contract} {S : C.Scope} {r r' : Evaluator}

/-! ## evaluating arguments -/

section Lenient

variable (h : AgreesIn S r r') (hS : S.Lenient) (c : ContextId)

include h hS

theorem AgreesIn.attempt (t : Term) : (S.agreeing c).Alike (r.attempt c t) (r'.attempt c t) := by
  refine fun k hk => hS.outcome (h.evaluate c t k hk) fun result k' hthrow => ?_
  cases result with
  | ok value => exact calm_pure _ k'
  | error e =>
      cases e with
      | outOfFuel => exact hthrow _ rfl k'
      | _ => exact calm_pure _ k'

theorem AgreesIn.evaluateChild (t : Term) :
    (S.agreeing c).Alike (r.evaluateChild c t) (r'.evaluateChild c t) := by
  intro k hk
  obtain ⟨hok, hfrom⟩ := hS.child hk
  have hspawn : C.AgreeFrom k (spawnChild c) (spawnChild c) := ⟨rfl, hok⟩
  refine hspawn.bind fun child k' hrun _ => ?_
  cases hrun
  exact h.evaluate _ t _ hfrom

theorem AgreesIn.evaluateAll (ts : List Term) :
    (S.agreeing c).Alike (r.evaluateAll c ts) (r'.evaluateAll c ts) :=
  Congruence.alike_mapM (h.evaluateChild hS c) ts

theorem AgreesIn.timeConstrained (nanos : Nat) (t : Term) :
    (S.agreeing c).Alike (timeConstrained c nanos (r.evaluate c t))
      (timeConstrained c nanos (r'.evaluate c t)) := by
  intro k hk
  obtain ⟨heq, hleaves⟩ := h.evaluate c t _ (hS.constrains hk nanos)
  refine ⟨?_, ?_⟩
  · rw [EvalM.run_timeConstrained, EvalM.run_timeConstrained, heq]
  · rw [EvalM.run_timeConstrained]
    have hlifted := hS.lifts hleaves
    generalize (r.evaluate c t).run (k.constrain c nanos) = ended at hlifted
    obtain ⟨e | value, k'⟩ := ended
    · cases e with
      | aborted =>
          dsimp only [EvalM.inTime]
          split
          · exact hS.ok_of_fails hlifted
          · exact hlifted
      | _ => exact hlifted
    · exact hlifted

/-! ## approximation and display -/

theorem AgreesIn.approximateWith (s : Symbol) (t : Term) :
    (S.agreeing c).Alike (r.approximateWith c s t) (r'.approximateWith c s t) := by
  refine (S.agreeing c).alike_bind (h.findRule? (hS.hosts c) s .approx t) fun result => ?_
  cases result with
  | some result => exact (S.agreeing c).alike_pure _
  | none =>
      refine Calm.alike (calm_bind calm_get fun k => ?_)
      split
      · rename_i code _
        cases code with
        | function f => exact calm_pure _
        | note => exact calm_bind ((hS.hosts c).calm_message _ (by decide) _) fun _ => calm_pure _
        | throwTerm => exact (hS.hosts c).calm_raise t
      · exact calm_pure none

theorem AgreesIn.approximateAtom (t : Term) :
    (S.agreeing c).Alike (r.approximateAtom c t) (r'.approximateAtom c t) := by
  refine (S.agreeing c).alike_bind (hS.hosts c).calm_checkAbort.alike fun _ => ?_
  cases t with
  | symbol s =>
      exact (S.agreeing c).alike_bind (h.approximateWith hS c s _) fun _ =>
        (S.agreeing c).alike_pure _
  | _ => exact (S.agreeing c).alike_pure _

theorem AgreesIn.approximateCall (t : Term) :
    (S.agreeing c).Alike (r.approximateCall c t) (r'.approximateCall c t) := by
  refine (S.agreeing c).alike_bind (h.evaluate c t) fun value => ?_
  cases value with
  | node i f args =>
      dsimp only
      cases (Term.node i f args).topmost? with
      | none => exact (S.agreeing c).alike_pure _
      | some s =>
          refine (S.agreeing c).alike_bind (h.approximateWith hS c s _) fun result => ?_
          cases result with
          | some result => exact h.evaluate c result
          | none => exact (S.agreeing c).alike_pure _
  | _ => exact h.approximateAtom hS c _

end Lenient

mutual

theorem AgreesIn.approximateValue (h : AgreesIn S r r') (hS : S.Lenient) (c : ContextId) :
    ∀ t : Term, (S.agreeing c).Alike (r.approximateValue c t) (r'.approximateValue c t)
  | .node _ head args => by
      rw [Evaluator.approximateValue, Evaluator.approximateValue]
      refine (S.agreeing c).alike_bind (hS.hosts c).calm_checkAbort.alike fun _ =>
        (S.agreeing c).alike_bind calm_get.alike fun k => ?_
      exact (S.agreeing c).alike_bind (h.approximateArgs hS c _ 1 args) fun args =>
        h.approximateCall hS c _
  | .magic _ | .int _ | .float _ | .text _ | .symbol _ | .host _ => by
      rw [Evaluator.approximateValue, Evaluator.approximateValue]
      · exact h.approximateAtom hS c _
      · exact nofun
      · exact nofun

theorem AgreesIn.approximateArgs (h : AgreesIn S r r') (hS : S.Lenient) (c : ContextId)
    (attrs : Attributes) : ∀ (i : Nat) (ts : List Term),
    (S.agreeing c).Alike (r.approximateArgs c attrs i ts) (r'.approximateArgs c attrs i ts)
  | _, [] => by
      rw [Evaluator.approximateArgs, Evaluator.approximateArgs]
      exact (S.agreeing c).alike_pure []
  | i, t :: ts => by
      rw [Evaluator.approximateArgs, Evaluator.approximateArgs]
      have hrest := fun value : Term => (S.agreeing c).alike_bind
        (h.approximateArgs hS c attrs (i + 1) ts) fun values =>
          (S.agreeing c).alike_pure (value :: values)
      cases attrs.holds i with
      | true => exact hrest t
      | false => exact (S.agreeing c).alike_bind (h.approximateValue hS c t) hrest

end

theorem AgreesIn.approximate (h : AgreesIn S r r') (hS : S.Lenient) (c : ContextId) (t : Term) :
    (S.agreeing c).Alike (r.approximate c t) (r'.approximate c t) :=
  (S.agreeing c).alike_bind (h.evaluate c t) (h.approximateValue hS c)

/-! ## native code -/

/-- Native code does the same with evaluators that agree if the definitions it makes are allowed. -/
theorem AgreesIn.run (h : AgreesIn S r r') (hS : S.Lenient) (c : ContextId) {code : Native}
    (hcode : ∀ kind, code = .assign kind → ∀ lhs rhs, C.Calm (define c lhs rhs kind))
    (call : Term) :
    (S.agreeing c).Alike (r.run c code call) (r'.run c code call) := by
  have hosts := hS.hosts c
  unfold Evaluator.run
  generalize call.args = args
  split
  · exact (S.agreeing c).alike_pure _
  · exact (hosts.calm_raise _).alike
  · exact Congruence.alike_map some (h.capture hosts _)
  · exact Congruence.alike_map some (h.gather hosts _ _)
  · exact Congruence.alike_map some (h.gather hosts _ _)
  · exact (S.agreeing c).alike_bind (h.emit hosts _ _) fun _ => (S.agreeing c).alike_pure _
  · exact (S.agreeing c).alike_bind (h.emit hosts _ _) fun _ => (S.agreeing c).alike_pure _
  · exact (S.agreeing c).alike_pure _
  · exact (S.agreeing c).alike_pure _
  · exact (hosts.calm_message _ (by decide) _).returning _
  · exact (calm_bind (hosts.calm_share _) fun _ => hosts.calm_raise _).alike
  · exact (calm_throw hosts.aborted).alike
  · exact (hS.calm_modify fun k => k.minor_requestAbort).returning _
  · exact Congruence.alike_map some (h.attempt hS c _)
  · exact (hS.calm_modifyGet fun k => k.minor_catchException c).returning _
  · exact calm_get.returning _
  · exact (S.agreeing c).alike_bind
      ((S.agreeing c).alike_bind (h.evaluate c _) fun value => (hcode _ rfl _ value).alike)
      fun _ => (S.agreeing c).alike_pure _
  · exact (hcode _ rfl _ _).returning _
  · exact (hS.defining.calm_unassign c _).returning _
  · exact (hS.calm_change fun k k' => Kernel.minor_setAttributes).returning _
  · exact (hS.calm_modify fun k => k.minor_setLocal c _ _).returning _
  · exact (hS.calm_modifyGet fun k => k.minor_unsetLocal c _).returning _
  · exact (hS.calm_modifyGet fun k => k.minor_remove _).returning _
  · refine (S.agreeing c).alike_bind calm_get.alike fun k => ?_
    split
    · exact Congruence.alike_map some (h.replace c _ _ _)
    · exact (S.agreeing c).alike_pure none
  · exact (S.agreeing c).alike_bind (h.isMatch hosts _ _) fun _ => (S.agreeing c).alike_pure _
  · exact (S.agreeing c).alike_bind (h.evaluateAll hS c _) fun _ => (S.agreeing c).alike_pure _
  · exact Congruence.alike_map some (h.evaluateChild hS c _)
  · exact Congruence.alike_map some (h.evaluateChild hS c _)
  · exact (S.agreeing c).alike_bind (h.timeConstrained hS c _ _) fun _ =>
      (S.agreeing c).alike_pure _
  · exact (hS.calm_pause c _).returning _
  · exact (hS.calm_modify fun k => k.minor_gatherBegin c _).returning _
  · exact (hS.calm_modifyGet fun k => k.minor_gatherEnd c).returning _
  · exact (hS.calm_modify fun k => (k.minor_gatherEnd c).trans
      (Kernel.minor_gatherBegin _ c _)).returning _
  · exact Congruence.alike_map some (h.approximate hS c _)
  · exact Congruence.alike_map some (h.format hosts _)
  · exact (S.agreeing c).alike_pure none

end Evaluator

end Termwise
