import Termwise.Proofs.Eval.Native

/-!
# Termwise.Proofs.Eval.Enduring

Relations between kernels and later ones that last through everything (`Enduring`): each
single change keeps to them, and then so does whatever is made of changes, however it
ends, with native code of any kind:

* `Enduring.evaluateWith`, `Enduring.run` — evaluations and native code;
* `Enduring.perform` — definition calls;
* `Enduring.leaves` — whatever agrees with itself, as searches, replacing and displaying.
-/

namespace Termwise

open Contract

/-- Where evaluation may start anywhere, it keeps to a relation of kernels to later ones if
definitions do, and if calls may be entered and left and the recursion limit reported. -/
theorem Contract.Scope.Lenient.agreesIn {R : Kernel → Kernel → Prop} {refl : ∀ k, R k k}
    {trans : ∀ {k k' k'' : Kernel}, R k k' → R k' k'' → R k k''} {S : (always R refl trans).Scope}
    (hS : S.Lenient) (hfrom : ∀ c k, S.From c k)
    (hdefine : ∀ c lhs rhs kind, (always R refl trans).Calm (define c lhs rhs kind))
    (henter : ∀ (k : Kernel) c, R k (k.enter c)) (hleave : ∀ (k : Kernel) c, R k (k.leave c))
    (hlimit : ∀ (k : Kernel) c,
      (∀ args, R k (k.reportLimit c args)) ∧ R k (k.setLimitReported c false)) (fuel : Nat) :
    (Evaluator.ofFuel fuel).AgreesIn S (.ofFuel fuel) := by
  have hreset : ∀ c, S.Resets c := fun c _ k' _ _ _ hleaves => hS.leaves hleaves (hlimit k' c).2
  refine Evaluator.agreesIn_ofFuel refl (fun c => hS.hosts c) hreset (fun {r} hr c => ?_) fuel
  have hcode : Evaluator.CodeAlike S r r c := fun k hk s usage code _ call =>
    hr.run hS c (fun kind _ lhs rhs => hdefine c lhs rhs kind) call k hk
  refine hr.evaluateCall (hS.hosts c) hcode (fun _ _ _ => hfrom _ _) (fun _ _ _ => refl _)
    (fun k _ _ => (hlimit (k.enter c) c).1) fun k k' result _ hleaves => always_leaves_iff.mpr ?_
  have hinside : R (k.enter c) k' := always_leaves_iff.mp hleaves
  exact trans (henter k c) (trans hinside (hleave k' c))

/-- A relation of kernels to later ones that no single change breaks. -/
structure Enduring (R : Kernel → Kernel → Prop) : Prop where
  refl : ∀ k, R k k
  trans : ∀ {k k' k'' : Kernel}, R k k' → R k' k'' → R k k''
  /-- Changes that are no evaluation. -/
  minor : ∀ {k k' : Kernel}, k.Minor k' → R k k'
  /-- A node is stamped with a generation that was read before. -/
  stamp : ∀ {k₀ k : Kernel} (c : ContextId) (t : Term), R k₀ k →
    R k (k.stamp c t (k₀.stampGeneration? c))
  spawnChild : ∀ (k : Kernel) (c : ContextId), R k (k.spawnChild c).2
  enter : ∀ (k : Kernel) (c : ContextId), R k (k.enter c)
  leave : ∀ (k : Kernel) (c : ContextId), R k (k.leave c)
  /-- Opened rules are changed. -/
  putRules : ∀ {k k' : Kernel} {s : Symbol} {mode : AccessMode} {store : RuleStore}
    (cache : RuleCache) (list : RuleList), k.openRules s mode = .ok (some store, k') →
      R k' (k'.putRules s cache list).bump
  /-- The recursion limit is reported, or may be reported anew. -/
  limit : ∀ (k : Kernel) (c : ContextId),
    (∀ args, R k (k.reportLimit c args)) ∧ R k (k.setLimitReported c false)
  /-- A time limit is set and lifted again. -/
  lifts : ∀ {k k' : Kernel} {c : ContextId} {nanos : Nat}, R (k.constrain c nanos) k' →
    R k (k'.setDeadline c (k.context c).deadline)

namespace Enduring

variable {R : Kernel → Kernel → Prop} (h : Enduring R)

/-- Everything keeps to the relation, however it ends. -/
def contract (h : Enduring R) : Contract := .always R h.refl h.trans

/-- Evaluation starts anywhere. -/
def anywhere (h : Enduring R) : h.contract.Scope where
  From _ _ := True
  keeps _ _ := trivial

theorem lenient : h.anywhere.Lenient where
  minor := h.minor
  stamp c _ _ t hk := h.stamp c t hk
  ok_of_fails hfails := hfails
  again _ := h.refl
  errors _ _ := h.refl
  child {c k} _ := ⟨h.spawnChild k c, trivial⟩
  constrains _ _ := trivial
  lifts hleaves := always_leaves_iff.mpr (h.lifts (always_leaves_iff.mp hleaves))

theorem calm_changeRules {α : Type} (s : Symbol) (mode : AccessMode) (cache : RuleCache)
    (f : RuleList → RuleList × α) : h.contract.Calm (changeRules s mode cache f) := fun _ =>
  agreeFrom_changeRules f
    (fun _ _ hopen => h.minor (Kernel.minor_openRules hopen))
    fun _ _ list hopen _ => h.putRules cache list hopen

theorem calm_define (c : ContextId) (lhs rhs : Term) (kind : RuleKind) :
    h.contract.Calm (define c lhs rhs kind) :=
  h.lenient.defining.calm_define c (fun s cache _ _ => h.calm_changeRules s .write cache _)
    lhs rhs kind

/-- With any amount of fuel, evaluation keeps to the relation. -/
theorem agreesIn (fuel : Nat) : (Evaluator.ofFuel fuel).AgreesIn h.anywhere (.ofFuel fuel) :=
  h.lenient.agreesIn (fun _ _ => trivial) h.calm_define h.enter h.leave h.limit fuel

variable (k : Kernel) (fuel : Nat) (c : ContextId)

include h

/-- What agrees with itself from anywhere on keeps to the relation. -/
theorem leaves {α : Type} {x : EvalM α} (hx : (h.anywhere.agreeing c).Alike x x) :
    R k (x.run k).2 := always_leaves_iff.mp (hx k trivial).leaves

theorem evaluateWith (t : Term) : R k ((Termwise.evaluateWith fuel c t).run k).2 :=
  h.leaves k c ((h.agreesIn fuel).evaluate c t)

theorem run (code : Native) (call : Term) :
    R k (((Evaluator.ofFuel fuel).run c code call).run k).2 :=
  h.leaves k c ((h.agreesIn fuel).run h.lenient c
    (fun kind _ lhs rhs => h.calm_define c lhs rhs kind) call)

theorem changeRules {α : Type} (s : Symbol) (mode : AccessMode) (cache : RuleCache)
    (f : RuleList → RuleList × α) : R k ((Termwise.changeRules s mode cache f).run k).2 :=
  agreeFrom_always_iff.mp (h.calm_changeRules s mode cache f k)

/-- Definition calls keep to the relation. -/
theorem perform (call : DefinitionCall) : R k ((call.perform (.ofFuel fuel) c).run k).2 := by
  have changes := fun s mode cache f => h.calm_changeRules (α := Unit) s mode cache f
  refine agreeFrom_always_iff.mp (h.lenient.defining.agreeFrom_perform c
    (fun s mode cache _ => changes s mode cache _) call (fun t => ?_) fun s attrs _ => ?_)
  · exact agreeFrom_always_iff.mpr (h.evaluateWith k fuel c t)
  · exact agreeFrom_change fun k' hset => h.minor (Kernel.minor_setAttributes hset)

/-! ## searches -/

/-- Rewriting with the rules of a list. -/
theorem find? (list : RuleList) (subject : Term) :
    R k (((Evaluator.ofFuel fuel).find? c list subject).run k).2 := by
  have hagree := h.agreesIn fuel
  exact h.leaves k c (Callees.alike_find? (Evaluator.alike_callees (h.lenient.hosts c) _ _)
    (hagree.rewritesAlike c) list.all_true subject)

theorem match? (subject pattern : Term) :
    R k (((Evaluator.ofFuel fuel).match? c subject pattern).run k).2 := by
  have hagree := h.agreesIn fuel
  exact h.leaves k c
    (Callees.alike_match? (hagree.surroundings (h.lenient.hosts c)) subject pattern)

theorem rewrite (lhs rhs subject : Term) :
    R k (((Evaluator.ofFuel fuel).rewrite c lhs rhs subject).run k).2 :=
  h.leaves k c ((h.agreesIn fuel).rewrite c lhs rhs subject)

theorem replace (everywhere : Bool) (rules : List Rule) (t : Term) :
    R k (((Evaluator.ofFuel fuel).replace c everywhere rules t).run k).2 :=
  h.leaves k c ((h.agreesIn fuel).replace c everywhere rules t)

theorem approximate (t : Term) : R k (((Evaluator.ofFuel fuel).approximate c t).run k).2 :=
  h.leaves k c ((h.agreesIn fuel).approximate h.lenient c t)

theorem format (t : Term) : R k (((Evaluator.ofFuel fuel).format c t).run k).2 :=
  h.leaves k c ((h.agreesIn fuel).format (h.lenient.hosts c) t)

end Enduring

end Termwise
