import Termwise.Eval.Native
import Termwise.Proofs.Kernel.Plain
import Termwise.Proofs.Pattern.Congruence

/-!
# Termwise.Proofs.Eval.Callees

Lookups, searches and replacements in any monad.  Whatever they do to a kernel they do
through five actions: they read it, have nodes named, look for an abort, evaluate and
rewrite (`Callees`).  Those of an evaluator are the instance for its own five
(`Evaluator.callees`), so what relates two instances relates evaluators among each other,
or an evaluator and a copy of it that keeps a record.
-/

namespace Termwise

/-- What lookups, searches and replacements call, as actions of some monad. -/
structure Callees (m : Type → Type) where
  /-- Read the kernel. -/
  kernel : m Kernel
  /-- Name the nodes of a term. -/
  share : Term → m Term
  /-- Look for an abort. -/
  poll : m Unit
  /-- Evaluate a term. -/
  evaluate : Term → m Term
  /-- Rewrite a subject with a left-hand and a right-hand side. -/
  rewrite : Term → Term → Term → m (Option Term)

namespace Callees

section

variable {m : Type → Type} [Monad m] (e : Callees m)

/-! ## lookups -/

/-- Rewrite a subject with the first rule of a list that applies. -/
def find? (list : RuleList) (subject : Term) : m (Option Term) := do
  let k ← e.kernel
  (list.ready k.attributes k.structureEpoch subject).find?
    (fun rule => rule.applyWith e.rewrite subject) subject

/-- Rewrite a subject with the rules that a symbol has for a use. -/
def findRule? (s : Symbol) (cache : RuleCache) (subject : Term) : m (Option Term) := do
  match (← e.kernel).rules? s cache with
  | some list => e.find? list subject
  | none => return none

/-- The default for a slot. -/
def default? (slot : Slot) : m (Option Term) := do
  match slot.head.topmost? with
  | none => return none
  | some s =>
    match (← e.kernel).rules? s .default with
    | none => return none
    | some list => slot.keys.findSomeM? fun key => do e.find? list (← e.share key)

/-- Rewrite a subject with the first of several rules that applies. -/
def firstOf (rules : List Rule) (subject : Term) : m (Option Term) :=
  rules.findSomeM? fun rule => rule.applyWith e.rewrite subject

/-- Apply rules to the whole of a term, or to all its parts. -/
def replace (everywhere : Bool) (rules : List Rule) (t : Term) : m Term :=
  let first? (subject : Term) := rules.findSomeM? fun rule => rule.applyWith e.rewrite subject
  if everywhere then t.replaceAllM first? else t.replaceM first?

/-! ## searches -/

/-- What a search gets from outside. -/
def surroundings : Surroundings (StateT SearchState m) where
  tick := do
    modify fun s => { s with steps := s.steps + 1 }
    let steps := (← get).steps
    let k : Kernel ← liftM e.kernel
    if steps % max 1 k.config.pollInterval = 0 then liftM e.poll
  attributes := do
    let k : Kernel ← liftM e.kernel
    return k.attributes
  evaluate t := liftM (e.evaluate t)
  share t := liftM (e.share t)
  enter slot := modify fun s => { s with slot := some slot }
  default? := do
    match (← get).slot with
    | some slot => liftM (e.default? slot)
    | none => return none

/-- The bindings of the first match of a subject. -/
def match? (subject pattern : Term) : m (Option Bindings) :=
  ((Pattern.ofTerm pattern).match? e.surroundings subject).run' {}

/-- Whether a subject matches a pattern. -/
def isMatch (subject pattern : Term) : m Bool := do
  return (← e.match? subject pattern).isSome

/-- Name the nodes of a result. -/
def shareResult : Option Term → m (Option Term)
  | some result => do return some (← e.share result)
  | none => return none

/-- One rewriting of a subject. -/
def rewriteWith (lhs rhs subject : Term) : m (Option Term) := do
  e.shareResult (← (Rule.rewrite e.surroundings lhs rhs subject).run' {})

end

end Callees

/-- What the lookups, searches and replacements of an evaluator call in a context. -/
def Evaluator.callees (r : Evaluator) (c : ContextId) : Callees EvalM where
  kernel := get
  share := Termwise.share
  poll := checkAbort c
  evaluate := r.evaluate c
  rewrite := r.rewrite c

namespace Evaluator

variable (r : Evaluator) (c : ContextId)

theorem surroundings_eq : r.surroundings c = (r.callees c).surroundings := rfl

theorem match?_eq : r.match? c = (r.callees c).match? := rfl

theorem rewriteWith_eq : r.rewriteWith c = (r.callees c).rewriteWith := rfl

end Evaluator

/-! ## callees that are alike -/

/-- Callees are alike, but for evaluation and rewriting; what is done with a kernel that was read
may depend on its being such. -/
structure Callees.Alike {m n : Type → Type} [Monad m] [Monad n] (e : Callees m) (e' : Callees n)
    (R : Congruence m n) (seen : Kernel → Prop) : Prop where
  kernel : ∀ {α : Type} {f : Kernel → m α} {g : Kernel → n α},
    (∀ k, seen k → R.Alike (f k) (g k)) → R.Alike (e.kernel >>= f) (e'.kernel >>= g)
  share : ∀ t, R.Alike (e.share t) (e'.share t)
  poll : R.Alike e.poll e'.poll

namespace Callees

variable {m n : Type → Type} [Monad m] [Monad n] {e : Callees m} {e' : Callees n}
  {R : Congruence m n} {seen : Kernel → Prop} {q : Term → Term → Prop}

/-- Rewriting is alike with sides such that. -/
def RewritesAlike (e : Callees m) (e' : Callees n) (R : Congruence m n) (q : Term → Term → Prop) :
    Prop :=
  ∀ lhs rhs t, q lhs rhs → R.Alike (e.rewrite lhs rhs t) (e'.rewrite lhs rhs t)

/-- The rules that symbols have for a use are such in all kernels that may be seen. -/
def Rules (seen : Kernel → Prop) (cache : RuleCache) (q : Term → Term → Prop) : Prop :=
  ∀ k, seen k → ∀ s list, k.rules? s cache = some list → list.All q

theorem rules_true (seen : Kernel → Prop) (cache : RuleCache) :
    Rules seen cache fun _ _ => True := fun _ _ _ list _ => list.all_true

theorem alike_find? (he : e.Alike e' R seen) (hrewrite : e.RewritesAlike e' R q) {list : RuleList}
    (hlist : list.All q) (subject : Term) :
    R.Alike (e.find? list subject) (e'.find? list subject) :=
  he.kernel fun k _ => RuleList.alike_find? fun _ hrule => by
    have hready := hlist.ready k.attributes k.structureEpoch subject
    exact Rule.alike_applyWith (hrewrite _ _ _ (hready.candidates hrule))

theorem alike_findRule? {cache : RuleCache} (he : e.Alike e' R seen)
    (hrewrite : e.RewritesAlike e' R q) (hq : Rules seen cache q) (s : Symbol) (subject : Term) :
    R.Alike (e.findRule? s cache subject) (e'.findRule? s cache subject) := by
  refine he.kernel fun k hk => ?_
  cases hrules : k.rules? s cache with
  | some list => exact alike_find? he hrewrite (hq k hk s list hrules) subject
  | none => exact R.alike_pure none

theorem alike_default? (he : e.Alike e' R seen) (hrewrite : e.RewritesAlike e' R q)
    (hq : Rules seen .default q) (slot : Slot) : R.Alike (e.default? slot) (e'.default? slot) := by
  unfold default?
  cases slot.head.topmost? with
  | none => exact R.alike_pure none
  | some s =>
      refine he.kernel fun k hk => ?_
      cases hrules : k.rules? s .default with
      | none => exact R.alike_pure none
      | some list =>
          refine Congruence.alike_findSomeM? fun key _ => R.alike_bind (he.share key) fun key => ?_
          exact alike_find? he hrewrite (hq k hk s list hrules) key

theorem alike_replace (hrewrite : e.RewritesAlike e' R fun _ _ => True) (everywhere : Bool)
    (rules : List Rule) (t : Term) :
    R.Alike (e.replace everywhere rules t) (e'.replace everywhere rules t) := by
  have hfirst : ∀ subject, R.Alike
      (rules.findSomeM? fun rule => rule.applyWith e.rewrite subject)
      (rules.findSomeM? fun rule => rule.applyWith e'.rewrite subject) := fun subject =>
    Congruence.alike_findSomeM? fun rule _ => Rule.alike_applyWith (hrewrite _ _ _ trivial)
  cases everywhere with
  | true => exact Term.alike_replaceAllM hfirst t
  | false => exact Term.alike_replaceM hfirst t

/-! ## searches -/

variable [LawfulMonad m] [LawfulMonad n] {tests defaults : Prop}

/-- Searches get the same from outside. -/
theorem alike_surroundings (he : e.Alike e' R seen)
    (htests : tests → ∀ t, R.Alike (e.evaluate t) (e'.evaluate t))
    (hdefaults : defaults → ∀ slot, R.Alike (e.default? slot) (e'.default? slot)) :
    e.surroundings.Alike e'.surroundings (R.state SearchState) tests defaults := by
  have hkernel : R.Alike e.kernel e'.kernel := by
    have hread := he.kernel (f := pure) (g := pure) fun k _ => R.alike_pure k
    rwa [bind_pure, bind_pure] at hread
  have hstate := Congruence.alike_lift (σ := SearchState) hkernel
  refine ⟨?_, ?_, fun t => Congruence.alike_lift (he.share t),
    fun slot => Congruence.alike_modify _, fun ht t => Congruence.alike_lift (htests ht t),
    fun hd => ?_⟩
  · refine (R.state SearchState).alike_bind (Congruence.alike_modify _) fun _ =>
      (R.state SearchState).alike_bind Congruence.alike_get fun s => ?_
    refine (R.state SearchState).alike_bind hstate fun k => ?_
    split
    · exact Congruence.alike_lift he.poll
    · exact (R.state SearchState).alike_pure _
  · exact (R.state SearchState).alike_bind hstate fun k => (R.state SearchState).alike_pure _
  · refine (R.state SearchState).alike_bind Congruence.alike_get fun s => ?_
    cases s.slot with
    | some slot => exact Congruence.alike_lift (hdefaults hd slot)
    | none => exact (R.state SearchState).alike_pure none

theorem alike_match? (he : e.surroundings.Alike e'.surroundings (R.state SearchState) True True)
    (subject pattern : Term) : R.Alike (e.match? subject pattern) (e'.match? subject pattern) :=
  Congruence.alike_run' (Pattern.alike_search he (Pattern.ofTerm pattern)
    (Pattern.every_asks_ofTerm pattern) fun b => (R.state SearchState).alike_pure (some b)) {}

/-- One rewriting is alike if what its sides ask for is. -/
theorem alike_rewriteWith
    (he : e.surroundings.Alike e'.surroundings (R.state SearchState) tests defaults)
    (hshare : ∀ t, R.Alike (e.share t) (e'.share t)) {lhs rhs : Term}
    (hlhs : (Pattern.ofTerm lhs).Every (Pattern.Asks tests defaults))
    (hrhs : Rule.isConditional rhs = true → tests) (subject : Term) :
    R.Alike (e.rewriteWith lhs rhs subject) (e'.rewriteWith lhs rhs subject) := by
  refine R.alike_bind
    (Congruence.alike_run' (Rule.alike_rewrite he hlhs hrhs subject) {}) fun result => ?_
  cases result with
  | some result => exact R.alike_bind (hshare result) fun t => R.alike_pure (some t)
  | none => exact R.alike_pure none

end Callees

end Termwise
