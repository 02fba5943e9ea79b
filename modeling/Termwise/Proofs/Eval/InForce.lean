import Termwise.Proofs.Eval.Preserved
import Termwise.Proofs.Eval.Terminates

/-!
# Termwise.Proofs.Eval.InForce

Which definition of a symbol is in force.  A symbol has two places for a definition, a
value and a rule for itself, and a rewriting looks at the value first:

```text
x := rhs    (at once)         fills the value
x :> rhs    (with a delay)    fills the rule
unassign    (removal)         empties both
```

So after any history of these (`Redefined`) the latest definition is in force, except
that a delayed one gives way to an immediate one that still stands (`inForce`,
`Redefined.evaluateSymbol_inForce`).  Each step takes the two places to what the history
says (`Kernel.Means`).
-/

namespace Termwise

/-! ## histories of a symbol -/

/-- What can happen to the definition of a symbol. -/
inductive Redefinition where
  /-- It is defined at once to have a value. -/
  | immediate (value : Term)
  /-- It is defined with a delay to have a right-hand side. -/
  | delayed (rhs : Term)
  /-- Its definitions are removed. -/
  | removal

/-- The two places for the definition of a symbol. -/
structure Meaning where
  /-- What it was defined to be at once. -/
  value : Option Term := none
  /-- What it was defined to be with a delay. -/
  own : Option Term := none

/-- The immediate definition that stands after a history, the latest event first. -/
def standing? (start : Meaning) : List Redefinition → Option Term
  | [] => start.value
  | .immediate value :: _ => some value
  | .delayed _ :: earlier => standing? start earlier
  | .removal :: _ => none

/-- The definition in force after a history, the latest event first: the latest one, but a delayed
one gives way to an immediate one that stands. -/
def inForce (start : Meaning) : List Redefinition → Option Term
  | [] => start.value.or start.own
  | .immediate value :: _ => some value
  | .delayed rhs :: earlier => (standing? start earlier).or (some rhs)
  | .removal :: _ => none

/-- What happens to a symbol from a kernel on, by definitions with unconditional right-hand sides and
removals that are not refused, and by anything that does not concern it; the latest event comes
first. -/
inductive Redefined (s : Symbol) (k₀ : Kernel) : List Redefinition → Kernel → Prop
  /-- At first nothing has happened. -/
  | start : Redefined s k₀ [] k₀
  /-- Something else happens. -/
  | aside {events : List Redefinition} {k k' : Kernel} : Redefined s k₀ events k →
      k'.record s = k.record s → k.symbols.size ≤ k'.symbols.size → Redefined s k₀ events k'
  /-- The symbol is defined to be what a right-hand side evaluates to.  What the evaluation did
  counts as well. -/
  | assign {events : List Redefinition} {k k₁ k' : Kernel} {value : Term} (r : Evaluator)
      (c : ContextId) (rhs : Term) : (r.evaluate c rhs).run k = (.ok value, k₁) →
      Redefined s k₀ events k₁ → (r.assign c (.symbol s) rhs).run k = (.ok (), k') →
      Redefined s k₀ (.immediate value :: events) k'
  /-- The symbol is defined to be rewritten to a right-hand side. -/
  | assignDelayed {events : List Redefinition} {k k' : Kernel} (c : ContextId) (rhs : Term) :
      Redefined s k₀ events k → Rule.isConditional rhs = false →
      (Termwise.assignDelayed c (.symbol s) rhs).run k = (.ok (), k') →
      Redefined s k₀ (.delayed rhs :: events) k'
  /-- The definitions of the symbol are removed. -/
  | unassign {events : List Redefinition} {k k' : Kernel} {found : Bool} (c : ContextId) :
      Redefined s k₀ events k → (Termwise.unassign c (.symbol s)).run k = (.ok found, k') →
      Redefined s k₀ (.removal :: events) k'

/-! ## the two places -/

namespace Meaning

/-- The places after one more event. -/
def redefine (m : Meaning) : Redefinition → Meaning
  | .immediate value => { m with value := some value }
  | .delayed rhs => { m with own := some rhs }
  | .removal => {}

/-- The places after a history, the latest event first. -/
def after (start : Meaning) (events : List Redefinition) : Meaning :=
  events.foldr (fun event m => m.redefine event) start

theorem value_after (start : Meaning) (events : List Redefinition) :
    (start.after events).value = standing? start events := by
  induction events with
  | nil => rfl
  | cons event earlier ih =>
      cases event with
      | delayed rhs => exact ih
      | _ => rfl

/-- The value comes first, and then the rule. -/
theorem inForce_eq (start : Meaning) (events : List Redefinition) :
    inForce start events = (start.after events).value.or (start.after events).own := by
  cases events with
  | nil => rfl
  | cons event earlier =>
      cases event with
      | delayed rhs =>
          change _ = (start.after earlier).value.or (some rhs)
          rw [value_after]
          rfl
      | _ => rfl

end Meaning

namespace Rule

theorem isConditional_strip (t : Term) : isConditional t.strip = isConditional t := by
  rcases t with _ | _ | _ | _ | _ | _ | ⟨id, f, xs⟩
  case node =>
    cases f <;> try rfl
    rcases xs with _ | ⟨x, _ | ⟨y, _ | ⟨z, zs⟩⟩⟩ <;> rfl
  all_goals rfl

theorem isConditional_share (t : Term) (next : Nat) :
    isConditional (t.share next).1 = isConditional t := by
  rw [← isConditional_strip, Term.strip_share, isConditional_strip]

end Rule

/-- Remove the rules of a symbol for itself, if it has some; the result tells whether there was
anything, with what was removed before. -/
def removeOwn (s : Symbol) (cleared : Bool) : EvalM Bool := do
  if ((← get).rules? s .own).isSome then
    let attrs := (← get).attributes
    let removed ← changeRules s .write .own fun list => list.remove attrs (.symbol s)
    return cleared || removed == some true
  else return cleared

namespace Kernel

/-- The rules for a symbol itself. -/
def ownRules (k : Kernel) (s : Symbol) : RuleList := ((k.record s).rules.getD {}).own

theorem rules?_own (k : Kernel) (s : Symbol) : k.rules? s .own =
    if (k.ownRules s).isEmpty then none else some (k.ownRules s) := by
  unfold rules? ownRules
  cases (k.record s).rules <;> rfl

/-- A symbol that may be changed has just these definitions, identities apart. -/
structure Means (k : Kernel) (s : Symbol) (m : Meaning) : Prop where
  known : s.id < k.symbols.size
  live : (k.record s).removed = false
  writable : (k.attributes s).has .isProtected = false
  common : (k.attributes s).has .threadLocal = false
  value : (k.value? s).map Term.strip = m.value.map Term.strip
  patterns : (k.ownRules s).patterns = []
  literals : (k.ownRules s).literals.map (fun r => (r.lhs.strip, r.rhs.strip)) =
    m.own.toList.map fun rhs => (.symbol s, rhs.strip)

variable {k k' : Kernel} {s : Symbol} {m : Meaning} {c : ContextId}

/-- Another value and other rules give a symbol another meaning. -/
theorem Means.change (h : k.Means s m) {m' : Meaning} {value : Option Term}
    {rules : Option RuleStore} (hsize : k.symbols.size ≤ k'.symbols.size)
    (hrecord : k'.record s = { k.record s with value := value, rules := rules })
    (hvalue : value.map Term.strip = m'.value.map Term.strip)
    (hpatterns : (rules.getD {}).own.patterns = [])
    (hliterals : (rules.getD {}).own.literals.map (fun r => (r.lhs.strip, r.rhs.strip)) =
      m'.own.toList.map fun rhs => (.symbol s, rhs.strip)) : k'.Means s m' where
  known := Nat.lt_of_lt_of_le h.known hsize
  live := by rw [hrecord]; exact h.live
  writable := by rw [attributes, hrecord]; exact h.writable
  common := by rw [attributes, hrecord]; exact h.common
  value := by rw [value?, hrecord]; exact hvalue
  patterns := by rw [ownRules, hrecord]; exact hpatterns
  literals := by rw [ownRules, hrecord]; exact hliterals

/-- A symbol keeps its meaning with its record. -/
theorem Means.of_record_eq (h : k.Means s m) (hrecord : k'.record s = k.record s)
    (hsize : k.symbols.size ≤ k'.symbols.size) : k'.Means s m :=
  h.change hsize hrecord h.value h.patterns h.literals

theorem Means.of_symbols_eq (h : k.Means s m) (hsymbols : k'.symbols = k.symbols) :
    k'.Means s m :=
  h.of_record_eq (by rw [record, record, hsymbols]) (Nat.le_of_eq (by rw [hsymbols]))

/-- The rule list of a symbol with at most one rule for itself. -/
theorem Means.literals_eq (h : k.Means s m) : (k.ownRules s).literals = [] ∧ m.own = none ∨
    ∃ r rhs, (k.ownRules s).literals = [r] ∧ m.own = some rhs ∧ r.lhs.strip = .symbol s ∧
      r.rhs.strip = rhs.strip := by
  have hliterals := h.literals
  cases hown : m.own with
  | none =>
      rw [hown] at hliterals
      exact .inl ⟨List.map_eq_nil_iff.mp hliterals, rfl⟩
  | some rhs =>
      rw [hown, Option.toList_some, List.map_singleton] at hliterals
      obtain ⟨r, hr, hpair⟩ := List.map_eq_singleton_iff.mp hliterals
      exact .inr ⟨r, rhs, hr, rfl, congrArg Prod.fst hpair, congrArg Prod.snd hpair⟩

/-! ## one step -/

/-- Changing the rules of a symbol for itself. -/
theorem run_changeRules_own (h : k.Means s m) {α : Type} (f : RuleList → RuleList × α) :
    ∃ k', (changeRules s .write .own f).run k = (.ok (some (f (k.ownRules s)).2), k') ∧
      k'.symbols.size = k.symbols.size ∧
      k'.record s = { k.record s with
        rules := some (((k.record s).rules.getD {}).set .own (f (k.ownRules s)).1) } := by
  have hmade : k.openRules s .write = .ok (openRules.made k s) := by
    have hwritable : (k.attributes s).has .isProtected = false := h.writable
    simp only [openRules, checkLive, h.live, hwritable]
    rfl
  have hrun := run_openRules s .write k
  cases hrules : (k.record s).rules with
  | some store =>
      rw [hmade, openRules.made, hrules] at hrun
      refine ⟨_, by rw [changeRules, EvalM.run_bind_ok hrun, ownRules, hrules]; rfl, ?_, ?_⟩
      · simp [putRules, updateRecord, bump]
      · refine (record_updateRecord_self k _ h.known).trans ?_
        rw [hrules, ownRules, hrules]
        rfl
  | none =>
      rw [hmade, openRules.made, hrules] at hrun
      refine ⟨_, by rw [changeRules, EvalM.run_bind_ok hrun, ownRules, hrules]; rfl, ?_, ?_⟩
      · simp [putRules, updateRecord, bump]
      · refine (record_updateRecord_self _ _ (by simpa [updateRecord] using h.known)).trans ?_
        rw [record_updateRecord_self k _ h.known, ownRules, hrules]
        rfl

/-- A rule for the symbol takes the place of the one there is. -/
theorem Means.literals_insert (h : k.Means s m) {r : Rule} (hr : r.literal = true)
    (hlhs : r.lhs = .symbol s) :
    ((k.ownRules s).insert r).literals = [r] ∧ ((k.ownRules s).insert r).patterns = [] := by
  simp only [RuleList.insert, RuleList.touch, if_pos hr]
  refine ⟨?_, h.patterns⟩
  rcases h.literals_eq with ⟨hnone, -⟩ | ⟨r₀, rhs, hone, -, hr₀, -⟩
  · rw [hnone]
    rfl
  · have hequal : (r₀.lhs == r.lhs) = true := by
      rw [hlhs]
      exact (Term.beq_iff_strip _ _).mpr hr₀
    rw [hone, RuleList.insertLiteral, if_pos hequal]

/-- Removing the rules for the symbol removes the one there is. -/
theorem Means.literals_remove (h : k.Means s m) (attrs : Symbol → Attributes) :
    ((k.ownRules s).remove attrs (.symbol s)).1.literals = [] ∧
      ((k.ownRules s).remove attrs (.symbol s)).1.patterns = [] := by
  obtain ⟨hliterals, hpatterns⟩ := RuleList.rules_remove (k.ownRules s) attrs (.symbol s)
  rw [hliterals, hpatterns, h.patterns]
  refine ⟨?_, rfl⟩
  rcases h.literals_eq with ⟨hnone, -⟩ | ⟨r₀, rhs, hone, -, hr₀, -⟩
  · rw [hnone]
    rfl
  · have hequal : (r₀.lhs == .symbol s) = true := (Term.beq_iff_strip _ _).mpr hr₀
    simp [hone, hequal]

/-- Filling or emptying the value. -/
theorem Means.setValue (h : k.Means s m) (value : Option Term) :
    ∃ k', (Termwise.change fun k => k.setValue s value).run k = (.ok (), k') ∧
      k'.Means s { m with value := value } := by
  have hset : k.setValue s value =
      .ok (k.updateRecord s fun r => { r with value := value }).bump := by
    have hwritable : (k.attributes s).has .isProtected = false := h.writable
    simp only [Kernel.setValue, checkLive, h.live, hwritable]
    rfl
  refine ⟨(k.updateRecord s fun r => { r with value := value }).bump, ?_, ?_⟩
  · rw [run_change, hset]
  · exact h.change (by simp [updateRecord, bump]) (record_updateRecord_self k _ h.known) rfl
      h.patterns h.literals

/-- A definition at once fills the value. -/
theorem Means.define_immediate (h : k.Means s m) (c : ContextId) (value : Term) :
    ∃ k', (define c (.symbol s) value .immediate).run k = (.ok (), k') ∧
      k'.Means s (m.redefine (.immediate value)) := by
  have hshared : (k.share value).2.Means s m := h.of_symbols_eq rfl
  obtain ⟨k', hrun, hmeans⟩ := hshared.setValue (some (k.share value).1)
  have hcommon : ((k.share value).2.attributes s).has .threadLocal = false := hshared.common
  refine ⟨k', ?_, ⟨hmeans.known, hmeans.live, hmeans.writable, hmeans.common, ?_, hmeans.patterns,
    hmeans.literals⟩⟩
  · have hself : (Term.symbol s).isSymbol s = true := by simp [Term.isSymbol]
    change (if RuleKind.immediate = .immediate ∧ (Term.symbol s).isSymbol s then _ else _ :
      EvalM Unit).run k = _
    rw [if_pos ⟨rfl, hself⟩]
    change (if ((k.share value).2.attributes s).has .threadLocal then _ else _ :
      EvalM Unit).run (k.share value).2 = _
    rw [hcommon]
    exact hrun
  · rw [hmeans.value]
    exact congrArg some (Term.strip_share value _)

/-- A definition with a delay fills the rule. -/
theorem Means.define_delayed (h : k.Means s m) (c : ContextId) {rhs : Term}
    (hrhs : Rule.isConditional rhs = false) :
    ∃ k', (assignDelayed c (.symbol s) rhs).run k = (.ok (), k') ∧
      k'.Means s (m.redefine (.delayed rhs)) := by
  let k₁ := (k.share (.symbol s)).2
  let shared := k₁.share rhs
  let r := Rule.make shared.2.attributes (.symbol s) shared.1 .delayed
  have hshared : shared.2.Means s m := h.of_symbols_eq rfl
  obtain ⟨k', hrun, hsize, hrecord⟩ :=
    run_changeRules_own hshared fun list => (list.insert r, ())
  have hliteral : r.literal = true := by
    have hconditional : Rule.isConditional shared.1 = false :=
      (Rule.isConditional_share rhs _).trans hrhs
    change (!Rule.isConditional shared.1 && true) = true
    rw [hconditional]
    rfl
  obtain ⟨hliterals, hpatterns⟩ := hshared.literals_insert hliteral rfl
  refine ⟨k', ?_, ?_⟩
  · change (changeRules s .write .own (fun list => (list.insert r, ())) >>= fun _ =>
      pure ()).run shared.2 = _
    rw [EvalM.run_bind_ok hrun]
    rfl
  · refine hshared.change (Nat.le_of_eq hsize.symm) hrecord hshared.value hpatterns ?_
    change ((shared.2.ownRules s).insert r).literals.map _ = [(Term.symbol s, rhs.strip)]
    rw [hliterals]
    exact congrArg (fun t => [(Term.symbol s, t)]) (Term.strip_share rhs k₁.stamps.size)

/-- The rules are removed where there are some. -/
theorem Means.removeOwn (h : k.Means s m) (hvalue : m.value = none) (cleared : Bool) :
    ∃ found k', (removeOwn s cleared).run k = (.ok found, k') ∧ k'.Means s {} := by
  have hnone : (k.value? s).map Term.strip = none := by rw [h.value, hvalue]; rfl
  by_cases hsome : (k.rules? s .own).isSome
  · obtain ⟨k', hrun, hsize, hrecord⟩ :=
      run_changeRules_own h fun list => list.remove k.attributes (.symbol s)
    obtain ⟨hliterals, hpatterns⟩ := h.literals_remove k.attributes
    let removed := ((k.ownRules s).remove k.attributes (.symbol s)).2
    refine ⟨cleared || some removed == some true, k', ?_,
      h.change (Nat.le_of_eq hsize.symm) hrecord hnone hpatterns ?_⟩
    · change (if (k.rules? s .own).isSome then _ else _ : EvalM Bool).run k = _
      rw [if_pos hsome]
      change (changeRules s .write .own (fun list => list.remove k.attributes (.symbol s)) >>=
        fun removed => pure (cleared || removed == some true)).run k = _
      rw [EvalM.run_bind_ok hrun]
      rfl
    · change ((k.ownRules s).remove k.attributes (.symbol s)).1.literals.map _ = []
      rw [hliterals]
      rfl
  · have hempty : (k.ownRules s).literals = [] ∧ (k.ownRules s).patterns = [] := by
      rw [rules?_own] at hsome
      simpa [RuleList.isEmpty] using hsome
    refine ⟨cleared, k, ?_, h.change (Nat.le_refl _) rfl hnone hempty.2 ?_⟩
    · change (if (k.rules? s .own).isSome then _ else _ : EvalM Bool).run k = _
      rw [if_neg hsome]
      rfl
    · change (k.ownRules s).literals.map _ = []
      rw [hempty.1]
      rfl

/-- A removal empties both. -/
theorem Means.unassign (h : k.Means s m) (c : ContextId) :
    ∃ found k', (Termwise.unassign c (.symbol s)).run k = (.ok found, k') ∧ k'.Means s {} := by
  have hstart : (Termwise.unassign c (.symbol s)).run k =
      (if (k.value? s).isSome then
        (Termwise.change fun k => k.setValue s none) >>= fun _ => Termwise.removeOwn s true
        else Termwise.removeOwn s false : EvalM Bool).run k := by
    have hself : (Term.symbol s).isSymbol s = true := by simp [Term.isSymbol]
    have hcommon : (k.attributes s).has .threadLocal = false := h.common
    change (if (Term.symbol s).isSymbol s then _ else _ : EvalM Bool).run k = _
    rw [if_pos hself]
    change (if (k.attributes s).has .threadLocal then _ else _ : EvalM Bool).run k = _
    rw [hcommon]
    change (if (k.value? s).isSome then _ else _ : EvalM Bool).run k = _
    split <;> rfl
  by_cases hvalue : (k.value? s).isSome
  · obtain ⟨k₁, hset, hmeans⟩ := h.setValue none
    rw [hstart, if_pos hvalue, EvalM.run_bind_ok hset]
    exact hmeans.removeOwn rfl true
  · have hnone : m.value = none := by
      have hvalue' := h.value
      rw [Option.not_isSome_iff_eq_none.mp hvalue] at hvalue'
      exact Option.map_eq_none_iff.mp hvalue'.symm
    rw [hstart, if_neg hvalue]
    exact h.removeOwn hnone false

/-- One rewriting step of a symbol: the value comes first, and then the rule. -/
theorem Means.run_evaluateSymbol (h : k.Means s m) (hlocal : k.localValue? c s = none)
    (r : Evaluator) : ∃ result, (r.evaluateSymbol c s).run k = (.ok result, k) ∧
      result.map Term.strip = (m.value.or m.own).map Term.strip := by
  rw [Evaluator.run_evaluateSymbol r c h.live, hlocal, Option.none_or]
  have hmeans := h.value
  cases hvalue : k.value? s with
  | some value =>
      refine ⟨some value, rfl, ?_⟩
      rw [hvalue] at hmeans
      cases hm : m.value with
      | some value' => rwa [hm] at hmeans
      | none => rw [hm] at hmeans; cases hmeans
  | none =>
      rw [hvalue] at hmeans
      rw [Option.map_eq_none_iff.mp hmeans.symm, Option.none_or]
      have hget : (get : EvalM Kernel).run k = (.ok k, k) := rfl
      dsimp only
      rw [Evaluator.findRule?, EvalM.run_bind_ok hget]
      rcases h.literals_eq with ⟨hliterals, hown⟩ | ⟨rule, rhs, hliterals, hown, hlhs, hrhs⟩
      · have hnone : k.rules? s .own = none := by
          rw [rules?_own, if_pos (by simp [RuleList.isEmpty, hliterals, h.patterns])]
        rw [hnone, hown]
        exact ⟨none, rfl, rfl⟩
      · have hsome : k.rules? s .own = some (k.ownRules s) := by
          rw [rules?_own, if_neg (by simp [RuleList.isEmpty, hliterals])]
        have hequal : (rule.lhs == .symbol s) = true := (Term.beq_iff_strip _ _).mpr hlhs
        have hconstant : (k.ownRules s).constant? (.symbol s) = some rule.rhs := by
          simp [RuleList.constant?, hliterals, hequal]
        refine ⟨some rule.rhs, ?_, ?_⟩
        · rw [hsome]
          dsimp only
          rw [Evaluator.run_find?, RuleList.ready, RuleList.needsTable, hconstant]
          change (((k.ownRules s).find? _ (.symbol s)) : EvalM (Option Term)).run k = _
          rw [RuleList.find?, hconstant]
          rfl
        · rw [hown, Option.map_some, Option.map_some, hrhs]

end Kernel

/-! ## whole histories -/

theorem Redefined.means {s : Symbol} {k₀ k : Kernel} {events : List Redefinition}
    {start : Meaning} (h : Redefined s k₀ events k) (hstart : k₀.Means s start) :
    k.Means s (start.after events) := by
  induction h with
  | start => exact hstart
  | aside _ hrecord hsize ih => exact ih.of_record_eq hrecord hsize
  | assign r c rhs hvalue _ hrun ih =>
      obtain ⟨k'', hrun', hmeans⟩ := ih.define_immediate c _
      rw [Evaluator.assign, EvalM.run_bind_ok hvalue, hrun'] at hrun
      cases hrun
      exact hmeans
  | assignDelayed c rhs _ hrhs hrun ih =>
      obtain ⟨k'', hrun', hmeans⟩ := ih.define_delayed c hrhs
      rw [hrun'] at hrun
      cases hrun
      exact hmeans
  | unassign c _ hrun ih =>
      obtain ⟨found, k'', hrun', hmeans⟩ := ih.unassign c
      rw [hrun'] at hrun
      cases hrun
      exact hmeans

variable {s : Symbol} {k₀ k k₁ k' : Kernel} {events : List Redefinition} {c : ContextId}

/-- Where native code is orderly, evaluating a right-hand side does not count. -/
theorem Redefined.assign_of_orderly (h : Redefined s k₀ events k) (hk : k.Orderly) {fuel : Nat}
    {rhs value : Term} (hvalue : (evaluateWith fuel c rhs).run k = (.ok value, k₁))
    (hrun : ((Evaluator.ofFuel fuel).assign c (.symbol s) rhs).run k = (.ok (), k')) :
    Redefined s k₀ (.immediate value :: events) k' := by
  have hsymbols : k₁.symbols = k.symbols := by
    have hkept := (hk.preserves_evaluateWith fuel c rhs).definitions.symbols
    rwa [hvalue] at hkept
  refine .assign (.ofFuel fuel) c rhs hvalue (.aside h ?_ (Nat.le_of_eq ?_)) hrun
  · rw [Kernel.record, Kernel.record, hsymbols]
  · rw [hsymbols]

/-- One rewriting step of a symbol gives the definition in force after what has happened to it, and
changes nothing. -/
theorem Redefined.evaluateSymbol_inForce {start : Meaning} (h : Redefined s k₀ events k)
    (hstart : k₀.Means s start) (hlocal : k.localValue? c s = none) (r : Evaluator) :
    ∃ result, (r.evaluateSymbol c s).run k = (.ok result, k) ∧
      result.map Term.strip = (inForce start events).map Term.strip := by
  rw [Meaning.inForce_eq]
  exact (h.means hstart).run_evaluateSymbol hlocal r

/-- Nothing is known of a new symbol. -/
theorem means_namedKernel : (namedKernel {}).Means ⟨38, "x"⟩ {} :=
  ⟨by decide, rfl, rfl, rfl, rfl, rfl, rfl⟩

/-- The kernel after `x := 1`. -/
def immediateKernel : Kernel :=
  (((Evaluator.ofFuel 1).assign ⟨0⟩ (.symbol ⟨38, "x"⟩) (.int 1)).run (namedKernel {})).2

theorem redefined_immediate :
    Redefined ⟨38, "x"⟩ (namedKernel {}) [.immediate (.int 1)] immediateKernel := by
  have horderly : (namedKernel {}).Orderly := Kernel.orderly_of_all (by decide +kernel)
  have hvalue : (evaluateWith 1 ⟨0⟩ (.int 1)).run (namedKernel {}) = (.ok (.int 1), _) := rfl
  exact Redefined.start.assign_of_orderly horderly hvalue rfl

/-- After `x := 1`, the removal of `x` and `x :> y`, the symbol is rewritten to `y`. -/
theorem redefined_after_removal : ∃ k result,
    ((Evaluator.full).evaluateSymbol ⟨0⟩ ⟨38, "x"⟩).run k = (.ok result, k) ∧
      result.map Term.strip = some (.symbol ⟨39, "y"⟩) := by
  have hremoved := Redefined.unassign ⟨0⟩ redefined_immediate rfl
  have hdelayed := Redefined.assignDelayed ⟨0⟩ (.symbol ⟨39, "y"⟩) hremoved rfl rfl
  obtain ⟨result, hrun, hresult⟩ :=
    Redefined.evaluateSymbol_inForce (c := ⟨0⟩) hdelayed means_namedKernel rfl Evaluator.full
  exact ⟨_, result, hrun, hresult⟩

/-- After `x := 1` and `x :> y`, the symbol is rewritten to `1` and not to `y`, the latest
definition. -/
theorem delayed_gives_way : ∃ k, (namedKernel {}).Means ⟨38, "x"⟩ {} ∧
    Redefined ⟨38, "x"⟩ (namedKernel {}) [.delayed (.symbol ⟨39, "y"⟩), .immediate (.int 1)] k ∧
    k.localValue? ⟨0⟩ ⟨38, "x"⟩ = none ∧
    ∀ r : Evaluator, (r.evaluateSymbol ⟨0⟩ ⟨38, "x"⟩).run k = (.ok (some (.int 1)), k) := by
  have hdelayed :=
    Redefined.assignDelayed ⟨0⟩ (.symbol ⟨39, "y"⟩) redefined_immediate rfl rfl
  refine ⟨_, means_namedKernel, hdelayed, rfl, fun r => ?_⟩
  rw [r.run_evaluateSymbol ⟨0⟩ rfl]
  rfl

end Termwise
