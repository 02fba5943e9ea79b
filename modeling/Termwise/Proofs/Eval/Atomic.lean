import Termwise.Eval.Define
import Termwise.Eval.Evaluate
import Termwise.Proofs.Kernel.Readings

/-!
# Termwise.Proofs.Eval.Atomic

Calls that define something fail before they change anything: what is wrong with a
left-hand side is found first, and a symbol refuses a change before it is made.

There is one exception.  The definitions of a thread-local symbol are removed in two
steps, its value in the context and then its own rules; a protected symbol lets the first
one through and refuses the second (`Kernel.HalfRemovable`).
-/

namespace Termwise

/-! ## definition calls -/

/-- A call that defines something or removes a definition. -/
inductive DefinitionCall where
  | assign (lhs rhs : Term)
  | assignDelayed (lhs rhs : Term)
  | assignUp (tag : Symbol) (lhs rhs : Term)
  | assignApprox (s : Symbol) (lhs rhs : Term)
  | assignFormat (s : Symbol) (lhs rhs : Term)
  | setDefault (s : Symbol) (key value : Term)
  | unassign (lhs : Term)
  | setAttributes (s : Symbol) (attrs : Attributes)
  | setValue (s : Symbol) (value : Option Term)

namespace DefinitionCall

/-- Make a call in a context. -/
def perform (r : Evaluator) (c : ContextId) : DefinitionCall → EvalM Unit
  | assign lhs rhs => r.assign c lhs rhs
  | assignDelayed lhs rhs => Termwise.assignDelayed c lhs rhs
  | assignUp tag lhs rhs => Termwise.assignUp tag lhs rhs
  | assignApprox s lhs rhs => Termwise.assignApprox s lhs rhs
  | assignFormat s lhs rhs => Termwise.assignFormat s lhs rhs
  | setDefault s key value => Termwise.setDefault s key value
  | unassign lhs => do
    let _ ← Termwise.unassign c lhs
  | setAttributes s attrs => change fun k => k.setAttributes s attrs
  | setValue s value => change fun k => k.setValue s value

/-- The kernel in which a call begins to define: a right-hand side that is to be defined at once is
evaluated before. -/
def start (r : Evaluator) (c : ContextId) (k : Kernel) : DefinitionCall → Kernel
  | assign _ rhs => ((r.evaluate c rhs).run k).2
  | _ => k

end DefinitionCall

theorem Term.eq_of_isSymbol {t : Term} {s : Symbol} (h : t.isSymbol s = true) : t = .symbol s := by
  cases t with
  | symbol s' => rw [beq_iff_eq.mp h]
  | _ => cases h

/-- A symbol with a value of its own in a context, and with rules of its own that cannot be
changed. -/
structure Kernel.HalfRemovable (k : Kernel) (c : ContextId) (s : Symbol) : Prop where
  threadLocal : (k.attributes s).has .threadLocal = true
  bound : ((k.context c).locals.lookup s).isSome = true
  ruled : (k.rules? s .own).isSome = true
  closed : (k.record s).removed = true ∨ (k.attributes s).has .isProtected = true

namespace EvalM

/-! ## storing -/

theorem silent_validate (lhs : Term) : Silent (validate lhs) := by
  unfold validate
  cases lhs.defect? with
  | none => exact silent_pure _
  | some e => exact silent_throw _

theorem silent_definitionTarget (lhs : Term) : Silent (definitionTarget lhs) := by
  unfold definitionTarget
  cases (Pattern.ofTerm lhs).target with
  | ok target => exact silent_pure target
  | error e => exact silent_throw _

theorem silent_makeRule (lhs rhs : Term) (kind : RuleKind) : Silent (makeRule lhs rhs kind) :=
  silent_bind (silent_share lhs) fun _ => silent_bind (silent_share rhs) fun _ =>
    silent_bind silent_get fun _ => silent_pure _

theorem atomic_storeRule (s : Symbol) (cache : RuleCache) (mode : AccessMode) (lhs rhs : Term)
    (kind : RuleKind) : Atomic (storeRule s cache mode lhs rhs kind) :=
  (silent_makeRule lhs rhs kind).bind_atomic fun _ =>
    (atomic_changeRules s mode cache _).returning _

theorem atomic_define (c : ContextId) (lhs rhs : Term) (kind : RuleKind) :
    Atomic (define c lhs rhs kind) := by
  refine (silent_validate lhs).bind_atomic fun _ =>
    (silent_definitionTarget lhs).bind_atomic fun (s, cache) => ?_
  refine iteInduction (motive := Atomic) (fun _ => ?_) fun _ => atomic_storeRule _ _ _ _ _ _
  refine (silent_share rhs).bind_atomic fun value => silent_get.bind_atomic fun k => ?_
  exact iteInduction (motive := Atomic) (fun _ => atomic_modifyGet _) fun _ => atomic_change _

theorem atomic_assignUp (tag : Symbol) (lhs rhs : Term) : Atomic (assignUp tag lhs rhs) :=
  (silent_validate lhs).bind_atomic fun _ => iteInduction (motive := Atomic)
    (fun _ => atomic_storeRule _ _ _ _ _ _) fun _ => (silent_throw _).atomic

end EvalM

/-! ## removing -/

/-- The first step of a removal: what a symbol stands for by itself goes. -/
def clearValue (c : ContextId) (lhs : Term) (s : Symbol) : EvalM Bool := do
  if lhs.isSymbol s then
    if ((← get).attributes s).has .threadLocal then
      return (← modifyGet fun k => k.unsetLocal c s).isSome
    else if ((← get).value? s).isSome then do
      change fun k => k.setValue s none
      return true
    else return false
  else return false

/-- The second step of a removal: the rules for a left-hand side go. -/
def removeRules (lhs : Term) (s : Symbol) (cache : RuleCache) (cleared : Bool) : EvalM Bool := do
  if ((← get).rules? s cache).isSome then
    let attrs := (← get).attributes
    let removed ← changeRules s .write cache fun list => list.remove attrs lhs
    return cleared || removed == some true
  else return cleared

theorem unassign_eq (c : ContextId) (lhs : Term) : unassign c lhs = (do
    let (s, cache) ← definitionTarget lhs
    let cleared ← clearValue c lhs s
    removeRules lhs s cache cleared) := by
  unfold unassign
  refine bind_congr fun (s, cache) => ?_
  dsimp only [clearValue]
  cases lhs.isSymbol s with
  | false => rfl
  | true =>
      simp only [if_true, bind_assoc]
      refine bind_congr fun k => ?_
      cases (k.attributes s).has .threadLocal with
      | true => rfl
      | false =>
          simp only [Bool.false_eq_true, if_false, bind_assoc]
          refine bind_congr fun k => ?_
          cases (k.value? s).isSome with
          | true =>
              simp only [if_true, bind_assoc, pure_bind]
              rfl
          | false =>
              simp only [Bool.false_eq_true, if_false, pure_bind]
              rfl

variable {k k' : Kernel} {c : ContextId} {s : Symbol} {lhs : Term} {cache : RuleCache}
  {cleared : Bool}

theorem run_removeRules :
    (removeRules lhs s cache cleared).run k =
      if (k.rules? s cache).isSome then
        (do
          let removed ← changeRules s .write cache fun list => list.remove k.attributes lhs
          return cleared || removed == some true : EvalM Bool).run k
      else (.ok cleared, k) := by
  have hget : (get : EvalM Kernel).run k = (.ok k, k) := rfl
  rw [removeRules, EvalM.run_bind_ok hget]
  split
  · rw [EvalM.run_bind_ok hget]
  · rfl

theorem atomic_removeRules : EvalM.Atomic (removeRules lhs s cache cleared) := by
  intro k k' e hrun
  rw [run_removeRules] at hrun
  split at hrun
  · exact (EvalM.atomic_changeRules s .write cache _).returning _ k k' e hrun
  · cases hrun

/-- Rules are removed wherever they can be changed. -/
theorem exists_run_removeRules (hlive : (k.record s).removed = false)
    (hwritable : (k.attributes s).has .isProtected = false) :
    ∃ found k', (removeRules lhs s cache cleared).run k = (.ok found, k') := by
  have hopen : k.openRules s .write = .ok (Kernel.openRules.made k s) :=
    Kernel.openRules_write_eq_ok_iff.mpr ⟨hlive, hwritable, rfl⟩
  have hchange : ∃ removed k', (changeRules s .write cache fun list =>
      list.remove k.attributes lhs).run k = (.ok removed, k') := by
    rw [run_changeRules, hopen]
    rcases Kernel.openRules.made k s with ⟨_ | store, k'⟩ <;> exact ⟨_, _, rfl⟩
  rw [run_removeRules]
  split
  · obtain ⟨removed, k', hrun⟩ := hchange
    exact ⟨_, k', by rw [EvalM.run_bind_ok hrun]; rfl⟩
  · exact ⟨cleared, k, rfl⟩

/-- Clearing the value of a symbol is refused before it is done. -/
theorem atomic_clearValue : EvalM.Atomic (clearValue c lhs s) := by
  refine iteInduction (motive := EvalM.Atomic) (fun _ => ?_) fun _ => (EvalM.silent_pure _).atomic
  refine EvalM.silent_get.bind_atomic fun k => ?_
  refine iteInduction (motive := EvalM.Atomic) (fun _ => (EvalM.atomic_modifyGet _).returning _)
    fun _ => EvalM.silent_get.bind_atomic fun k => ?_
  exact iteInduction (motive := EvalM.Atomic) (fun _ => (EvalM.atomic_change _).returning _)
    fun _ => (EvalM.silent_pure _).atomic

/-- What has been cleared is nothing, a value in the context, or the value of a symbol that is
open to changes. -/
theorem clearValue_eq_ok {found : Bool}
    (h : (clearValue c (.symbol s) s).run k = (.ok found, k')) :
    k' = k ∨
      ((k.attributes s).has .threadLocal = true ∧ ((k.context c).locals.lookup s).isSome = true ∧
        k'.symbols = k.symbols) ∨
      ((k'.record s).removed = false ∧ (k'.attributes s).has .isProtected = false) := by
  have hself : (Term.symbol s).isSymbol s = true := by simp [Term.isSymbol]
  have hget : (get : EvalM Kernel).run k = (.ok k, k) := rfl
  rw [clearValue, if_pos hself, EvalM.run_bind_ok hget] at h
  split at h
  · rename_i hlocal
    obtain ⟨old, k₁, hunset, hk⟩ := EvalM.run_bind_eq_ok h
    cases hk
    have hk' : k' = (k.unsetLocal c s).2 := congrArg Prod.snd hunset.symm
    rw [hk', Kernel.unsetLocal]
    cases hbound : (k.context c).locals.lookup s with
    | some old => exact .inr (.inl ⟨hlocal, rfl, rfl⟩)
    | none => exact .inl rfl
  · rw [EvalM.run_bind_ok hget] at h
    split at h
    · obtain ⟨_, k₁, hset, hk⟩ := EvalM.run_bind_eq_ok h
      cases hk
      rw [run_change] at hset
      split at hset
      · rename_i k₂ hok
        cases hset
        obtain ⟨hlive, hwritable, rfl⟩ := Kernel.setValue_eq_ok_iff.mp hok
        refine .inr (.inr ?_)
        rcases Kernel.record_updateRecord k s s fun r => { r with value := none } with hr | ⟨hr, -⟩
        · exact ⟨(congrArg SymbolRecord.removed hr).trans hlive,
            (congrArg (fun r => r.attributes.has .isProtected) hr).trans hwritable⟩
        · exact ⟨(congrArg SymbolRecord.removed hr).trans hlive,
            (congrArg (fun r => r.attributes.has .isProtected) hr).trans hwritable⟩
      · cases hset
    · cases h
      exact .inl rfl

/-- The definitions of a symbol are removed in two steps, and the second one fails after the first
one only if the symbol is half removable. -/
theorem atomic_unassign_symbol (h : ¬k.HalfRemovable c s) {e : EvalError}
    (hrun : (do removeRules (.symbol s) s .own (← clearValue c (.symbol s) s) : EvalM Bool).run k =
      (.error e, k')) : k.SameReadings k' := by
  rcases EvalM.run_bind_eq_error hrun with hclear | ⟨found, k₁, hclear, hremove⟩
  · exact atomic_clearValue k k' e hclear
  have hclosed : ¬((k₁.record s).removed = false ∧ (k₁.attributes s).has .isProtected = false) := by
    rintro ⟨hlive, hwritable⟩
    obtain ⟨removed, k₂, hok⟩ : ∃ removed k₂,
        (removeRules (.symbol s) s .own found).run k₁ = (.ok removed, k₂) :=
      exists_run_removeRules hlive hwritable
    rw [hok] at hremove
    cases hremove
  have hruled : (k₁.rules? s .own).isSome = true := by
    rw [run_removeRules] at hremove
    split at hremove
    · assumption
    · cases hremove
  rcases clearValue_eq_ok hclear with rfl | ⟨hlocal, hbound, hsymbols⟩ | hopen
  · exact atomic_removeRules _ k' e hremove
  · have hrecord : k₁.record s = k.record s := by rw [Kernel.record, hsymbols]; rfl
    refine absurd ⟨hlocal, hbound, ?_, ?_⟩ h
    · rwa [Kernel.rules?, hrecord] at hruled
    · rw [Kernel.attributes, hrecord] at hclosed
      rw [Kernel.attributes]
      cases hremoved : (k.record s).removed with
      | true => exact .inl rfl
      | false =>
          exact .inr ((Bool.not_eq_false _).mp fun hwritable => hclosed ⟨hremoved, hwritable⟩)
  · exact absurd hopen hclosed

theorem atomic_unassign (h : ∀ s, lhs = .symbol s → ¬k.HalfRemovable c s) {e : EvalError}
    (hrun : (unassign c lhs).run k = (.error e, k')) : k.SameReadings k' := by
  by_cases hsymbol : ∃ s, lhs = .symbol s
  · obtain ⟨s, rfl⟩ := hsymbol
    have htarget : (definitionTarget (.symbol s)).run k = (.ok (s, .own), k) := rfl
    rw [unassign_eq, EvalM.run_bind_ok htarget] at hrun
    exact atomic_unassign_symbol (h s rfl) hrun
  · -- nothing but rules can be defined for another left-hand side
    have hsilent : ∀ s, EvalM.Silent (clearValue c lhs s) := fun s => by
      have hself : ¬lhs.isSymbol s = true := fun hself => hsymbol ⟨s, Term.eq_of_isSymbol hself⟩
      rw [clearValue, if_neg hself]
      exact EvalM.silent_pure false
    rw [unassign_eq] at hrun
    exact ((EvalM.silent_definitionTarget lhs).bind_atomic fun target =>
      (hsilent target.1).bind_atomic fun _ => atomic_removeRules) k k' e hrun

/-- The definitions of a half removable symbol are removed by half: the call fails, and the value in
the context is gone. -/
theorem unassign_of_halfRemovable (h : k.HalfRemovable c s) :
    ∃ e k', (unassign c (.symbol s)).run k = (.error (.symbol e), k') ∧
      (k'.context c).locals.lookup s = none := by
  obtain ⟨old, hbound⟩ := Option.isSome_iff_exists.mp h.bound
  have hc : c.index < k.contexts.size := by
    refine Nat.lt_of_not_le fun hle => ?_
    rw [Kernel.context, Array.getD_eq_getD_getElem?, Array.getElem?_eq_none hle] at hbound
    cases hbound
  have hself : (Term.symbol s).isSymbol s = true := by simp [Term.isSymbol]
  have htarget : (definitionTarget (.symbol s)).run k = (.ok (s, .own), k) := rfl
  let k₁ := (k.unsetLocal c s).2
  have hclear : (clearValue c (.symbol s) s).run k = (.ok (k.unsetLocal c s).1.isSome, k₁) := by
    have hget : (get : EvalM Kernel).run k = (.ok k, k) := rfl
    rw [clearValue, if_pos hself, EvalM.run_bind_ok hget, if_pos h.threadLocal]
    rfl
  have hk₁ : k₁ = (k.updateContext c fun x =>
      { x with locals := x.locals.filter (·.1 != s) }).bump := by
    change (k.unsetLocal c s).2 = _
    rw [Kernel.unsetLocal, hbound]
  have hrecord : k₁.record s = k.record s := by rw [hk₁]; rfl
  have hruled : (k₁.rules? s .own).isSome = true := by
    rw [Kernel.rules?, hrecord]
    exact h.ruled
  have hclosed : ∃ e, k₁.openRules s .write = .error e := by
    cases hopen : k₁.openRules s .write with
    | error e => exact ⟨e, rfl⟩
    | ok opened =>
        obtain ⟨hlive, hwritable, -⟩ := Kernel.openRules_write_eq_ok_iff.mp hopen
        have hstill := h.closed
        rw [hrecord] at hlive
        rw [Kernel.attributes, hrecord] at hwritable
        rw [Kernel.attributes, hlive, hwritable] at hstill
        rcases hstill with hstill | hstill <;> cases hstill
  obtain ⟨e, hclosed⟩ := hclosed
  refine ⟨e, k₁, ?_, ?_⟩
  · have hrules := run_changeRules s .write .own
      (fun list => list.remove k₁.attributes (.symbol s)) k₁
    rw [hclosed] at hrules
    rw [unassign_eq, EvalM.run_bind_ok htarget]
    change (clearValue c (.symbol s) s >>= _).run k = _
    rw [EvalM.run_bind_ok hclear, run_removeRules, if_pos hruled, EvalM.run_bind_error hrules]
  · rw [hk₁]
    change ((k.updateContext c _).context c).locals.lookup s = none
    rw [Kernel.context_updateContext_self k _ hc, List.lookup_eq_none_iff]
    intro e he
    exact bne_comm.trans (List.mem_filter.mp he).2

/-! ## all calls -/

/-- A definition call that fails leaves attributes, values, rules and local values as they were,
apart from what evaluating a right-hand side did, unless it was to remove the definitions of a
half removable symbol. -/
theorem DefinitionCall.perform_atomic {call : DefinitionCall} {r : Evaluator} {e : EvalError}
    (hcall : ∀ s, call = .unassign (.symbol s) → ¬k.HalfRemovable c s)
    (hrun : (call.perform r c).run k = (.error e, k')) : (call.start r c k).SameReadings k' := by
  cases call with
  | assign lhs rhs =>
      rcases EvalM.run_bind_eq_error hrun with hvalue | ⟨value, k₁, hvalue, hdefine⟩
      · rw [start, hvalue]
        exact .refl k'
      · rw [start, hvalue]
        exact EvalM.atomic_define c lhs value .immediate k₁ k' e hdefine
  | assignDelayed lhs rhs => exact EvalM.atomic_define c lhs rhs .delayed k k' e hrun
  | assignUp tag lhs rhs => exact EvalM.atomic_assignUp tag lhs rhs k k' e hrun
  | assignApprox s lhs rhs | assignFormat s lhs rhs =>
      exact ((EvalM.silent_validate lhs).bind_atomic fun _ =>
        EvalM.atomic_storeRule s _ _ lhs rhs .delayed) k k' e hrun
  | setDefault s key value =>
      exact EvalM.atomic_storeRule s .default .writeOptions key value .immediate k k' e hrun
  | unassign lhs =>
      rcases EvalM.run_bind_eq_error hrun with hremove | ⟨removed, k₁, -, hnone⟩
      · exact atomic_unassign (fun s hlhs => hcall s (by rw [hlhs])) hremove
      · cases hnone
  | setAttributes s attrs => exact EvalM.atomic_change _ k k' e hrun
  | setValue s value => exact EvalM.atomic_change _ k k' e hrun

/-- A new kernel with one context and symbols `x` and `y`. -/
def pairKernel : Kernel := (((Kernel.new {}).newRoot.2.intern "x").2.intern "y").2

/-- A rule for lists is refused, and nothing has changed. -/
theorem perform_atomic_list : ∃ k',
    ((DefinitionCall.assignDelayed (.app .list []) (.int 1)).perform .full ⟨0⟩).run pairKernel =
        (.error (.symbol (.isProtected "List")), k') ∧ pairKernel.SameReadings k' := by
  have hrun : ((DefinitionCall.assignDelayed (.app .list []) (.int 1)).perform .full ⟨0⟩).run
      pairKernel = (.error (.symbol (.isProtected "List")), _) := rfl
  exact ⟨_, hrun, DefinitionCall.perform_atomic (fun _ hcall => by cases hcall) hrun⟩

/-- The kernel after `x :> y`, after `x := 1` in the context, and with `x` protected then. -/
def halfRemovableKernel : Kernel :=
  let x : Symbol := ⟨38, "x"⟩
  let calls : List DefinitionCall :=
    [.assignDelayed (.symbol x) (.symbol ⟨39, "y"⟩), .setAttributes x (.ofList [.threadLocal]),
      .assign (.symbol x) (.int 1), .setAttributes x (.ofList [.threadLocal, .isProtected])]
  calls.foldl (fun k call => ((call.perform (.ofFuel 1) ⟨0⟩).run k).2) pairKernel

/-- There, removing the definitions of `x` fails because `x` is protected, and the value of `x` in
the context is lost. -/
theorem unassign_loses_value : ∃ k',
    ((DefinitionCall.unassign (.symbol ⟨38, "x"⟩)).perform .full ⟨0⟩).run halfRemovableKernel =
        (.error (.symbol (.isProtected "x")), k') ∧
      halfRemovableKernel.localValue? ⟨0⟩ ⟨38, "x"⟩ = some (.int 1) ∧
      k'.localValue? ⟨0⟩ ⟨38, "x"⟩ = none :=
  ⟨_, rfl, rfl, rfl⟩

end Termwise
