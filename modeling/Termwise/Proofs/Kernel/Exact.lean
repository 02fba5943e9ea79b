import Termwise.Proofs.Kernel.Readings

/-!
# Termwise.Proofs.Kernel.Exact

Kernels that have no approximation of their own (`Kernel.Exact`): no symbol has rules for
approximation or native code that approximates.  Only a definition for approximation and
the binding of such code can change that; every other change of a kernel keeps it.
-/

namespace Termwise

/-- Removing from no rules leaves none. -/
theorem RuleList.isEmpty_remove {l : RuleList} (h : l.isEmpty = true)
    (attrs : Symbol → Attributes) (lhs : Term) : (l.remove attrs lhs).1.isEmpty = true := by
  rw [isEmpty, Bool.and_eq_true, List.isEmpty_iff, List.isEmpty_iff] at h
  rw [remove]
  split <;> simp [isEmpty, touch, h.1, h.2]

namespace Kernel

/-- No symbol has rules or native code for approximation. -/
structure Exact (k : Kernel) : Prop where
  rules : ∀ s, k.rules? s .approx = none
  code : ∀ s, (k.record s).code.approx = none

/-- No approximation is added. -/
def StaysExact (k k' : Kernel) : Prop := k.Exact → k'.Exact

variable {k k' k'' : Kernel}

theorem StaysExact.refl (k : Kernel) : k.StaysExact k := id

theorem StaysExact.trans (h : k.StaysExact k') (h' : k'.StaysExact k'') : k.StaysExact k'' :=
  fun hk => h' (h hk)

theorem rules?_eq_none_iff (k : Kernel) (s : Symbol) (cache : RuleCache) :
    k.rules? s cache = none ↔ (((k.record s).rules.getD {}).get cache).isEmpty = true := by
  rw [rules?_eq]
  dsimp only
  split
  next h => exact iff_of_true rfl h
  next h => exact iff_of_false nofun h

theorem SameReadings.staysExact (h : k.SameReadings k') : k.StaysExact k' := fun hk =>
  ⟨fun s => (h.rules s .approx).trans (hk.rules s), fun s => by rw [h.code, hk.code]⟩

theorem StaysExact.of_symbols_eq (h : k'.symbols = k.symbols) : k.StaysExact k' := by
  have hrecord : k'.record = k.record := funext fun s => by simp only [record, h]
  exact fun hk =>
    ⟨fun s => by rw [rules?, hrecord, ← rules?, hk.rules], fun s => by rw [hrecord, hk.code]⟩

theorem staysExact_stamp (k : Kernel) (c : ContextId) (t : Term) (generation : Option Nat) :
    k.StaysExact (k.stamp c t generation) := by
  refine .of_symbols_eq ?_
  unfold stamp markEvaluated
  repeat' split
  all_goals rfl

/-- A change of a record that adds no approximation. -/
theorem staysExact_updateRecord (k : Kernel) (s : Symbol) {f : SymbolRecord → SymbolRecord}
    (hrules : k.Exact → (((f (k.record s)).rules.getD {}).get .approx).isEmpty = true)
    (hcode : k.Exact → (f (k.record s)).code.approx = none) :
    k.StaysExact (k.updateRecord s f) := by
  refine fun hk => ⟨fun s' => ?_, fun s' => ?_⟩
  · rcases record_updateRecord k s s' f with h | ⟨h, hsame⟩
    · rw [rules?, h, ← rules?, hk.rules]
    · rw [rules?_eq_none_iff, h, hsame, hrules hk]
  · rcases record_updateRecord k s s' f with h | ⟨h, hsame⟩
    · rw [h, hk.code]
    · rw [h, hsame, hcode hk]

/-- A change of a record that leaves its rules and its code alone. -/
theorem staysExact_updateRecord_of_eq (k : Kernel) (s : Symbol) {f : SymbolRecord → SymbolRecord}
    (hrules : (f (k.record s)).rules = (k.record s).rules)
    (hcode : (f (k.record s)).code = (k.record s).code) : k.StaysExact (k.updateRecord s f) :=
  k.staysExact_updateRecord s
    (fun hk => by rw [hrules, (rules?_eq_none_iff k s .approx).mp (hk.rules s)])
    fun hk => by rw [hcode, hk.code]

theorem staysExact_setAttributes {s : Symbol} {attrs : Attributes}
    (h : k.setAttributes s attrs = .ok k') : k.StaysExact k' := by
  rw [setAttributes_eq_ok h]
  exact (k.staysExact_updateRecord_of_eq s (f := fun r => { r with attributes := attrs }) rfl
    rfl).trans (.of_symbols_eq rfl)

theorem staysExact_setValue {s : Symbol} {value : Option Term} (h : k.setValue s value = .ok k') :
    k.StaysExact k' := by
  rw [setValue_eq_ok h]
  exact (k.staysExact_updateRecord_of_eq s (f := fun r => { r with value := value }) rfl
    rfl).trans (.of_symbols_eq rfl)

/-- Another list in the place of one: one for another use, or an empty one. -/
theorem staysExact_putRules (k : Kernel) (s : Symbol) {cache : RuleCache} {list : RuleList}
    (hlist : k.Exact → cache = .approx → list.isEmpty = true) :
    k.StaysExact (k.putRules s cache list).bump := by
  let f := fun r : SymbolRecord => { r with rules := some ((r.rules.getD {}).set cache list) }
  refine (k.staysExact_updateRecord s (f := f) (fun hk => ?_) fun hk => hk.code s).trans
    (.of_symbols_eq rfl)
  rw [Option.getD_some]
  by_cases hcache : cache = .approx
  · rw [hcache, RuleStore.get_set_self, hlist hk hcache]
  · rw [RuleStore.get_set_of_ne _ _ _ _ hcache,
      (rules?_eq_none_iff k s .approx).mp (hk.rules s)]

/-- Where there are no approximations now, none were among the rules that were opened. -/
theorem Exact.isEmpty_of_opened (hk' : k'.Exact) {s : Symbol} {mode : AccessMode}
    {store : RuleStore} (h : k.openRules s mode = .ok (some store, k')) :
    (store.get .approx).isEmpty = true := by
  rcases openRules_eq_ok h with ⟨hstore, rfl⟩ | ⟨-, hstore, -⟩
  · have hnone := (rules?_eq_none_iff k' s .approx).mp (hk'.rules s)
    rwa [← hstore, Option.getD_some] at hnone
  · rw [Option.some.inj hstore]
    rfl

theorem staysExact_remove (k : Kernel) (s : Symbol) : k.StaysExact (k.remove s).2 := by
  unfold remove
  split
  · have hunregister : k.StaysExact (k.unregister s.name) := .of_symbols_eq rfl
    let f := fun r : SymbolRecord => { name := r.name, removed := true : SymbolRecord }
    exact (hunregister.trans (staysExact_updateRecord _ s (f := f) (fun _ => rfl)
      fun _ => rfl)).trans (.of_symbols_eq rfl)
  · exact .refl k

end Kernel

end Termwise
