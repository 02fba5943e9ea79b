import Termwise.Proofs.Kernel.Update

/-!
# Termwise.Proofs.Kernel.Removed

Symbols that are *gone*: removed, and without attributes, value and rules.  Removal makes
a symbol so, and nothing undoes it, because all that would give the symbol definitions
asks first whether the symbol is live (`Kernel.Buries`).  So wherever removed symbols are
gone, they stay so (`Kernel.Buried`).
-/

namespace Termwise

/-- The record of a symbol that has been removed and has lost what was defined for it. -/
structure SymbolRecord.Gone (r : SymbolRecord) : Prop where
  removed : r.removed = true
  attributes : r.attributes = .none
  value : r.value = none
  rules : r.rules = none

namespace Kernel

variable {k k' k'' : Kernel} {s : Symbol}

/-- A symbol has been removed and has lost what was defined for it. -/
def Gone (k : Kernel) (s : Symbol) : Prop := (k.record s).Gone

/-- A symbol that is gone has no rules for any use. -/
theorem Gone.rules? (h : k.Gone s) (cache : RuleCache) : k.rules? s cache = none := by
  rw [Kernel.rules?, h.rules]
  rfl

theorem not_gone_of_live (h : (k.record s).removed = false) : ¬k.Gone s := fun hgone => by
  rw [hgone.removed] at h
  cases h

/-- A symbol that was never made is live. -/
theorem record_of_size_le (h : k.symbols.size ≤ s.id) : k.record s = { name := s.name } := by
  rw [record, Array.getD_eq_getD_getElem?, Array.getElem?_eq_none h]
  rfl

/-- A symbol that was never made has no attributes. -/
theorem attributes_of_size_le (h : k.symbols.size ≤ s.id) : k.attributes s = .none := by
  rw [Kernel.attributes, record_of_size_le h]

theorem Gone.lt_size (h : k.Gone s) : s.id < k.symbols.size := by
  refine Nat.lt_of_not_le fun hle => ?_
  have hremoved := h.removed
  rw [record_of_size_le hle] at hremoved
  cases hremoved

/-! ## burying -/

/-- What was gone is gone, and so is what was removed meanwhile. -/
structure Buries (k k' : Kernel) : Prop where
  gone : ∀ s, k.Gone s → k'.Gone s
  removed : ∀ s, (k'.record s).removed = true → (k.record s).removed = true ∨ k'.Gone s

/-- Whatever was removed is gone. -/
def Buried (k : Kernel) : Prop := ∀ s, (k.record s).removed = true → k.Gone s

theorem Buries.refl (k : Kernel) : k.Buries k := ⟨fun _ => id, fun _ => .inl⟩

theorem Buries.trans (h : k.Buries k') (h' : k'.Buries k'') : k.Buries k'' where
  gone s hs := h'.gone s (h.gone s hs)
  removed s hs := by
    rcases h'.removed s hs with hs | hs
    · exact (h.removed s hs).imp_right (h'.gone s)
    · exact .inr hs

theorem Buried.buries (hk : k.Buried) (h : k.Buries k') : k'.Buried := fun s hs =>
  (h.removed s hs).elim (fun hs => h.gone s (hk s hs)) id

/-- A change that leaves symbols alone. -/
theorem Buries.of_symbols_eq (h : k'.symbols = k.symbols) : k.Buries k' := by
  have hrecord : ∀ s, k'.record s = k.record s := fun s => by rw [record, h, record]
  exact ⟨fun s hs => by rw [Gone, hrecord]; exact hs, fun s hs => .inl (by rwa [← hrecord])⟩

/-- A change of a record that keeps it gone if it is, and removes it only so. -/
theorem buries_updateRecord (k : Kernel) (s : Symbol) {f : SymbolRecord → SymbolRecord}
    (hgone : k.Gone s → (f (k.record s)).Gone)
    (hremoved : (f (k.record s)).removed = true →
      (k.record s).removed = true ∨ (f (k.record s)).Gone) :
    k.Buries (k.updateRecord s f) where
  gone s' h := by
    rcases record_updateRecord k s s' f with hrecord | ⟨hrecord, hsame⟩
    · rwa [Gone, hrecord]
    · rw [Gone, hrecord, hsame]
      rw [Gone, hsame] at h
      exact hgone h
  removed s' h := by
    rcases record_updateRecord k s s' f with hrecord | ⟨hrecord, hsame⟩
    · exact .inl (by rwa [← hrecord])
    · rw [hrecord, hsame] at h
      rw [Gone, hrecord, hsame]
      exact hremoved h

/-- A change of the record of a symbol that is not gone, and is not removed by it. -/
theorem buries_updateRecord_of_not (hs : ¬k.Gone s) {f : SymbolRecord → SymbolRecord}
    (hremoved : ∀ r, (f r).removed = r.removed) : k.Buries (k.updateRecord s f) :=
  buries_updateRecord k s (fun hgone => absurd hgone hs) fun h => .inl (by rwa [← hremoved])

/-! ## the registry -/

theorem buries_addSymbol (k : Kernel) (name : String) : k.Buries (k.addSymbol name) where
  gone s h := by
    rw [Gone, record_addSymbol, if_neg (Nat.ne_of_lt h.lt_size)]
    exact h
  removed s h := by
    rw [record_addSymbol] at h
    split at h
    · cases h
    · exact .inl h

theorem buries_intern (k : Kernel) (name : String) : k.Buries (k.intern name).2 := by
  unfold intern
  split
  · exact .refl k
  · exact k.buries_addSymbol name

theorem buries_markRemoved (k : Kernel) (s : Symbol) : k.Buries (k.markRemoved s) := by
  refine (buries_updateRecord k s (f := fun r => { name := r.name, removed := true })
    (fun _ => ?_) fun _ => .inr ?_).trans (.of_symbols_eq rfl)
  all_goals exact ⟨rfl, rfl, rfl, rfl⟩

theorem buries_remove (k : Kernel) (s : Symbol) : k.Buries (k.remove s).2 := by
  have hunregister : k.Buries (k.unregister s.name) := .of_symbols_eq rfl
  unfold remove
  split
  · exact hunregister.trans (buries_markRemoved _ s)
  · exact .refl k

/-! ## definitions -/

theorem buries_setAttributes {attrs : Attributes} (h : k.setAttributes s attrs = .ok k') :
    k.Buries k' := by
  obtain ⟨hlive, -, rfl⟩ := setAttributes_eq_ok_iff.mp h
  exact (buries_updateRecord_of_not (f := fun r => { r with attributes := attrs })
    (not_gone_of_live hlive) fun _ => rfl).trans (.of_symbols_eq rfl)

theorem buries_setValue {value : Option Term} (h : k.setValue s value = .ok k') :
    k.Buries k' := by
  obtain ⟨hlive, -, rfl⟩ := setValue_eq_ok_iff.mp h
  exact (buries_updateRecord_of_not (f := fun r => { r with value := value })
    (not_gone_of_live hlive) fun _ => rfl).trans (.of_symbols_eq rfl)

/-- Rules that are made are rules of a live symbol. -/
theorem buries_openRules {mode : AccessMode} {opened : Option RuleStore}
    (h : k.openRules s mode = .ok (opened, k')) : k.Buries k' := by
  have hmade : (k.record s).removed = false → (opened, k') = openRules.made k s → k.Buries k' := by
    intro hlive hmade
    unfold openRules.made at hmade
    split at hmade
    · cases hmade
      exact .refl k
    · cases hmade
      exact buries_updateRecord_of_not (not_gone_of_live hlive) fun _ => rfl
  cases mode with
  | read =>
      cases h
      exact .refl k
  | write =>
      obtain ⟨hlive, -, hopened⟩ := openRules_write_eq_ok_iff.mp h
      exact hmade hlive hopened
  | writeOptions =>
      obtain ⟨hlive, hopened⟩ := openRules_writeOptions_eq_ok_iff.mp h
      exact hmade hlive hopened

/-- A symbol with opened rules is not gone. -/
theorem not_gone_of_openRules {mode : AccessMode} {store : RuleStore}
    (hopen : k.openRules s mode = .ok (some store, k')) : ¬k'.Gone s := by
  intro hgone
  have hrules := hgone.rules
  rcases openRules_eq_ok hopen with ⟨hstore, rfl⟩ | ⟨-, -, rfl⟩
  · rw [← hstore] at hrules
    cases hrules
  · have hs : s.id < k.symbols.size := by
      have hlt := hgone.lt_size
      rwa [updateRecord, Array.size_modify] at hlt
    rw [record_updateRecord_self k _ hs] at hrules
    cases hrules

theorem buries_putRules (hs : ¬k.Gone s) (cache : RuleCache) (list : RuleList) :
    k.Buries (k.putRules s cache list) := buries_updateRecord_of_not hs fun _ => rfl

/-! ## native code -/

theorem buries_register (k : Kernel) (s : Symbol) (usage : CodeUsage) (code : Native) :
    k.Buries (k.register s usage code) :=
  (buries_updateRecord k s (f := fun r => { r with code := r.code.set usage code })
    (fun h => ⟨h.removed, h.attributes, h.value, h.rules⟩) .inl).trans (.of_symbols_eq rfl)

theorem buries_registerApprox (k : Kernel) (s : Symbol) (code : ApproxNative) :
    k.Buries (k.registerApprox s code) :=
  (buries_updateRecord k s (f := fun r => { r with code := { r.code with approx := some code } })
    (fun h => ⟨h.removed, h.attributes, h.value, h.rules⟩) .inl).trans (.of_symbols_eq rfl)

end Kernel

end Termwise
