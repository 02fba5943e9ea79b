import Termwise.Kernel.Contexts
import Termwise.Kernel.SymbolTable

/-!
# Termwise.Proofs.Kernel.Update

Reading a kernel after one record or one context of it was changed: every record and
every context is an old one, as it was or changed.  A change of a symbol that is not
refused comes down to one such change.
-/

namespace Termwise

namespace Kernel

/-! ## records and contexts -/

/-- A record of a changed kernel is an old one, as it was or changed. -/
theorem record_updateRecord (k : Kernel) (s s' : Symbol) (f : SymbolRecord → SymbolRecord) :
    (k.updateRecord s f).record s' = k.record s' ∨
      (k.updateRecord s f).record s' = f (k.record s') ∧ k.record s' = k.record s := by
  simp only [updateRecord, record, Array.getD_eq_getD_getElem?, Array.getElem?_modify]
  by_cases hid : s.id = s'.id
  · rw [if_pos hid, hid]
    cases k.symbols[s'.id]? with
    | none => exact .inl rfl
    | some r => exact .inr ⟨rfl, rfl⟩
  · rw [if_neg hid]
    exact .inl rfl

/-- A context of a changed kernel is an old one, as it was or changed. -/
theorem context_updateContext (k : Kernel) (c c' : ContextId) (f : Context → Context) :
    (k.updateContext c f).context c' = k.context c' ∨
      (k.updateContext c f).context c' = f (k.context c') ∧ k.context c' = k.context c := by
  simp only [updateContext, context, Array.getD_eq_getD_getElem?, Array.getElem?_modify]
  by_cases hid : c.index = c'.index
  · rw [if_pos hid, hid]
    cases k.contexts[c'.index]? with
    | none => exact .inl rfl
    | some x => exact .inr ⟨rfl, rfl⟩
  · rw [if_neg hid]
    exact .inl rfl

/-- What a change of a context leaves alone is left alone in all contexts. -/
theorem context_updateContext_of_eq {α : Type} {g : Context → α} (k : Kernel) (c c' : ContextId)
    {f : Context → Context} (h : ∀ x, g (f x) = g x) :
    g ((k.updateContext c f).context c') = g (k.context c') := by
  rcases context_updateContext k c c' f with hc | ⟨hc, -⟩
  · rw [hc]
  · rw [hc, h]

/-- A context in a call has the stamps it had before. -/
theorem stampGeneration?_enter (k : Kernel) (c c' : ContextId) :
    (k.enter c).stampGeneration? c' = k.stampGeneration? c' := by
  let p := fun x : Context => !x.locals.isEmpty || !x.localRules.isEmpty
  have hlocal : ∀ c', p ((k.enter c).context c') = p (k.context c') := fun c' =>
    context_updateContext_of_eq k c c' fun _ => rfl
  have hancestors : ((k.enter c).context c').ancestors = (k.context c').ancestors :=
    context_updateContext_of_eq k c c' fun _ => rfl
  have hany : ((k.enter c).chain c').any p = (k.chain c').any p := by
    simp only [chain, hancestors, List.any_cons, List.any_map, hlocal, Function.comp_def]
  rw [stampGeneration?, stampGeneration?, hany]
  rfl

/-- A changed record reads as changed. -/
theorem record_updateRecord_self (k : Kernel) {s : Symbol} (f : SymbolRecord → SymbolRecord)
    (hs : s.id < k.symbols.size) : (k.updateRecord s f).record s = f (k.record s) := by
  simp only [updateRecord, record, Array.getD_eq_getD_getElem?, Array.getElem?_modify, if_pos,
    Array.getElem?_eq_getElem hs, Option.map_some, Option.getD_some]

/-- Another record reads as before. -/
theorem record_updateRecord_of_ne (k : Kernel) {s s' : Symbol} (f : SymbolRecord → SymbolRecord)
    (hs : s.id ≠ s'.id) : (k.updateRecord s f).record s' = k.record s' := by
  simp only [updateRecord, record, Array.getD_eq_getD_getElem?, Array.getElem?_modify, if_neg hs]

/-- The record of a symbol that was made is that of its number. -/
theorem record_eq_of_id_eq (k : Kernel) {s s' : Symbol} (hs : s.id < k.symbols.size)
    (hid : s'.id = s.id) : k.record s' = k.record s := by
  simp only [record, Array.getD_eq_getD_getElem?, hid, Array.getElem?_eq_getElem hs,
    Option.getD_some]

/-- A changed context reads as changed. -/
theorem context_updateContext_self (k : Kernel) {c : ContextId} (f : Context → Context)
    (hc : c.index < k.contexts.size) : (k.updateContext c f).context c = f (k.context c) := by
  simp only [updateContext, context, Array.getD_eq_getD_getElem?, Array.getElem?_modify, if_pos,
    Array.getElem?_eq_getElem hc, Option.map_some, Option.getD_some]

/-- Another context reads as before. -/
theorem context_updateContext_of_ne (k : Kernel) {c c' : ContextId} (f : Context → Context)
    (hc : c ≠ c') : (k.updateContext c f).context c' = k.context c' := by
  have hindex : c.index ≠ c'.index := fun h => hc (by cases c; cases c'; cases h; rfl)
  simp only [updateContext, context, Array.getD_eq_getD_getElem?, Array.getElem?_modify,
    if_neg hindex]

/-- A context that does not exist cannot be changed. -/
theorem context_updateContext_of_size_le (k : Kernel) {c : ContextId} (f : Context → Context)
    (c' : ContextId) (hc : k.contexts.size ≤ c.index) :
    (k.updateContext c f).context c' = k.context c' := by
  simp only [updateContext, context, Array.getD_eq_getD_getElem?, Array.getElem?_modify]
  split
  next h => rw [← h, Array.getElem?_eq_none hc, Option.map_none]
  next => rfl

/-- A record of a new kernel is that of a symbol of the evaluator, or has a name alone. -/
theorem record_new (config : Config) (s : Symbol) :
    (new config).record s = { name := s.name } ∨ ∃ s' : Symbol, (new config).record s =
      { name := s'.name, attributes := s'.initialAttributes, code := s'.initialCode } := by
  simp only [new, record, Array.getD_eq_getD_getElem?, List.getElem?_toArray, List.getElem?_map]
  cases Symbol.system[s.id]? with
  | none => exact .inl rfl
  | some s' => exact .inr ⟨s', rfl⟩

/-- A new symbol has a record with its name alone. -/
theorem record_addSymbol (k : Kernel) (name : String) (s : Symbol) :
    (k.addSymbol name).record s =
      if s.id = k.symbols.size then { name := name } else k.record s := by
  simp only [addSymbol, record, Array.getD_eq_getD_getElem?, Array.getElem?_push]
  split <;> rfl

theorem record_intern (k : Kernel) (name : String) (s : Symbol) :
    (k.intern name).2.record s = k.record s ∨ (k.intern name).2.record s = { name := name } := by
  unfold intern
  split
  · exact .inl rfl
  · change (k.addSymbol name).record s = _ ∨ (k.addSymbol name).record s = _
    rw [record_addSymbol]
    split
    · exact .inr rfl
    · exact .inl rfl

/-- A name that stands for nothing is taken by a new symbol. -/
theorem intern_of_lookup?_eq_none {k : Kernel} {name : String} (h : k.lookup? name = none) :
    k.intern name = (⟨k.symbols.size, name⟩, k.addSymbol name) := by
  rw [intern, h]

theorem lookup?_addSymbol_of_ne (k : Kernel) {name other : String} (h : other ≠ name) :
    (k.addSymbol name).lookup? other = k.lookup? other := by
  rw [addSymbol, lookup?, List.lookup_cons, beq_eq_false_iff_ne.mpr h]
  rfl

/-- Names that stand for nothing, each given once, are taken by new symbols. -/
theorem foldl_intern_of_lookup?_eq_none {k : Kernel} {names : List String} (hnodup : names.Nodup)
    (h : ∀ name ∈ names, k.lookup? name = none) :
    names.foldl (fun k name => (k.intern name).2) k = names.foldl addSymbol k := by
  induction names generalizing k with
  | nil => rfl
  | cons name names ih =>
      obtain ⟨hfresh, hnodup⟩ := List.nodup_cons.mp hnodup
      obtain ⟨hname, hnames⟩ := List.forall_mem_cons.mp h
      rw [List.foldl_cons, List.foldl_cons, intern_of_lookup?_eq_none hname]
      refine ih hnodup fun other hother => ?_
      have hne : other ≠ name := fun hsame => hfresh (hsame ▸ hother)
      rw [lookup?_addSymbol_of_ne k hne]
      exact hnames other hother

/-! ## stamps -/

theorem getD_append_replicate (stamps : Array Nat) (count id : Nat) :
    (stamps ++ Array.replicate count 0).getD id 0 = stamps.getD id 0 := by
  simp only [Array.getD_eq_getD_getElem?, Array.getElem?_append, Array.getElem?_replicate]
  split
  · rfl
  · rename_i hout
    rw [Array.getElem?_eq_none (Nat.le_of_not_lt hout)]
    split <;> rfl

theorem getD_setIfInBounds (stamps : Array Nat) (i id g : Nat) :
    (stamps.setIfInBounds i g).getD id 0 =
      if i = id ∧ i < stamps.size then g else stamps.getD id 0 := by
  simp only [Array.getD_eq_getD_getElem?, Array.getElem?_setIfInBounds]
  by_cases hi : i = id
  · subst hi
    by_cases hknown : i < stamps.size
    · simp [hknown]
    · simp [hknown]
  · simp [hi]

/-! ## changes that are not refused -/

variable {k k' : Kernel} {s : Symbol}

/-- What stands behind two guards is reached when both let through. -/
theorem guarded_eq_ok_iff {α ε : Type} {b b' : Bool} {e e' : ε} {x y : α} :
    (if b then .error e else if b' then .error e' else .ok x : Except ε α) = .ok y ↔
      b = false ∧ b' = false ∧ y = x := by
  cases b <;> cases b' <;> simp [eq_comm]

/-- The attributes of a live symbol can be set, those of a protected one if that takes the
protection off. -/
theorem setAttributes_eq_ok_iff {attrs : Attributes} : k.setAttributes s attrs = .ok k' ↔
    (k.record s).removed = false ∧
      ((k.attributes s).has .isProtected && attrs.has .isProtected) = false ∧
        k' = k.storeAttributes s attrs := by
  rw [← guarded_eq_ok_iff, setAttributes, checkLive]
  cases (k.record s).removed <;> exact Iff.rfl

theorem setAttributes_eq_ok {attrs : Attributes} (h : k.setAttributes s attrs = .ok k') :
    k' = k.storeAttributes s attrs := (setAttributes_eq_ok_iff.mp h).2.2

/-- The value of a live symbol that is not protected can be set. -/
theorem setValue_eq_ok_iff {value : Option Term} : k.setValue s value = .ok k' ↔
    (k.record s).removed = false ∧ (k.attributes s).has .isProtected = false ∧
      k' = (k.updateRecord s fun r => { r with value := value }).bump := by
  rw [← guarded_eq_ok_iff, setValue, checkLive]
  cases (k.record s).removed <;> exact Iff.rfl

theorem setValue_eq_ok {value : Option Term} (h : k.setValue s value = .ok k') :
    k' = (k.updateRecord s fun r => { r with value := value }).bump := (setValue_eq_ok_iff.mp h).2.2

/-- The rules of a live symbol that is not protected can be opened for any change. -/
theorem openRules_write_eq_ok_iff {opened : Option RuleStore × Kernel} :
    k.openRules s .write = .ok opened ↔ (k.record s).removed = false ∧
      (k.attributes s).has .isProtected = false ∧ opened = openRules.made k s := by
  rw [← guarded_eq_ok_iff, openRules, checkLive]
  cases (k.record s).removed <;> exact Iff.rfl

/-- The rules of a live symbol can be opened for a change of default values. -/
theorem openRules_writeOptions_eq_ok_iff {opened : Option RuleStore × Kernel} :
    k.openRules s .writeOptions = .ok opened ↔
      (k.record s).removed = false ∧ opened = openRules.made k s := by
  rw [openRules, checkLive]
  cases (k.record s).removed with
  | true => exact ⟨fun h => (by cases h), fun h => (by cases h.1)⟩
  | false => exact ⟨fun h => ⟨rfl, (Except.ok.inj h).symm⟩, fun h => h.2 ▸ rfl⟩

/-- Opened rules are those of the symbol; absent ones may have become empty. -/
theorem openRules_eq_ok {mode : AccessMode} {opened : Option RuleStore}
    (h : k.openRules s mode = .ok (opened, k')) :
    (opened = (k.record s).rules ∧ k' = k) ∨
      ((k.record s).rules = none ∧ opened = some {} ∧
        k' = k.updateRecord s fun r => { r with rules := some {} }) := by
  have hmade : (opened, k') = openRules.made k s →
      (opened = (k.record s).rules ∧ k' = k) ∨
        ((k.record s).rules = none ∧ opened = some {} ∧
          k' = k.updateRecord s fun r => { r with rules := some {} }) := by
    intro hmade
    unfold openRules.made at hmade
    cases hrules : (k.record s).rules with
    | some store =>
        rw [hrules] at hmade
        cases hmade
        exact .inl ⟨rfl, rfl⟩
    | none =>
        rw [hrules] at hmade
        cases hmade
        exact .inr ⟨rfl, rfl, rfl⟩
  cases mode with
  | read =>
      cases h
      exact .inl ⟨rfl, rfl⟩
  | write => exact hmade (openRules_write_eq_ok_iff.mp h).2.2
  | writeOptions => exact hmade (openRules_writeOptions_eq_ok_iff.mp h).2

end Kernel

theorem run_change (f : Kernel → Except SymbolError Kernel) (k : Kernel) :
    (change f).run k =
      match f k with
      | .ok k' => (.ok (), k')
      | .error e => (.error (EvalError.symbol e), k) := by
  change (match f k with
    | .ok k' => set k'
    | .error e => throw (EvalError.symbol e) : EvalM Unit).run k = _
  cases f k <;> rfl

theorem run_openRules (s : Symbol) (mode : AccessMode) (k : Kernel) :
    (openRules s mode).run k =
      match k.openRules s mode with
      | .ok (store, k') => (.ok store, k')
      | .error e => (.error (EvalError.symbol e), k) := by
  change (match k.openRules s mode with
    | .ok (store, k') => (do set k'; return store : EvalM (Option RuleStore))
    | .error e => throw (EvalError.symbol e)).run k = _
  cases k.openRules s mode <;> rfl

end Termwise
