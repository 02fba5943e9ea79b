import Termwise.Proofs.Eval.Defining
import Termwise.Proofs.Eval.Preserved
import Termwise.Proofs.Kernel.Removed

/-!
# Termwise.Proofs.Eval.Protected

What protection protects.  As long as nothing lifts it, the attributes of a protected
symbol stay as they are, and so do its value and its rules for every use but default
values (`Kernel.SameButDefaults`): through definition calls, changes of rules in any mode,
evaluations with orderly native code, and whatever leaves symbols alone.

Only two things lift the protection of a symbol: its removal, and a change of its
attributes to some without it.
-/

namespace Termwise

namespace Kernel

/-! ## guarded changes -/

/-- The attributes and the value of a symbol read as before, and so do its rules except for default
values. -/
structure SameButDefaults (s : Symbol) (k k' : Kernel) : Prop where
  attributes : k'.attributes s = k.attributes s
  value : k'.value? s = k.value? s
  rules : ∀ cache, cache ≠ .default → k'.rules? s cache = k.rules? s cache

/-- Native code stays orderly, and if a symbol is protected then it is not changed but for default
values. -/
structure Guards (s : Symbol) (k k' : Kernel) : Prop where
  orderly : k.Orderly → k'.Orderly
  same : (k.attributes s).has .isProtected = true → SameButDefaults s k k'

variable {k k' k'' : Kernel} {s t : Symbol}

theorem SameButDefaults.refl (s : Symbol) (k : Kernel) : SameButDefaults s k k :=
  ⟨rfl, rfl, fun _ _ => rfl⟩

theorem SameButDefaults.trans (h : SameButDefaults s k k') (h' : SameButDefaults s k' k'') :
    SameButDefaults s k k'' where
  attributes := h'.attributes.trans h.attributes
  value := h'.value.trans h.value
  rules cache hcache := (h'.rules cache hcache).trans (h.rules cache hcache)

theorem SameButDefaults.of_record_eq (h : k'.record s = k.record s) : SameButDefaults s k k' where
  attributes := by rw [Kernel.attributes, h, Kernel.attributes]
  value := by rw [value?, h, value?]
  rules _ _ := by rw [rules?, h, rules?]

theorem Guards.refl (s : Symbol) (k : Kernel) : Guards s k k := ⟨id, fun _ => .refl s k⟩

theorem Guards.trans (h : Guards s k k') (h' : Guards s k' k'') : Guards s k k'' where
  orderly hk := h'.orderly (h.orderly hk)
  same hs := by
    have hsame := h.same hs
    exact hsame.trans (h'.same (by rwa [hsame.attributes]))

theorem Guards.of_symbols_eq (h : k'.symbols = k.symbols) : Guards s k k' where
  orderly hk := hk.of_symbols_eq h
  same _ := .of_record_eq (by rw [record, h]; rfl)

theorem SameReadings.guards (h : k.SameReadings k') : Guards s k k' where
  orderly hk s usage code hcode := hk s usage code (by rw [← h.code s, hcode])
  same _ := ⟨h.attributes s, h.value s, fun cache _ => h.rules s cache⟩

/-- A change of a record that adds no native code. -/
theorem Orderly.updateRecord (hk : k.Orderly) {f : SymbolRecord → SymbolRecord}
    (hcode : ∀ r usage code, (f r).code.get usage = some code → r.code.get usage = some code) :
    (k.updateRecord t f).Orderly := by
  intro s usage code hs
  rcases record_updateRecord k t s f with h | ⟨h, -⟩
  · exact hk s usage code (by rw [← h, hs])
  · exact hk s usage code (hcode _ usage code (by rw [← h, hs]))

/-- A change of a record after which the symbol reads as before if it is protected. -/
theorem guards_updateRecord {f : SymbolRecord → SymbolRecord}
    (hcode : ∀ r usage code, (f r).code.get usage = some code → r.code.get usage = some code)
    (hs : (k.attributes s).has .isProtected = true → t.id = s.id →
      SameButDefaults s k (k.updateRecord t f)) :
    Guards s k (k.updateRecord t f) where
  orderly hk := hk.updateRecord hcode
  same hprotected := by
    by_cases hid : t.id = s.id
    · exact hs hprotected hid
    · exact .of_record_eq (record_updateRecord_of_ne k f hid)

/-- Symbols with one number have the same attributes. -/
theorem attributes_eq_of_id_eq (k : Kernel) (hid : t.id = s.id) :
    k.attributes t = k.attributes s := by
  rcases Nat.lt_or_ge s.id k.symbols.size with hlt | hge
  · rw [Kernel.attributes, record_eq_of_id_eq k hlt hid, Kernel.attributes]
  · rw [attributes_of_size_le (hid ▸ hge), attributes_of_size_le hge]

/-- A change of a symbol that is not protected. -/
theorem guards_updateRecord_of_not {f : SymbolRecord → SymbolRecord}
    (ht : (k.attributes t).has .isProtected = false)
    (hcode : ∀ r usage code, (f r).code.get usage = some code → r.code.get usage = some code) :
    Guards s k (k.updateRecord t f) :=
  guards_updateRecord hcode fun hs hid => by
    rw [← k.attributes_eq_of_id_eq hid, ht] at hs
    cases hs

/-- A change of default values. -/
theorem guards_putRules_default (k : Kernel) (t : Symbol) (list : RuleList) :
    Guards s k (k.putRules t .default list) := by
  refine guards_updateRecord (fun _ _ _ h => h) fun _ _ => ?_
  rcases record_updateRecord k t s fun r =>
    { r with rules := some ((r.rules.getD {}).set .default list) } with h | ⟨h, -⟩
  · exact .of_record_eq h
  · refine ⟨?_, ?_, fun cache hcache => ?_⟩
    · rw [Kernel.attributes, h, Kernel.attributes]
    · rw [value?, h, value?]
    · rw [rules?_eq, h, rules?_eq, Option.getD_some, RuleStore.get_set_of_ne _ _ _ _ hcache.symm]

theorem guards_setValue {value : Option Term} (h : k.setValue t value = .ok k') :
    Guards s k k' := by
  obtain ⟨-, hwritable, rfl⟩ := setValue_eq_ok_iff.mp h
  exact (guards_updateRecord_of_not (f := fun r => { r with value := value }) hwritable
    fun _ _ _ h => h).trans (.of_symbols_eq rfl)

/-- Attributes are set of another symbol, of one that is not protected, or to some with the
protection; and the last is refused. -/
theorem guards_setAttributes {attrs : Attributes} (h : k.setAttributes t attrs = .ok k')
    (hlift : t.id = s.id → attrs.has .isProtected = true) : Guards s k k' := by
  obtain ⟨-, hguard, rfl⟩ := setAttributes_eq_ok_iff.mp h
  refine (guards_updateRecord (f := fun r => { r with attributes := attrs })
    (fun _ _ _ h => h) fun hs hid => ?_).trans (.of_symbols_eq rfl)
  rw [k.attributes_eq_of_id_eq hid, hs, hlift hid] at hguard
  cases hguard

/-- Another symbol is removed, or none. -/
theorem guards_remove (k : Kernel) (t : Symbol)
    (hlift : t.id = s.id → k.isRegistered t = false) : Guards s k (k.remove t).2 := by
  unfold remove
  split
  · rename_i hregistered
    have hunregister : Guards s k (k.unregister t.name) := .of_symbols_eq rfl
    refine hunregister.trans ((guards_updateRecord (t := t)
      (f := fun r => { name := r.name, removed := true }) (fun _ usage code h => ?_)
      fun _ hid => ?_).trans (.of_symbols_eq rfl))
    · cases usage <;> cases h
    · rw [hlift hid] at hregistered
      cases hregistered
  · exact .refl s k

theorem guards_intern (k : Kernel) (name : String) : Guards s k (k.intern name).2 := by
  refine ⟨fun hk s' usage code hs => ?_, fun hs => .of_record_eq ?_⟩
  · rcases record_intern k name s' with h | h
    · exact hk s' usage code (by rw [← h, hs])
    · rw [h] at hs
      cases usage <;> cases hs
  · -- a protected symbol was made before, so that the new one takes another number
    unfold intern
    split
    · rfl
    · have hlt : s.id < k.symbols.size := by
        refine Nat.lt_of_not_le fun hle => ?_
        rw [attributes_of_size_le hle] at hs
        rw [Attributes.has_none] at hs
        cases hs
      exact (record_addSymbol k name s).trans (if_neg (Nat.ne_of_lt hlt))

end Kernel

/-! ## the contract -/

/-- Whatever happens, a symbol is changed only while it is not protected. -/
def guarding (s : Symbol) : Contract := .always (Kernel.Guards s) (.refl s) .trans

/-- A protected symbol opens its rules for reading, where no list can be changed, and for default
values, where no other list can be. -/
theorem guarding_changeRules (s t : Symbol) (mode : AccessMode) (cache : RuleCache) {α : Type}
    (f : RuleList → RuleList × α) : (guarding s).Calm (changeRules t mode cache f) := by
  refine fun k => Contract.agreeFrom_changeRules f
    (fun _ _ hopen => (Kernel.sameReadings_openRules hopen).guards)
    fun store k' list hopen hrefusal => ?_
  have hput : Kernel.Guards s k' (k'.putRules t cache list) := by
    cases mode with
    | read => cases hrefusal
    | write =>
        have hwritable := (Kernel.openRules_write_eq_ok_iff.mp hopen).2.1
        rw [← (Kernel.sameReadings_openRules hopen).attributes t] at hwritable
        exact Kernel.guards_updateRecord_of_not hwritable fun _ _ _ h => h
    | writeOptions =>
        have hdefault : cache = .default := by
          by_contra hcache
          rw [AccessMode.refusal?, if_neg hcache] at hrefusal
          cases hrefusal
        rw [hdefault]
        exact k'.guards_putRules_default t list
  exact hput.trans (.of_symbols_eq rfl)

theorem defining_guarding (s : Symbol) : (guarding s).Defining :=
  Contract.defining_always .of_symbols_eq Kernel.guards_setValue (guarding_changeRules s)

/-- Where native code is orderly, an evaluation changes no definitions. -/
theorem Kernel.Orderly.guards_evaluateWith {k : Kernel} (hk : k.Orderly) (s : Symbol) (fuel : Nat)
    (c : ContextId) (t : Term) : Guards s k ((evaluateWith fuel c t).run k).2 :=
  .of_symbols_eq (hk.preserves_evaluateWith fuel c t).definitions.symbols

/-! ## runs -/

namespace Event

/-- Whether an event lifts the protection of a symbol: it is removed, or its attributes are set to
some without it. -/
def lifts (s : Symbol) (k : Kernel) : Event → Bool
  | call _ _ (.setAttributes t attrs) =>
    t.id == s.id && !attrs.has .isProtected && (k.setAttributes t attrs).isOk
  | remove t => t.id == s.id && k.isRegistered t
  | _ => false

/-- None of the events lifts the protection of a symbol when it happens. -/
def Unlifted (s : Symbol) : Kernel → List Event → Prop
  | _, [] => True
  | k, event :: events => event.lifts s k = false ∧ Unlifted s (event.apply k) events

variable {k : Kernel} {s : Symbol}

/-- One event guards a symbol unless it lifts the protection. -/
theorem guards_apply (event : Event) (hk : k.Orderly) (h : event.lifts s k = false) :
    Kernel.Guards s k (event.apply k) := by
  cases event with
  | call fuel c definition =>
      refine Contract.agreeFrom_always_iff.mp ((defining_guarding s).agreeFrom_perform c
        (fun t mode cache rule => guarding_changeRules s t mode cache _) definition (fun t => ?_)
        fun t attrs hcall => Contract.agreeFrom_change fun k' hset => ?_)
      · exact Contract.agreeFrom_always_iff.mpr (hk.guards_evaluateWith s fuel c t)
      · subst hcall
        refine Kernel.guards_setAttributes hset fun hid => ?_
        simpa [lifts, hid, hset, Except.isOk, Except.toBool] using h
  | changeRules t mode cache f =>
      exact Contract.agreeFrom_always_iff.mp (guarding_changeRules s t mode cache _ k)
  | evaluate fuel c t => exact hk.guards_evaluateWith s fuel c t
  | intern name => exact k.guards_intern name
  | remove t => exact k.guards_remove t fun hid => by simpa [lifts, hid] using h
  | aside f hf => exact .of_symbols_eq (hf k)

theorem guards_run (events : List Event) (hk : k.Orderly) (h : Unlifted s k events) :
    Kernel.Guards s k (events.foldl apply k) := by
  induction events generalizing k with
  | nil => exact .refl s k
  | cons event events ih =>
      have hstep := event.guards_apply hk h.1
      exact hstep.trans (ih (hstep.orderly hk) h.2)

end Event

variable {k : Kernel} {s : Symbol} {events : List Event}

/-- Where native code is orderly, the attributes, the value and the rules of a protected symbol
stay as they are until the protection is lifted, default values aside. -/
theorem Kernel.Orderly.sameButDefaults_run (hk : k.Orderly)
    (hs : (k.attributes s).has .isProtected = true) (h : Event.Unlifted s k events) :
    SameButDefaults s k (events.foldl Event.apply k) :=
  (Event.guards_run events hk h).same hs

/-- In a new kernel a default value of lists is accepted, a rule and a value are refused, and
attributes that keep the protection are too. -/
theorem sameButDefaults_run_list :
    let rule : Rule := Rule.make (fun _ => .none) (.app .list []) (.int 1) .delayed
    let events : List Event :=
      [.changeRules .list .writeOptions .default fun list => list.insert rule,
        .changeRules .list .writeOptions .down fun list => list.insert rule,
        .call 1 ⟨0⟩ (.assignDelayed (.app .list []) (.int 1)),
        .call 1 ⟨0⟩ (.setValue .list (some (.int 1))),
        .call 1 ⟨0⟩ (.setAttributes .list (.ofList [.isProtected, .flat]))]
    let k := events.foldl Event.apply pairKernel
    (k.rules? .list .default).isSome = true ∧ Kernel.SameButDefaults .list pairKernel k := by
  intro rule events k
  have horderly : pairKernel.Orderly := Kernel.orderly_of_all (by decide +kernel)
  refine ⟨by decide +kernel, horderly.sameButDefaults_run (by decide) ?_⟩
  exact ⟨rfl, rfl, rfl, rfl, by decide +kernel, trivial⟩

end Termwise
