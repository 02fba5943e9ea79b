import Mathlib.Data.List.Nodup
import Termwise.Proofs.Kernel.Readings
import Termwise.Proofs.Kernel.Removed

/-!
# Termwise.Proofs.Kernel.Registry

What becomes of symbols.  A symbol is made when a name is asked for that stands for
nothing; from then on

```text
registered under its own name  --- remove --->  removed, for good
```

and at no point both or neither.  Its name may be taken again, its number never is; and
however the registry and old handles are used, a removed symbol gets no attributes, no
value and no rules.
-/

namespace Termwise

/-! ## operations -/

/-- An operation on the registry, or on a symbol by a handle that may be an old one. -/
inductive SymbolOp where
  /-- Find or make the symbol of a name. -/
  | intern (name : String)
  /-- Look up a name. -/
  | lookup (name : String)
  /-- Remove a symbol. -/
  | remove (s : Symbol)
  /-- Set the attributes of a symbol. -/
  | setAttributes (s : Symbol) (attrs : Attributes)
  /-- Set or clear the value of a symbol. -/
  | setValue (s : Symbol) (value : Option Term)
  /-- Open the rules of a symbol and change the list for a use. -/
  | changeRules (s : Symbol) (mode : AccessMode) (cache : RuleCache) (f : RuleList → RuleList)

namespace SymbolOp

/-- The kernel after an operation, also if it was refused. -/
def apply (k : Kernel) : SymbolOp → Kernel
  | intern name => (k.intern name).2
  | lookup _ => k
  | remove s => (k.remove s).2
  | setAttributes s attrs => ((change fun k => k.setAttributes s attrs).run k).2
  | setValue s value => ((change fun k => k.setValue s value).run k).2
  | changeRules s mode cache f =>
    ((Termwise.changeRules s mode cache fun list => (f list, ())).run k).2

/-- The symbols that an operation makes. -/
def makes (k : Kernel) : SymbolOp → List Symbol
  | intern name => if (k.lookup? name).isNone then [(k.intern name).1] else []
  | _ => []

end SymbolOp

/-- A kernel, with all symbols made so far in the order of their making. -/
structure Roster where
  kernel : Kernel
  made : List Symbol

namespace Roster

/-- The roster after an operation. -/
def step (g : Roster) (op : SymbolOp) : Roster :=
  ⟨op.apply g.kernel, g.made ++ op.makes g.kernel⟩

/-- The roster after operations. -/
def run (g : Roster) (ops : List SymbolOp) : Roster := ops.foldl step g

/-- Runs start where there are no symbols yet, or with a new kernel. -/
inductive Start : Roster → Prop
  | empty {k : Kernel} : k.symbols = #[] → k.registry = [] → Start ⟨k, []⟩
  | new (config : Config) : Start ⟨.new config, Symbol.system⟩

end Roster

/-! ## operations that make and remove nothing -/

namespace Kernel

/-- No symbol is made, removed, renamed or given anything that it had lost. -/
structure SameRoll (k k' : Kernel) : Prop where
  size : k'.symbols.size = k.symbols.size
  registry : k'.registry = k.registry
  name : ∀ s, (k'.record s).name = (k.record s).name
  removed : ∀ s, (k'.record s).removed = (k.record s).removed
  gone : ∀ s, k.Gone s → k'.Gone s

variable {k k' k'' : Kernel} {s : Symbol}

theorem SameRoll.refl (k : Kernel) : k.SameRoll k :=
  ⟨rfl, rfl, fun _ => rfl, fun _ => rfl, fun _ => id⟩

theorem SameRoll.trans (h : k.SameRoll k') (h' : k'.SameRoll k'') : k.SameRoll k'' where
  size := h'.size.trans h.size
  registry := h'.registry.trans h.registry
  name s := (h'.name s).trans (h.name s)
  removed s := (h'.removed s).trans (h.removed s)
  gone s hs := h'.gone s (h.gone s hs)

theorem sameRoll_bump (k : Kernel) : k.SameRoll k.bump :=
  ⟨rfl, rfl, fun _ => rfl, fun _ => rfl, fun _ => id⟩

/-- A change of a record that is no removal. -/
theorem sameRoll_updateRecord (k : Kernel) (s : Symbol) {f : SymbolRecord → SymbolRecord}
    (hname : ∀ r, (f r).name = r.name) (hremoved : ∀ r, (f r).removed = r.removed)
    (hgone : ∀ s', k.Gone s' → (k.updateRecord s f).Gone s') :
    k.SameRoll (k.updateRecord s f) where
  size := Array.size_modify
  registry := rfl
  name s' := by
    rcases record_updateRecord k s s' f with h | ⟨h, -⟩
    · rw [h]
    · rw [h, hname]
  removed s' := by
    rcases record_updateRecord k s s' f with h | ⟨h, -⟩
    · rw [h]
    · rw [h, hremoved]
  gone := hgone

theorem sameRoll_setAttributes {attrs : Attributes} (h : k.setAttributes s attrs = .ok k') :
    k.SameRoll k' := by
  have hgone := (buries_setAttributes h).gone
  rw [setAttributes_eq_ok h] at hgone ⊢
  exact (sameRoll_updateRecord k s (f := fun r => { r with attributes := attrs })
    (fun _ => rfl) (fun _ => rfl) hgone).trans
      ⟨rfl, rfl, fun _ => rfl, fun _ => rfl, fun _ => id⟩

theorem sameRoll_setValue {value : Option Term} (h : k.setValue s value = .ok k') :
    k.SameRoll k' := by
  have hgone := (buries_setValue h).gone
  rw [setValue_eq_ok h] at hgone ⊢
  exact (sameRoll_updateRecord k s (f := fun r => { r with value := value })
    (fun _ => rfl) (fun _ => rfl) hgone).trans (sameRoll_bump _)

theorem sameRoll_openRules {mode : AccessMode} {opened : Option RuleStore}
    (h : k.openRules s mode = .ok (opened, k')) : k.SameRoll k' := by
  have hgone := (buries_openRules h).gone
  rcases openRules_eq_ok h with ⟨-, rfl⟩ | ⟨-, -, rfl⟩
  · exact .refl k'
  · exact sameRoll_updateRecord k s (fun _ => rfl) (fun _ => rfl) hgone

theorem sameRoll_putRules (hs : ¬k.Gone s) (cache : RuleCache) (list : RuleList) :
    k.SameRoll (k.putRules s cache list) :=
  sameRoll_updateRecord k s (fun _ => rfl) (fun _ => rfl) (buries_putRules hs cache list).gone

end Kernel

theorem sameRoll_change {f : Kernel → Except SymbolError Kernel} {k : Kernel}
    (hf : ∀ k', f k = .ok k' → k.SameRoll k') : k.SameRoll ((change f).run k).2 := by
  rw [run_change]
  cases h : f k with
  | ok k' => exact hf k' h
  | error e => exact .refl k

theorem sameRoll_changeRules {α : Type} (s : Symbol) (mode : AccessMode) (cache : RuleCache)
    (f : RuleList → RuleList × α) (k : Kernel) :
    k.SameRoll ((changeRules s mode cache f).run k).2 := by
  rw [run_changeRules]
  cases hopen : k.openRules s mode with
  | error e => exact .refl k
  | ok opened =>
      obtain ⟨store, k'⟩ := opened
      have hopened : k.SameRoll k' := Kernel.sameRoll_openRules hopen
      cases store with
      | none => exact hopened
      | some store =>
          dsimp only
          cases mode.refusal? cache s with
          | some e => exact hopened
          | none =>
              exact hopened.trans ((Kernel.sameRoll_putRules
                (Kernel.not_gone_of_openRules hopen) cache _).trans (Kernel.sameRoll_bump _))

/-! ## the invariant -/

namespace Roster

variable {g : Roster} {s : Symbol}

/-- The registry, the records of symbols and the symbols made so far fit together. -/
structure Sound (g : Roster) : Prop where
  ids : g.made.map (·.id) = List.range g.kernel.symbols.size
  name : ∀ s ∈ g.made, (g.kernel.record s).name = s.name
  /-- No name is listed twice. -/
  keys : (g.kernel.registry.map (·.1)).Nodup
  /-- What is listed is a symbol that was made and is live, under its own name. -/
  entry : ∀ e ∈ g.kernel.registry,
    e.2 ∈ g.made ∧ e.2.name = e.1 ∧ (g.kernel.record e.2).removed = false
  /-- Live symbols are listed. -/
  live : ∀ s ∈ g.made, (g.kernel.record s).removed = false → (s.name, s) ∈ g.kernel.registry
  gone : ∀ s, (g.kernel.record s).removed = true → g.kernel.Gone s

theorem Sound.id_lt (h : g.Sound) (hs : s ∈ g.made) : s.id < g.kernel.symbols.size := by
  have hid : s.id ∈ List.range g.kernel.symbols.size := h.ids ▸ List.mem_map_of_mem hs
  exact List.mem_range.mp hid

theorem Sound.nodup_ids (h : g.Sound) : (g.made.map (·.id)).Nodup := by
  rw [h.ids]
  exact List.nodup_range

/-- A name stands for a symbol exactly if the registry lists it so. -/
theorem Sound.lookup?_eq_some_iff (h : g.Sound) {name : String} :
    g.kernel.lookup? name = some s ↔ (name, s) ∈ g.kernel.registry := by
  rw [Kernel.lookup?, List.lookup_eq_some_iff]
  constructor
  · rintro ⟨before, after, hsplit, -⟩
    rw [hsplit]
    exact List.mem_append_right before List.mem_cons_self
  · intro hmem
    obtain ⟨before, after, hsplit⟩ := List.append_of_mem hmem
    refine ⟨before, after, hsplit, fun e he => bne_iff_ne.mpr fun hname => ?_⟩
    have hkeys := h.keys
    rw [hsplit, List.map_append, List.map_cons, List.nodup_append] at hkeys
    exact hkeys.2.2 e.1 (List.mem_map_of_mem he) name List.mem_cons_self hname.symm

/-- The roster stays sound where no symbol is made or removed. -/
theorem Sound.of_sameRoll (h : g.Sound) {k' : Kernel} (hk : g.kernel.SameRoll k') :
    Sound ⟨k', g.made⟩ where
  ids := by rw [hk.size]; exact h.ids
  name s hs := (hk.name s).trans (h.name s hs)
  keys := by rw [hk.registry]; exact h.keys
  entry e he := by
    rw [hk.registry] at he
    obtain ⟨hmade, hname, hlive⟩ := h.entry e he
    exact ⟨hmade, hname, (hk.removed e.2).trans hlive⟩
  live s hs hlive := by
    rw [hk.registry]
    exact h.live s hs ((hk.removed s).symm.trans hlive)
  gone s hremoved := hk.gone s (h.gone s ((hk.removed s).symm.trans hremoved))

/-- A new symbol takes a free name and the next number. -/
theorem Sound.addSymbol (h : g.Sound) {name : String} (hfree : g.kernel.lookup? name = none) :
    Sound ⟨g.kernel.addSymbol name, g.made ++ [⟨g.kernel.symbols.size, name⟩]⟩ := by
  have hold : ∀ s ∈ g.made, (g.kernel.addSymbol name).record s = g.kernel.record s :=
    fun s hs => by rw [Kernel.record_addSymbol, if_neg (Nat.ne_of_lt (h.id_lt hs))]
  have hnew : (g.kernel.addSymbol name).record ⟨g.kernel.symbols.size, name⟩ = { name := name } := by
    rw [Kernel.record_addSymbol, if_pos rfl]
  constructor
  case ids =>
    change _ = List.range (g.kernel.symbols.push _).size
    rw [Array.size_push, List.range_succ, List.map_append, h.ids]
    rfl
  case name =>
    intro s hs
    rcases List.mem_append.mp hs with hs | hs
    · exact (congrArg SymbolRecord.name (hold s hs)).trans (h.name s hs)
    · rw [List.mem_singleton.mp hs, hnew]
  case keys =>
    refine List.nodup_cons.mpr ⟨fun hmem => ?_, h.keys⟩
    obtain ⟨e, he, hname⟩ := List.mem_map.mp hmem
    exact bne_iff_ne.mp (List.lookup_eq_none_iff.mp hfree e he) hname.symm
  case entry =>
    intro e he
    rcases List.mem_cons.mp he with rfl | he
    · exact ⟨List.mem_append_right _ List.mem_cons_self, rfl, congrArg SymbolRecord.removed hnew⟩
    · obtain ⟨hmade, hname, hlive⟩ := h.entry e he
      exact ⟨List.mem_append_left _ hmade, hname,
        (congrArg SymbolRecord.removed (hold e.2 hmade)).trans hlive⟩
  case live =>
    intro s hs hlive
    rcases List.mem_append.mp hs with hs | hs
    · rw [hold s hs] at hlive
      exact List.mem_cons_of_mem _ (h.live s hs hlive)
    · rw [List.mem_singleton.mp hs]
      exact List.mem_cons_self
  case gone =>
    intro s hremoved
    rw [Kernel.record_addSymbol] at hremoved
    split at hremoved
    · cases hremoved
    · exact (g.kernel.buries_addSymbol name).gone s (h.gone s hremoved)

/-- A registered symbol that is removed leaves the registry and loses its definitions. -/
theorem Sound.remove (h : g.Sound) (hs : g.kernel.lookup? s.name = some s) :
    Sound ⟨(g.kernel.unregister s.name).markRemoved s, g.made⟩ := by
  have hlisted : (s.name, s) ∈ g.kernel.registry := h.lookup?_eq_some_iff.mp hs
  have hmade : s ∈ g.made := (h.entry _ hlisted).1
  have hother : ∀ s', s'.id ≠ s.id →
      ((g.kernel.unregister s.name).markRemoved s).record s' = g.kernel.record s' :=
    fun s' hne => Kernel.record_updateRecord_of_ne _ _ hne.symm
  have hself : ∀ s', s'.id = s.id → ((g.kernel.unregister s.name).markRemoved s).record s' =
      { name := (g.kernel.record s).name, removed := true } := fun s' hid => by
    have hlt : s.id < (g.kernel.unregister s.name).symbols.size := h.id_lt hmade
    have hchanged : ((g.kernel.unregister s.name).markRemoved s).record s =
        { name := (g.kernel.record s).name, removed := true } :=
      Kernel.record_updateRecord_self _ _ hlt
    rw [← hchanged]
    refine Kernel.record_eq_of_id_eq _ ?_ hid
    change s.id < (g.kernel.symbols.modify _ _).size
    rwa [Array.size_modify]
  have heq : ∀ s' ∈ g.made, s'.id = s.id → s' = s := fun s' hs' hid =>
    List.inj_on_of_nodup_map h.nodup_ids hs' hmade hid
  constructor
  case ids =>
    change _ = List.range (g.kernel.symbols.modify _ _).size
    rw [Array.size_modify]
    exact h.ids
  case name =>
    intro s' hs'
    by_cases hid : s'.id = s.id
    · rw [hself s' hid, heq s' hs' hid]
      exact h.name s hmade
    · rw [hother s' hid]
      exact h.name s' hs'
  case keys => exact h.keys.sublist (List.filter_sublist.map _)
  case entry =>
    intro e he
    obtain ⟨he, hne⟩ := List.mem_filter.mp he
    obtain ⟨hmade', hname, hlive⟩ := h.entry e he
    have hid : e.2.id ≠ s.id := fun hid => by
      rw [heq e.2 hmade' hid] at hname
      exact bne_iff_ne.mp hne hname.symm
    exact ⟨hmade', hname, (congrArg SymbolRecord.removed (hother e.2 hid)).trans hlive⟩
  case live =>
    intro s' hs' hlive
    by_cases hid : s'.id = s.id
    · rw [hself s' hid] at hlive
      cases hlive
    · rw [hother s' hid] at hlive
      have hlisted' := h.live s' hs' hlive
      refine List.mem_filter.mpr ⟨hlisted', bne_iff_ne.mpr fun hname => hid ?_⟩
      have hsame := List.inj_on_of_nodup_map h.keys hlisted' hlisted hname
      rw [(Prod.mk.inj hsame).2]
  case gone =>
    intro s' hremoved
    by_cases hid : s'.id = s.id
    · rw [Kernel.Gone, hself s' hid]
      exact ⟨rfl, rfl, rfl, rfl⟩
    · rw [hother s' hid] at hremoved
      rw [Kernel.Gone, hother s' hid]
      exact h.gone s' hremoved

/-! ## runs -/

theorem Sound.step (h : g.Sound) (op : SymbolOp) : (g.step op).Sound := by
  have hquiet : op.makes g.kernel = [] → (Roster.mk (op.apply g.kernel) g.made).Sound →
      (g.step op).Sound := by
    intro hnone hsound
    rwa [Roster.step, hnone, List.append_nil]
  cases op with
  | intern name =>
      cases hname : g.kernel.lookup? name with
      | some s =>
          refine hquiet (by rw [SymbolOp.makes, hname]; rfl) ?_
          rw [SymbolOp.apply, Kernel.intern, hname]
          exact h
      | none =>
          rw [Roster.step, SymbolOp.apply, SymbolOp.makes,
            Kernel.intern_of_lookup?_eq_none hname, hname]
          exact h.addSymbol hname
  | lookup name => exact hquiet rfl h
  | remove s =>
      refine hquiet rfl ?_
      rw [SymbolOp.apply, Kernel.remove]
      split
      · rename_i hregistered
        exact h.remove (beq_iff_eq.mp hregistered)
      · exact h
  | setAttributes s attrs =>
      exact hquiet rfl (h.of_sameRoll (sameRoll_change fun k' => Kernel.sameRoll_setAttributes))
  | setValue s value =>
      exact hquiet rfl (h.of_sameRoll (sameRoll_change fun k' => Kernel.sameRoll_setValue))
  | changeRules s mode cache f =>
      exact hquiet rfl (h.of_sameRoll (sameRoll_changeRules s mode cache _ g.kernel))

theorem Sound.run (h : g.Sound) (ops : List SymbolOp) : (g.run ops).Sound := by
  induction ops generalizing g with
  | nil => exact h
  | cons op ops ih => exact ih (h.step op)

/-- Runs start with sound rosters. -/
theorem Start.sound (h : g.Start) : g.Sound := by
  cases h with
  | @empty k hsymbols hregistry =>
      have hsize : k.symbols.size = 0 := by rw [hsymbols]; rfl
      refine ⟨by rw [hsize]; rfl, nofun, by rw [hregistry]; exact List.nodup_nil, ?_, nofun, ?_⟩
      · rw [hregistry]
        exact nofun
      · intro s hremoved
        rw [Kernel.record_of_size_le (by rw [hsize]; exact Nat.zero_le _)] at hremoved
        cases hremoved
  | new config =>
      have hremoved : ∀ s, ((Kernel.new config).record s).removed = false := fun s => by
        rcases Kernel.record_new config s with h | ⟨s', h⟩ <;> rw [h]
      have hname : ∀ s ∈ Symbol.system, ((Kernel.new {}).record s).name = s.name := by decide
      have hkeys : ((Symbol.system.map fun s => (s.name, s)).map (·.1)).Nodup := by decide
      refine ⟨Symbol.id_system, hname, hkeys, fun e he => ?_, fun s hs _ => ?_, fun s hs => ?_⟩
      · obtain ⟨s, hs, rfl⟩ := List.mem_map.mp he
        exact ⟨hs, rfl, hremoved s⟩
      · exact List.mem_map_of_mem (f := fun s : Symbol => (s.name, s)) hs
      · rw [hremoved s] at hs
        cases hs

/-- What is gone stays gone. -/
theorem gone_step (h : g.kernel.Gone s) (op : SymbolOp) : (g.step op).kernel.Gone s := by
  cases op with
  | intern name => exact (g.kernel.buries_intern name).gone s h
  | lookup name => exact h
  | remove s' => exact (g.kernel.buries_remove s').gone s h
  | setAttributes s' attrs =>
      exact (sameRoll_change fun k' => Kernel.sameRoll_setAttributes).gone s h
  | setValue s' value => exact (sameRoll_change fun k' => Kernel.sameRoll_setValue).gone s h
  | changeRules s' mode cache f => exact (sameRoll_changeRules s' mode cache _ g.kernel).gone s h

theorem gone_run (h : g.kernel.Gone s) (ops : List SymbolOp) : (g.run ops).kernel.Gone s := by
  induction ops generalizing g with
  | nil => exact h
  | cons op ops ih => exact ih (gone_step h op)

/-- Every symbol ever made is registered, under its own name and no other, exactly as long as it has
not been removed; only such symbols are registered, no two of them with one name; and no two symbols
share a number. -/
structure Kept (g : Roster) : Prop where
  name : ∀ s ∈ g.made, (g.kernel.record s).name = s.name
  registered_iff : ∀ s ∈ g.made, ∀ name,
    g.kernel.lookup? name = some s ↔ s.name = name ∧ (g.kernel.record s).removed = false
  made : ∀ name s, g.kernel.lookup? name = some s → s ∈ g.made
  nodup_names : (g.kernel.registry.map (·.2.name)).Nodup
  nodup_ids : (g.made.map (·.id)).Nodup

theorem Sound.kept (h : g.Sound) : g.Kept where
  name := h.name
  registered_iff s hs name := by
    rw [h.lookup?_eq_some_iff]
    constructor
    · intro he
      exact ⟨(h.entry _ he).2.1, (h.entry _ he).2.2⟩
    · rintro ⟨rfl, hlive⟩
      exact h.live s hs hlive
  made name s hs := (h.entry _ (h.lookup?_eq_some_iff.mp hs)).1
  nodup_names := by
    have hnames : g.kernel.registry.map (·.2.name) = g.kernel.registry.map (·.1) :=
      List.map_congr_left fun e he => (h.entry e he).2.1
    rw [hnames]
    exact h.keys
  nodup_ids := h.nodup_ids

end Roster

/-- A removed symbol is registered under no name and has no attributes, no value and no rules. -/
structure Kernel.Forgotten (k : Kernel) (s : Symbol) : Prop where
  removed : (k.record s).removed = true
  unregistered : ∀ name, k.lookup? name ≠ some s
  attributes : k.attributes s = .none
  value : k.value? s = none
  rules : ∀ cache, k.rules? s cache = none

/-- At every point of every run, each symbol ever made is registered under its own name or removed,
and not both; and one that was removed stays forgotten from then on. -/
theorem Roster.Start.run_lifecycle {g : Roster} (h : g.Start) (ops : List SymbolOp) :
    (g.run ops).Kept ∧
      ∀ s ∈ (g.run ops).made, ((g.run ops).kernel.record s).removed = true →
        ∀ later : List SymbolOp, ((g.run ops).run later).kernel.Forgotten s := by
  have hsound := h.sound.run ops
  refine ⟨hsound.kept, fun s hs hremoved later => ?_⟩
  have hgone : ((g.run ops).run later).kernel.Gone s := gone_run (hsound.gone s hremoved) later
  refine ⟨hgone.removed, fun name hname => ?_, hgone.attributes, hgone.value, hgone.rules?⟩
  have hentry := (hsound.run later).entry _ ((hsound.run later).lookup?_eq_some_iff.mp hname)
  rw [hgone.removed] at hentry
  cases hentry.2.2

/-- After `x` was removed and its name taken by another symbol, a value for the first one is refused
for good. -/
theorem Roster.run_lifecycle_name_taken :
    let x : Symbol := ⟨38, "x"⟩
    let g := (Roster.mk (.new {}) Symbol.system).run [.intern "x", .remove x, .intern "x"]
    g.kernel.lookup? "x" = some ⟨39, "x"⟩ ∧
      (g.run [.setValue x (some (.int 1))]).kernel.Forgotten x := by
  intro x g
  have hlife := (Roster.Start.new {}).run_lifecycle [.intern "x", .remove x, .intern "x"]
  exact ⟨by decide +kernel, hlife.2 x (by decide +kernel) (by decide +kernel) _⟩

end Termwise
