import Termwise.Eval.Define
import Termwise.Kernel.SymbolTable
import Termwise.Proofs.Eval.Run
import Termwise.Proofs.Kernel.Update
import Termwise.Proofs.Rule.Tidy

/-!
# Termwise.Proofs.Rule.History

Histories of definitions.  A kernel starts out without rules, and a rule list beside
it starts out empty; from there on symbols are made and removed, attributes change,
rules are added and removed (`Reached`).

What a kernel takes part in a history by (`Kernel.Edited`):

1. its rule lists stay tidy;
2. the structure epoch never goes back;
3. while it stands still, no symbol becomes flat or orderless.
-/

namespace Termwise

namespace Kernel

/-! ## the rules of a kernel -/

/-- The list is one of a symbol, or a local one of a context. -/
def HasRules (k : Kernel) (list : RuleList) : Prop :=
  (∃ s store cache, (k.record s).rules = some store ∧ list = store.get cache) ∨
    ∃ c s, (s, list) ∈ (k.context c).localRules

/-- All rule lists of the kernel are tidy. -/
def TidyRules (k : Kernel) : Prop := ∀ list, k.HasRules list → list.Tidy

/-- What is kept from one kernel to a later one. -/
structure Edited (k k' : Kernel) : Prop where
  /-- The rule lists stay tidy. -/
  rules : k.TidyRules → k'.TidyRules
  /-- The structure epoch never goes back. -/
  epoch : k.structureEpoch ≤ k'.structureEpoch
  /-- While it stands still, no symbol becomes flat or orderless. -/
  opens : k'.structureEpoch = k.structureEpoch →
    ∀ s : Symbol, s.opensMatch k'.attributes = true → s.opensMatch k.attributes = true

variable {k k' k'' : Kernel}

theorem Edited.refl (k : Kernel) : k.Edited k := ⟨id, Nat.le_refl _, fun _ _ => id⟩

theorem Edited.trans (h : k.Edited k') (h' : k'.Edited k'') : k.Edited k'' where
  rules hk := h'.rules (h.rules hk)
  epoch := Nat.le_trans h.epoch h'.epoch
  opens heq s hs := by
    have hle := h.epoch
    have hle' := h'.epoch
    exact h.opens (by omega) s (h'.opens (by omega) s hs)

/-- A change that leaves symbols and contexts alone. -/
theorem Edited.of_eq (hsymbols : k'.symbols = k.symbols) (hcontexts : k'.contexts = k.contexts)
    (hepoch : k'.structureEpoch = k.structureEpoch) : k.Edited k' := by
  have hrecord : k'.record = k.record := by
    funext s
    simp only [record, hsymbols]
  have hcontext : k'.context = k.context := by
    funext c
    simp only [context, hcontexts]
  have hattributes : k'.attributes = k.attributes := by
    funext s
    simp only [attributes, hrecord]
  refine ⟨fun hk list hlist => hk list ?_, Nat.le_of_eq hepoch.symm, fun _ s => ?_⟩
  case refine_2 =>
    rw [hattributes]
    exact id
  simpa only [HasRules, hrecord, hcontext] using hlist

/-! ## single changes -/

/-- A change of a record that keeps its rules tidy. -/
theorem tidyRules_updateRecord {s : Symbol} {f : SymbolRecord → SymbolRecord} (hk : k.TidyRules)
    (hrules : ∀ store cache, (f (k.record s)).rules = some store → (store.get cache).Tidy) :
    (k.updateRecord s f).TidyRules := by
  rintro list (⟨s', store, cache, hstore, rfl⟩ | hlocal)
  · rcases record_updateRecord k s s' f with hs | ⟨hs, hsame⟩
    · exact hk _ (.inl ⟨s', store, cache, by rw [← hs, hstore], rfl⟩)
    · rw [hs, hsame] at hstore
      exact hrules store cache hstore
  · exact hk list (.inr hlocal)

/-- A change of a record that keeps its rules tidy and makes its symbol neither flat nor
orderless. -/
theorem edited_updateRecord (k : Kernel) (s : Symbol) {f : SymbolRecord → SymbolRecord}
    (hrules : ∀ store cache, (f (k.record s)).rules = some store → k.TidyRules →
      (store.get cache).Tidy)
    (hopens : ∀ a ∈ [Attribute.flat, .orderless], (f (k.record s)).attributes.has a = true →
      (k.record s).attributes.has a = true) :
    k.Edited (k.updateRecord s f) where
  rules hk := tidyRules_updateRecord hk fun store cache h => hrules store cache h hk
  epoch := Nat.le_refl _
  opens _ s' hs' := by
    rcases record_updateRecord k s s' f with hs | ⟨hs, hsame⟩
    · rwa [Symbol.opensMatch, attributes, hs] at hs'
    · simp only [Symbol.opensMatch, attributes, hs, hsame, Bool.or_eq_true] at hs' ⊢
      exact hs'.imp (.imp_right (hopens _ (by simp))) (hopens _ (by simp))

/-- A change of a context that keeps its local rules tidy. -/
theorem edited_updateContext (k : Kernel) (c : ContextId) {f : Context → Context}
    (hrules : ∀ s list, (s, list) ∈ (f (k.context c)).localRules → k.TidyRules → list.Tidy) :
    k.Edited (k.updateContext c f) where
  rules hk list hlist := by
    rcases hlist with hrecord | ⟨c', s, hmem⟩
    · exact hk list (.inl hrecord)
    · rcases context_updateContext k c c' f with hc | ⟨hc, hsame⟩
      · exact hk list (.inr ⟨c', s, by rwa [← hc]⟩)
      · rw [hc, hsame] at hmem
        exact hrules s list hmem hk
  epoch := Nat.le_refl _
  opens _ _ := id

theorem edited_bump (k : Kernel) : k.Edited k.bump := .of_eq rfl rfl rfl

theorem edited_share (k : Kernel) (t : Term) : k.Edited (k.share t).2 := .of_eq rfl rfl rfl

theorem edited_setLocal (k : Kernel) (c : ContextId) (s : Symbol) (value : Term) :
    k.Edited (k.setLocal c s value) :=
  (edited_updateContext k c fun s' list h hk => hk list (.inr ⟨c, s', h⟩)).trans (edited_bump _)

theorem edited_unsetLocal (k : Kernel) (c : ContextId) (s : Symbol) :
    k.Edited (k.unsetLocal c s).2 := by
  unfold unsetLocal
  split
  · exact (edited_updateContext k c fun s' list h hk => hk list (.inr ⟨c, s', h⟩)).trans
      (edited_bump _)
  · exact .refl k

/-- Local rules change by another list in the place of one. -/
theorem edited_addLocalRule (k : Kernel) (c : ContextId) (s : Symbol) {r : Rule} (hr : r.Made) :
    k.Edited (k.addLocalRule c s r) := by
  refine (edited_updateContext k c fun s' list h hk => ?_).trans (edited_bump _)
  rcases List.mem_cons.mp h with h | h
  · obtain ⟨-, rfl⟩ := Prod.mk.inj h
    refine RuleList.Tidy.insert ?_ hr
    cases hlookup : (k.context c).localRules.lookup s with
    | none => exact RuleList.tidy_empty
    | some list =>
        obtain ⟨before, after, hsplit, -⟩ := List.lookup_eq_some_iff.mp hlookup
        exact hk list (.inr ⟨c, s, by simp [hsplit]⟩)
  · exact hk list (.inr ⟨c, s', (List.mem_filter.mp h).1⟩)

/-- Rules change by another list in the place of one. -/
theorem edited_putRules (k : Kernel) (s : Symbol) (cache : RuleCache) {list : RuleList}
    (hlist : k.TidyRules → list.Tidy) : k.Edited (k.putRules s cache list) := by
  refine edited_updateRecord k s (fun store cache' hstore hk => ?_) fun _ _ => id
  cases hstore
  by_cases hc : cache = cache'
  · rw [hc, RuleStore.get_set_self]
    exact hlist hk
  · rw [RuleStore.get_set_of_ne _ _ _ _ hc]
    cases hrules : (k.record s).rules with
    | none => cases cache' <;> exact RuleList.tidy_empty
    | some store => exact hk _ (.inl ⟨s, store, cache', hrules, rfl⟩)

/-- A symbol that becomes flat or orderless moves the structure epoch. -/
theorem edited_storeAttributes (k : Kernel) (s : Symbol) (attrs : Attributes) :
    k.Edited (k.storeAttributes s attrs) := by
  have hrules : ∀ store cache, (k.record s).rules = some store → k.TidyRules →
      (store.get cache).Tidy := fun store cache h hk => hk _ (.inl ⟨s, store, cache, h, rfl⟩)
  cases hmoved : (k.attributes s).restructured attrs with
  | true =>
      refine ⟨fun hk => ?_, ?_, fun heq => ?_⟩
      · exact tidyRules_updateRecord (s := s) (f := fun r => { r with attributes := attrs }) hk
          fun store cache h => hrules store cache h hk
      · simp [storeAttributes, hmoved]
      · simp [storeAttributes, hmoved] at heq
  | false =>
      simp only [Attributes.restructured, Bool.or_eq_false_iff, bne_eq_false_iff_eq] at hmoved
      refine (edited_updateRecord k s (f := fun r => { r with attributes := attrs }) hrules
        fun a ha h => ?_).trans (.of_eq rfl rfl ?_)
      · simp only [List.mem_cons, List.not_mem_nil, or_false] at ha
        rcases ha with rfl | rfl
        · exact hmoved.1.trans h
        · exact hmoved.2.trans h
      · simp [storeAttributes, Attributes.restructured, hmoved, updateRecord]

theorem edited_setAttributes {s : Symbol} {attrs : Attributes}
    (h : k.setAttributes s attrs = .ok k') : k.Edited k' := by
  rw [setAttributes_eq_ok h]
  exact edited_storeAttributes k s attrs

theorem edited_remove (k : Kernel) (s : Symbol) : k.Edited (k.remove s).2 := by
  unfold remove
  split
  · refine .trans (.of_eq rfl rfl rfl : k.Edited (k.unregister s.name)) ?_
    refine (edited_updateRecord _ s (fun store cache h => by cases h) fun a _ ha => ?_).trans
      (edited_bump _)
    rw [Attributes.has_none] at ha
    cases ha
  · exact .refl k

theorem edited_intern (k : Kernel) (name : String) : k.Edited (k.intern name).2 := by
  have hepoch : (k.intern name).2.structureEpoch = k.structureEpoch := by
    unfold intern
    split <;> rfl
  have hcontext : (k.intern name).2.context = k.context := by
    unfold intern
    split <;> rfl
  refine ⟨fun hk => ?_, Nat.le_of_eq hepoch.symm, fun _ s hs => ?_⟩
  · rintro list (⟨s, store, cache, hstore, rfl⟩ | hlocal)
    · rcases record_intern k name s with h | h
      · exact hk _ (.inl ⟨s, store, cache, by rw [← h, hstore], rfl⟩)
      · rw [h] at hstore
        cases hstore
    · rw [hcontext] at hlocal
      exact hk list (.inr hlocal)
  · rcases record_intern k name s with h | h
    · rwa [Symbol.opensMatch, attributes, h] at hs
    · simp only [Symbol.opensMatch, attributes, h, Attributes.has_none, Bool.or_false] at hs ⊢
      simp [hs]

theorem edited_newRoot (k : Kernel) : k.Edited k.newRoot.2 := by
  refine ⟨fun hk => ?_, Nat.le_refl _, fun _ _ => id⟩
  rintro list (hrecord | ⟨c, s, hmem⟩)
  · exact hk list (.inl hrecord)
  · have hcontext : k.newRoot.2.context c = k.context c ∨ k.newRoot.2.context c = {} := by
      simp only [newRoot, context, Array.getD_eq_getD_getElem?, Array.getElem?_push]
      by_cases hc : c.index = k.contexts.size
      · simp [hc]
      · simp [hc]
    rcases hcontext with h | h
    · exact hk list (.inr ⟨c, s, by rwa [← h]⟩)
    · rw [h] at hmem
      cases hmem

end Kernel

/-! ## actions -/

namespace EvalM

variable {α β : Type}

/-- Whatever comes of it, the action leaves an edited kernel behind. -/
def Edits (x : EvalM α) : Prop := ∀ k : Kernel, k.Edited (x.run k).2

theorem edits_pure (a : α) : Edits (pure a : EvalM α) := fun k => .refl k

theorem edits_throw (e : EvalError) : Edits (throw e : EvalM α) := fun k => .refl k

theorem edits_get : Edits (get : EvalM Kernel) := fun k => .refl k

theorem edits_modify {f : Kernel → Kernel} (h : ∀ k : Kernel, k.Edited (f k)) :
    Edits (modify f : EvalM PUnit) := fun k => h k

theorem edits_modifyGet {f : Kernel → α × Kernel} (h : ∀ k : Kernel, k.Edited (f k).2) :
    Edits (modifyGet f : EvalM α) := fun k => h k

theorem edits_bind {x : EvalM α} {f : α → EvalM β} (hx : Edits x) (hf : ∀ a, Edits (f a)) :
    Edits (x >>= f) := by
  intro k
  have hk := hx k
  rcases hrun : x.run k with ⟨r, k'⟩
  rw [hrun] at hk
  cases r with
  | ok a =>
      rw [run_bind_ok hrun]
      exact hk.trans (hf a k')
  | error e =>
      rw [run_bind_error hrun]
      exact hk

theorem edits_share (t : Term) : Edits (share t) := edits_modifyGet fun k => k.edited_share t

theorem edits_change {f : Kernel → Except SymbolError Kernel}
    (h : ∀ k k' : Kernel, f k = .ok k' → k.Edited k') : Edits (change f) := by
  intro k
  rw [run_change]
  cases hf : f k with
  | ok k' => exact h k k' hf
  | error e => exact .refl k

/-- Opened rules are those of the symbol; absent ones become empty lists. -/
theorem edited_openRules {s : Symbol} {mode : AccessMode} {k k' : Kernel}
    {opened : Option RuleStore} (h : k.openRules s mode = .ok (opened, k')) :
    k.Edited k' ∧ ∀ store cache, opened = some store → k'.TidyRules → (store.get cache).Tidy := by
  have hempty : ∀ cache, (RuleStore.get {} cache).Tidy := fun cache => by
    cases cache <;> exact RuleList.tidy_empty
  rcases Kernel.openRules_eq_ok h with ⟨rfl, rfl⟩ | ⟨-, rfl, rfl⟩
  · exact ⟨.refl k', fun store cache hstore hk => hk _ (.inl ⟨s, store, cache, hstore, rfl⟩)⟩
  · refine ⟨k.edited_updateRecord s (fun store cache hstore _ => ?_) fun _ _ => id,
      fun store cache hstore _ => ?_⟩
    · cases hstore
      exact hempty cache
    · cases hstore
      exact hempty cache

/-- A change of a list that keeps lists tidy, made to the rules of a symbol. -/
theorem edits_changeRules {s : Symbol} {mode : AccessMode} {cache : RuleCache}
    {f : RuleList → RuleList × α} (h : ∀ list : RuleList, list.Tidy → (f list).1.Tidy) :
    Edits (changeRules s mode cache f) := by
  intro k
  have hrun := run_openRules s mode k
  cases hopened : k.openRules s mode with
  | error e =>
      rw [hopened] at hrun
      rw [changeRules, run_bind_error hrun]
      exact .refl k
  | ok out =>
      obtain ⟨opened, k'⟩ := out
      rw [hopened] at hrun
      obtain ⟨hedited, htidy⟩ := edited_openRules hopened
      rw [changeRules, run_bind_ok hrun]
      cases opened with
      | none => exact hedited
      | some store =>
          dsimp only
          cases mode.refusal? cache s with
          | some e => exact hedited
          | none =>
              refine hedited.trans ((k'.edited_putRules s cache fun hk => ?_).trans
                (Kernel.edited_bump _))
              exact h _ (htidy store cache rfl hk)

theorem edits_insertRule {s : Symbol} {mode : AccessMode} {cache : RuleCache} {r : Rule}
    (hr : r.Made) : Edits (insertRule s mode cache r) :=
  edits_changeRules fun _ hlist => hlist.insert hr

theorem edits_storeRule {s : Symbol} {mode : AccessMode} {cache : RuleCache} {lhs rhs : Term}
    {kind : RuleKind} : Edits (storeRule s cache mode lhs rhs kind) := by
  simp only [storeRule, makeRule, bind_assoc, pure_bind]
  refine edits_bind (edits_share lhs) fun lhs => edits_bind (edits_share rhs) fun rhs =>
    edits_bind edits_get fun k => edits_bind (edits_insertRule ?_) fun _ => edits_pure _
  exact Rule.made_make _ _ _ _

theorem edits_setValue (s : Symbol) (value : Option Term) :
    Edits (change fun k => k.setValue s value) := by
  refine edits_change fun k k' h => ?_
  rw [Kernel.setValue_eq_ok h]
  refine (k.edited_updateRecord s (f := fun r => { r with value := value })
    (fun store cache hstore hk => ?_) fun _ _ => id).trans (Kernel.edited_bump _)
  exact hk _ (.inl ⟨s, store, cache, hstore, rfl⟩)

theorem edits_definitionTarget (lhs : Term) : Edits (definitionTarget lhs) := by
  unfold definitionTarget
  split
  · exact edits_pure _
  · exact edits_throw _

/-- A definition, refused or not. -/
theorem edits_define (c : ContextId) (lhs rhs : Term) (kind : RuleKind) :
    Edits (define c lhs rhs kind) := by
  have hvalidate : Edits (validate lhs) := by
    unfold validate
    split
    · exact edits_throw _
    · exact edits_pure _
  refine edits_bind hvalidate fun _ => edits_bind (edits_definitionTarget lhs) fun (s, cache) => ?_
  refine iteInduction (motive := Edits) (fun _ => ?_) fun _ => edits_storeRule
  refine edits_bind (edits_share rhs) fun rhs => edits_bind edits_get fun k => ?_
  refine iteInduction (motive := Edits) (fun _ => ?_) fun _ => edits_setValue s _
  exact edits_modify fun k => k.edited_setLocal c s rhs

/-- A definition taken back. -/
theorem edits_unassign (c : ContextId) (lhs : Term) : Edits (unassign c lhs) := by
  refine edits_bind (edits_definitionTarget lhs) fun (s, cache) => ?_
  have hrules : ∀ cleared : Bool, Edits (do
      if ((← get).rules? s cache).isSome then
        let attrs := (← get).attributes
        let removed ← changeRules s .write cache fun list => list.remove attrs lhs
        return cleared || removed == some true
      else return cleared) := by
    intro cleared
    refine edits_bind edits_get fun k => iteInduction (motive := Edits) (fun _ => ?_)
      fun _ => edits_pure _
    refine edits_bind edits_get fun k => edits_bind (edits_changeRules fun list hlist => ?_)
      fun _ => edits_pure _
    exact hlist.remove _ lhs
  refine iteInduction (motive := Edits) (fun _ => ?_) fun _ => edits_bind (edits_pure _) hrules
  refine edits_bind edits_get fun k => iteInduction (motive := Edits) (fun _ => ?_) fun _ => ?_
  · exact edits_bind (edits_modifyGet fun k => k.edited_unsetLocal c s) fun _ =>
      edits_bind (edits_pure _) hrules
  · refine edits_bind edits_get fun k => ?_
    refine iteInduction (motive := Edits) (fun _ => ?_) fun _ => edits_bind (edits_pure _) hrules
    exact edits_bind (edits_setValue s none) fun _ => edits_bind (edits_pure _) hrules

end EvalM

/-! ## histories -/

/-- One change of what a kernel knows. -/
inductive Kernel.Change (k : Kernel) : Kernel → Prop
  /-- A context is made. -/
  | context : k.Change k.newRoot.2
  /-- A symbol is made, if it is not there. -/
  | intern (name : String) : k.Change (k.intern name).2
  /-- A symbol is removed. -/
  | remove (s : Symbol) : k.Change (k.remove s).2
  /-- The attributes of a symbol are set. -/
  | setAttributes (s : Symbol) (attrs : Attributes) (k' : Kernel) :
      k.setAttributes s attrs = .ok k' → k.Change k'
  /-- A left-hand side is defined, at once or with a delay, or refused. -/
  | define (c : ContextId) (lhs rhs : Term) (kind : RuleKind) :
      k.Change ((Termwise.define c lhs rhs kind).run k).2
  /-- What is defined for a left-hand side is removed. -/
  | unassign (c : ContextId) (lhs : Term) : k.Change ((Termwise.unassign c lhs).run k).2
  /-- A rule is added to the rules of a symbol for a use. -/
  | insertRule (s : Symbol) (mode : AccessMode) (cache : RuleCache) (r : Rule) (hr : r.Made) :
      k.Change ((Termwise.insertRule s mode cache r).run k).2
  /-- The rules with a left-hand side are removed from the rules of a symbol for a use. -/
  | removeRule (s : Symbol) (mode : AccessMode) (cache : RuleCache) (lhs : Term) :
      k.Change ((changeRules s mode cache fun list => list.remove k.attributes lhs).run k).2
  /-- A local rule of a symbol is added. -/
  | localRule (c : ContextId) (s : Symbol) (r : Rule) (hr : r.Made) :
      k.Change (k.addLocalRule c s r)

/-- What one change keeps. -/
theorem Kernel.Change.edited {k k' : Kernel} (h : k.Change k') : k.Edited k' := by
  cases h with
  | context => exact edited_newRoot k
  | intern name => exact edited_intern k name
  | remove s => exact edited_remove k s
  | setAttributes s attrs _ h => exact edited_setAttributes h
  | define c lhs rhs kind => exact EvalM.edits_define c lhs rhs kind k
  | unassign c lhs => exact EvalM.edits_unassign c lhs k
  | insertRule s mode cache r hr => exact EvalM.edits_insertRule hr k
  | removeRule s mode cache lhs =>
      exact EvalM.edits_changeRules (fun _ hlist => hlist.remove _ lhs) k
  | localRule c s r hr => exact edited_addLocalRule k c s hr

/-- A kernel, and a rule list beside it, that a history of definitions leads to. -/
inductive Reached : Kernel → RuleList → Prop
  /-- At first nothing is defined. -/
  | new (config : Config) : Reached (.new config) .empty
  /-- The kernel changes. -/
  | kernel {k k' : Kernel} {l : RuleList} (h : k.Change k') : Reached k l → Reached k' l
  /-- A rule is added to the list. -/
  | insert {k : Kernel} {l : RuleList} (r : Rule) (hr : r.Made) :
      Reached k l → Reached k (l.insert r)
  /-- The rules with a left-hand side are removed from the list. -/
  | remove {k : Kernel} {l : RuleList} (lhs : Term) :
      Reached k l → Reached k (l.remove k.attributes lhs).1
  /-- All rules are removed from the list. -/
  | clear {k : Kernel} {l : RuleList} : Reached k l → Reached k l.clear
  /-- A subject is looked up in the list. -/
  | lookup {k : Kernel} {l : RuleList} (subject : Term) :
      Reached k l → Reached k (l.ready k.attributes k.structureEpoch subject)

/-- A new kernel has no rules. -/
theorem Kernel.record_rules_new (config : Config) (s : Symbol) :
    ((Kernel.new config).record s).rules = none := by
  simp only [Kernel.new, Kernel.record, Array.getD_eq_getD_getElem?, List.getElem?_toArray,
    List.getElem?_map]
  cases Symbol.system[s.id]? <;> rfl

theorem Kernel.rules?_new (config : Config) (s : Symbol) (cache : RuleCache) :
    (Kernel.new config).newRoot.2.rules? s cache = none := by
  have hrecord : (Kernel.new config).newRoot.2.record s = (Kernel.new config).record s := rfl
  rw [rules?, hrecord, record_rules_new]
  rfl

theorem Kernel.tidyRules_new (config : Config) : (Kernel.new config).TidyRules := by
  rintro list (⟨s, store, cache, hstore, -⟩ | ⟨c, s, hmem⟩)
  · rw [record_rules_new] at hstore
    cases hstore
  · cases hmem

/-- Looking something up makes a dispatch table at most. -/
theorem RuleList.rules_ready (l : RuleList) (attrs : Symbol → Attributes) (epoch : Nat)
    (subject : Term) : (l.ready attrs epoch subject).literals = l.literals ∧
      (l.ready attrs epoch subject).patterns = l.patterns := by
  unfold ready prepared
  split
  · split
    · split <;> exact ⟨rfl, rfl⟩
    · exact ⟨rfl, rfl⟩
  · exact ⟨rfl, rfl⟩

/-- All rule lists of a history are tidy, those of the kernel and the one beside it. -/
theorem Reached.tidy {k : Kernel} {l : RuleList} (h : Reached k l) : k.TidyRules ∧ l.Tidy := by
  induction h with
  | new config => exact ⟨Kernel.tidyRules_new config, RuleList.tidy_empty⟩
  | kernel hchange _ ih => exact ⟨hchange.edited.rules ih.1, ih.2⟩
  | insert r hr _ ih => exact ⟨ih.1, ih.2.insert hr⟩
  | remove lhs _ ih => exact ⟨ih.1, ih.2.remove _ lhs⟩
  | clear _ ih => exact ⟨ih.1, RuleList.tidy_clear _⟩
  | lookup subject _ ih =>
      obtain ⟨hliterals, hpatterns⟩ := RuleList.rules_ready _ _ _ subject
      exact ⟨ih.1, ih.2.congr hliterals hpatterns⟩

end Termwise
