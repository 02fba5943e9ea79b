import Termwise.Proofs.Kernel.Removed
import Termwise.Proofs.Pattern.FirstSolution
import Termwise.Proofs.Rule.Tidy
import Termwise.Rule.Store

/-!
# Termwise.Proofs.Kernel.Plain

Kernels in which nothing is evaluated but inside calls (`Kernel.Plain`).  Three things
evaluate without a call around them, which the nesting depth does not see:

1. the tests and the left-out arguments of a rule for a symbol itself;
2. the left-out arguments of a default value;
3. whatever native code may define of these while it runs.

A plain kernel has none of them.  What an evaluation that has ended leaves as it was
(`Kernel.Keeps`) is the configuration, the nesting depth of every context, and that the
kernel is plain.  A change that opens no context and moves no depth leaves more of it
(`Kernel.Stays`).
-/

namespace Termwise

/-! ## plain rules -/

/-- Whether a rule for a use is plain: a rule for a symbol itself evaluates nothing when it is
applied, and a default value asks for no default. -/
def RuleCache.Plain (cache : RuleCache) (lhs rhs : Term) : Prop :=
  match cache with
  | .own => (Pattern.ofTerm lhs).Every (Pattern.Settled False) ∧ Rule.isConditional rhs = false
  | .default => (Pattern.ofTerm lhs).Every (Pattern.Settled True)
  | _ => True

namespace RuleList

/-- A condition on the two sides holds of all rules that a lookup may try. -/
structure All (q : Term → Term → Prop) (l : RuleList) : Prop where
  rules : ∀ r ∈ l.rules, q r.lhs r.rhs
  demoted : ∀ t, l.table = some t → ∀ r ∈ t.demoted, q r.lhs r.rhs

variable {q : Term → Term → Prop} {l : RuleList}

theorem all_true (l : RuleList) : l.All fun _ _ => True :=
  ⟨fun _ _ => trivial, fun _ _ _ _ => trivial⟩

theorem all_empty : empty.All q := by
  constructor <;> simp [empty, rules]

/-- A table that is made now lists rules with sides of the list. -/
theorem All.makeTable (h : l.All q) (attrs : Symbol → Attributes) (epoch : Nat) :
    ({ l with table := some (l.makeTable attrs epoch) } : RuleList).All q where
  rules := h.rules
  demoted t ht r hr := by
    cases ht
    obtain ⟨r', hr', rfl⟩ := List.mem_map.mp hr
    exact h.rules r' (List.mem_append_left _ (List.mem_filter.mp hr').1)

theorem All.ready (h : l.All q) (attrs : Symbol → Attributes) (epoch : Nat) (subject : Term) :
    (l.ready attrs epoch subject).All q := by
  unfold RuleList.ready prepared
  split
  · split
    · split
      · exact h
      · exact h.makeTable attrs epoch
    · exact h.makeTable attrs epoch
  · exact h

theorem All.candidates (h : l.All q) {subject : Term} {r : Rule} (hr : r ∈ l.candidates subject) :
    q r.lhs r.rhs := by
  have hpattern : ∀ r ∈ l.patterns, q r.lhs r.rhs := fun r hr =>
    h.rules r (List.mem_append_right _ hr)
  unfold RuleList.candidates at hr
  split at hr
  · rename_i t ht
    rcases List.mem_append.mp hr with hr | hr
    · exact h.demoted t ht r hr
    · obtain ⟨i, -, hi⟩ := List.mem_filterMap.mp hr
      exact hpattern r (List.mem_of_getElem? hi)
  · exact hpattern r hr

theorem All.insert (h : l.All q) {r : Rule} (hr : q r.lhs r.rhs) : (l.insert r).All q := by
  refine ⟨fun s hs => ?_, fun t ht => ?_⟩
  · obtain ⟨before, after, hsplit, hmem⟩ := l.insert_split r
    rw [hsplit] at hs
    rcases List.mem_append.mp hs with hs | hs
    · exact h.rules s (hmem s (List.mem_append_left _ hs))
    · rcases List.mem_cons.mp hs with rfl | hs
      · exact hr
      · exact h.rules s (hmem s (List.mem_append_right _ hs))
  · rw [RuleList.insert] at ht
    split at ht <;> cases ht

theorem All.remove (h : l.All q) (attrs : Symbol → Attributes) (lhs : Term) :
    (l.remove attrs lhs).1.All q := by
  rw [RuleList.remove]
  refine iteInduction (motive := fun x : RuleList × Bool => x.1.All q) (fun _ => h) fun _ =>
    ⟨fun r hr => ?_, fun t ht => by cases ht⟩
  rcases List.mem_append.mp hr with hr | hr
  · exact h.rules r (List.mem_append_left _ (List.mem_filter.mp hr).1)
  · exact h.rules r (List.mem_append_right _ (List.mem_filter.mp hr).1)

end RuleList

namespace Kernel

/-! ## plain kernels -/

/-- Nothing is evaluated but inside calls, and native code does not change that. -/
structure Plain (k : Kernel) : Prop where
  rules : ∀ s store cache, (k.record s).rules = some store → (store.get cache).All cache.Plain
  code : ∀ s usage kind, (k.record s).code.get usage ≠ some (.assign kind)

/-- What an evaluation leaves as it was when it has ended. -/
structure Keeps (k k' : Kernel) : Prop where
  config : k'.config = k.config
  /-- No context is lost. -/
  size : k.contexts.size ≤ k'.contexts.size
  depth : ∀ c : ContextId, c.index < k.contexts.size → k'.depth c = k.depth c
  plain : k.Plain → k'.Plain

/-- What a change that is no evaluation leaves as it was. -/
structure Stays (k k' : Kernel) : Prop where
  config : k'.config = k.config
  /-- No context is made or lost. -/
  size : k'.contexts.size = k.contexts.size
  depth : ∀ c, k'.depth c = k.depth c
  plain : k.Plain → k'.Plain
  buries : k.Buries k'

variable {k k' k'' : Kernel}

theorem Plain.rules? (h : k.Plain) {s : Symbol} {cache : RuleCache} {list : RuleList}
    (hlist : k.rules? s cache = some list) : list.All cache.Plain := by
  unfold Kernel.rules? at hlist
  obtain ⟨store, hstore, hlist⟩ := Option.bind_eq_some_iff.mp hlist
  dsimp only at hlist
  split at hlist
  · cases hlist
  · cases hlist
    exact h.rules s store cache hstore

theorem Keeps.refl (k : Kernel) : k.Keeps k := ⟨rfl, Nat.le_refl _, fun _ _ => rfl, id⟩

theorem Keeps.trans (h : k.Keeps k') (h' : k'.Keeps k'') : k.Keeps k'' where
  config := h'.config.trans h.config
  size := Nat.le_trans h.size h'.size
  depth c hc := (h'.depth c (Nat.lt_of_lt_of_le hc h.size)).trans (h.depth c hc)
  plain hk := h'.plain (h.plain hk)

theorem Stays.refl (k : Kernel) : k.Stays k := ⟨rfl, rfl, fun _ => rfl, id, .refl k⟩

theorem Stays.trans (h : k.Stays k') (h' : k'.Stays k'') : k.Stays k'' where
  config := h'.config.trans h.config
  size := h'.size.trans h.size
  depth c := (h'.depth c).trans (h.depth c)
  plain hk := h'.plain (h.plain hk)
  buries := h.buries.trans h'.buries

theorem Stays.keeps (h : k.Stays k') : k.Keeps k' :=
  ⟨h.config, Nat.le_of_eq h.size.symm, fun c _ => h.depth c, h.plain⟩

/-- A new kernel is plain. -/
theorem plain_new (config : Config) : (new config).Plain := by
  have hcode : ∀ (s : Symbol) usage kind, s.initialCode.get usage ≠ some (.assign kind) := by
    intro s usage kind
    unfold Symbol.initialCode
    repeat' split
    all_goals cases usage <;> exact nofun
  refine ⟨fun s store cache hstore => ?_, fun s usage kind => ?_⟩
  · rcases record_new config s with h | ⟨s', h⟩ <;> rw [h] at hstore <;> cases hstore
  · rcases record_new config s with h | ⟨s', h⟩ <;> rw [h]
    · cases usage <;> exact nofun
    · exact hcode s' usage kind

/-! ## single changes -/

theorem Plain.of_symbols_eq (hk : k.Plain) (h : k'.symbols = k.symbols) : k'.Plain := by
  have hrecord : k'.record = k.record := by
    funext s
    simp only [record, h]
  exact ⟨by rw [hrecord]; exact hk.rules, by rw [hrecord]; exact hk.code⟩

/-- A change that leaves symbols, contexts and configuration alone. -/
theorem Stays.of_eq (hsymbols : k'.symbols = k.symbols) (hcontexts : k'.contexts = k.contexts)
    (hconfig : k'.config = k.config) : k.Stays k' where
  config := hconfig
  size := congrArg Array.size hcontexts
  depth c := by simp only [Kernel.depth, context, hcontexts]
  plain hk := hk.of_symbols_eq hsymbols
  buries := .of_symbols_eq hsymbols

/-- A change of a context that leaves its depth alone. -/
theorem stays_updateContext (k : Kernel) (c : ContextId) {f : Context → Context}
    (h : ∀ x, (f x).depth = x.depth) : k.Stays (k.updateContext c f) where
  config := rfl
  size := by simp [updateContext]
  depth c' := context_updateContext_of_eq k c c' h
  plain hk := hk.of_symbols_eq rfl
  buries := .of_symbols_eq rfl

/-- A change of a record that buries, after which its rules and its code are plain. -/
theorem stays_updateRecord (k : Kernel) (s : Symbol) {f : SymbolRecord → SymbolRecord}
    (hburies : k.Buries (k.updateRecord s f))
    (hrules : k.Plain → ∀ store cache, (f (k.record s)).rules = some store →
      (store.get cache).All cache.Plain)
    (hcode : k.Plain → ∀ usage kind, (f (k.record s)).code.get usage ≠ some (.assign kind)) :
    k.Stays (k.updateRecord s f) where
  config := rfl
  size := rfl
  depth _ := rfl
  plain hk := by
    refine ⟨fun s' store cache hstore => ?_, fun s' usage kind => ?_⟩
    · rcases record_updateRecord k s s' f with h | ⟨h, hsame⟩
      · exact hk.rules s' store cache (by rw [← h, hstore])
      · rw [h, hsame] at hstore
        exact hrules hk store cache hstore
    · rcases record_updateRecord k s s' f with h | ⟨h, hsame⟩
      · rw [h]
        exact hk.code s' usage kind
      · rw [h, hsame]
        exact hcode hk usage kind
  buries := hburies

/-- A change of a record that buries and leaves its rules and its code alone. -/
theorem stays_updateRecord_of_eq (k : Kernel) (s : Symbol) {f : SymbolRecord → SymbolRecord}
    (hburies : k.Buries (k.updateRecord s f)) (hrules : (f (k.record s)).rules = (k.record s).rules)
    (hcode : (f (k.record s)).code = (k.record s).code) : k.Stays (k.updateRecord s f) :=
  stays_updateRecord k s hburies
    (fun hk store cache h => hk.rules s store cache (by rw [← hrules, h]))
    fun hk usage kind => by rw [hcode]; exact hk.code s usage kind

theorem stays_bump (k : Kernel) : k.Stays k.bump := .of_eq rfl rfl rfl

theorem stays_share (k : Kernel) (t : Term) : k.Stays (k.share t).2 := .of_eq rfl rfl rfl

theorem stays_elapse (k : Kernel) (n : Nat) : k.Stays (k.elapse n) := .of_eq rfl rfl rfl

theorem stays_addMessage (k : Kernel) (s : Symbol) (tag : String) (args : List Term) :
    k.Stays (k.addMessage s tag args) := .of_eq rfl rfl rfl

theorem stays_markEvaluated (k : Kernel) (t : Term) (generation : Nat) :
    k.Stays (k.markEvaluated t generation) := by
  unfold markEvaluated
  split
  · split
    · exact .refl k
    · exact .of_eq rfl rfl rfl
  · exact .refl k

theorem stays_stamp (k : Kernel) (c : ContextId) (t : Term) (generation : Option Nat) :
    k.Stays (k.stamp c t generation) := by
  unfold stamp
  split
  · exact stays_markEvaluated k t _
  · exact .refl k

theorem stays_setLimitReported (k : Kernel) (c : ContextId) (reported : Bool) :
    k.Stays (k.setLimitReported c reported) := stays_updateContext k c fun _ => rfl

/-- The recursion limit is reported. -/
def reportLimit (k : Kernel) (c : ContextId) (args : List Term) : Kernel :=
  (k.setLimitReported c true).addMessage .general "reclim" args

theorem stays_reportLimit (k : Kernel) (c : ContextId) (args : List Term) :
    k.Stays (k.reportLimit c args) :=
  (k.stays_setLimitReported c true).trans (stays_addMessage _ _ _ _)

theorem stays_setDeadline (k : Kernel) (c : ContextId) (deadline : Nat) :
    k.Stays (k.setDeadline c deadline) := stays_updateContext k c fun _ => rfl

theorem stays_setLocal (k : Kernel) (c : ContextId) (s : Symbol) (value : Term) :
    k.Stays (k.setLocal c s value) :=
  (stays_updateContext k c (by intro x; rfl)).trans (stays_bump _)

theorem stays_unsetLocal (k : Kernel) (c : ContextId) (s : Symbol) :
    k.Stays (k.unsetLocal c s).2 := by
  unfold unsetLocal
  split
  · exact (stays_updateContext k c (by intro x; rfl)).trans (stays_bump _)
  · exact .refl k

/-! ## changes of symbols -/

theorem stays_setAttributes {s : Symbol} {attrs : Attributes}
    (h : k.setAttributes s attrs = .ok k') : k.Stays k' := by
  obtain ⟨hlive, -, rfl⟩ := setAttributes_eq_ok_iff.mp h
  exact (stays_updateRecord_of_eq k s (f := fun r => { r with attributes := attrs })
    (buries_updateRecord_of_not (not_gone_of_live hlive) fun _ => rfl) rfl rfl).trans
      (.of_eq rfl rfl rfl)

theorem stays_setValue {s : Symbol} {value : Option Term} (h : k.setValue s value = .ok k') :
    k.Stays k' := by
  obtain ⟨hlive, -, rfl⟩ := setValue_eq_ok_iff.mp h
  exact (stays_updateRecord_of_eq k s (f := fun r => { r with value := value })
    (buries_updateRecord_of_not (not_gone_of_live hlive) fun _ => rfl) rfl rfl).trans (stays_bump _)

theorem stays_intern (k : Kernel) (name : String) : k.Stays (k.intern name).2 := by
  have hcontexts : (k.intern name).2.contexts = k.contexts := by
    unfold intern
    split <;> rfl
  have hconfig : (k.intern name).2.config = k.config := by
    unfold intern
    split <;> rfl
  refine ⟨hconfig, by rw [hcontexts], fun c => ?_, fun hk => ⟨?_, ?_⟩, k.buries_intern name⟩
  · simp only [Kernel.depth, context, hcontexts]
  · intro s store cache hstore
    rcases record_intern k name s with h | h
    · exact hk.rules s store cache (by rw [← h, hstore])
    · rw [h] at hstore
      cases hstore
  · intro s usage kind
    rcases record_intern k name s with h | h
    · rw [h]
      exact hk.code s usage kind
    · rw [h]
      intro hcode
      cases usage <;> cases hcode

theorem stays_unregister (k : Kernel) (name : String) : k.Stays (k.unregister name) :=
  .of_eq rfl rfl rfl

theorem stays_markRemoved (k : Kernel) (s : Symbol) : k.Stays (k.markRemoved s) := by
  let f := fun r : SymbolRecord => { name := r.name, removed := true : SymbolRecord }
  have hburies : k.Buries (k.updateRecord s f) :=
    (k.buries_markRemoved s).trans (.of_symbols_eq rfl)
  refine (stays_updateRecord k s hburies (fun _ store cache h => by cases h)
    fun _ usage kind h => ?_).trans (stays_bump _)
  cases usage <;> cases h

theorem stays_remove (k : Kernel) (s : Symbol) : k.Stays (k.remove s).2 := by
  unfold remove
  split
  · exact (stays_unregister k s.name).trans (stays_markRemoved _ s)
  · exact .refl k

/-- Another list in the place of one, plain like that, of a symbol that is not gone. -/
theorem stays_putRules (k : Kernel) {s : Symbol} (hs : ¬k.Gone s) (cache : RuleCache)
    {list : RuleList} (hlist : k.Plain → list.All cache.Plain) :
    k.Stays (k.putRules s cache list) := by
  refine stays_updateRecord k s (buries_putRules hs cache list)
    (fun hk store cache' hstore => ?_) fun hk => hk.code s
  cases hstore
  by_cases hc : cache = cache'
  · subst hc
    rw [RuleStore.get_set_self]
    exact hlist hk
  · rw [RuleStore.get_set_of_ne _ _ _ _ hc]
    cases hrules : (k.record s).rules with
    | none => cases cache' <;> exact RuleList.all_empty
    | some store => exact hk.rules s store cache' hrules

/-- Rules opened for a change are plain if the kernel is. -/
theorem stays_openRules {s : Symbol} {mode : AccessMode} {opened : Option RuleStore}
    (h : k.openRules s mode = .ok (opened, k')) :
    k.Stays k' ∧
      ∀ store cache, opened = some store → k'.Plain → (store.get cache).All cache.Plain := by
  have hempty : ∀ cache, (RuleStore.get {} cache).All cache.Plain := fun cache => by
    cases cache <;> exact RuleList.all_empty
  have hburies := buries_openRules h
  rcases openRules_eq_ok h with ⟨rfl, rfl⟩ | ⟨-, rfl, rfl⟩
  · exact ⟨.refl k', fun store cache hstore hk => hk.rules s store cache hstore⟩
  · refine ⟨stays_updateRecord k s hburies (fun _ store cache hstore => ?_) fun hk => hk.code s,
      fun store cache hstore _ => ?_⟩
    · cases hstore
      exact hempty cache
    · cases hstore
      exact hempty cache

/-! ## depth -/

/-- Inside a call the depth of the context is greater by one. -/
theorem depth_enter {c : ContextId} (hc : c.index < k.contexts.size) :
    (k.enter c).depth c = k.depth c + 1 := by
  simp only [depth, enter, context_updateContext_self k _ hc]

/-- A call makes a context deeper by one at most. -/
theorem depth_enter_le (k : Kernel) (c c' : ContextId) :
    (k.enter c).depth c' ≤ k.depth c' + 1 := by
  rcases context_updateContext k c c' (fun x => { x with depth := x.depth + 1 }) with h | ⟨h, -⟩
  · rw [enter, depth, h]
    exact Nat.le_succ _
  · rw [enter, depth, h]
    exact Nat.le_refl _

/-- What leaves a kernel inside a call as it was leaves the kernel around it as it was. -/
theorem Keeps.of_enter {c : ContextId} (hc : c.index < k.contexts.size)
    (h : (k.enter c).Keeps k') : k.Keeps (k'.leave c) := by
  have hsize : (k.enter c).contexts.size = k.contexts.size := by simp [enter, updateContext]
  refine ⟨h.config, ?_, fun c' hc' => ?_, fun hk => ?_⟩
  · have hle := h.size
    rw [hsize] at hle
    simpa [leave, updateContext] using hle
  · have hdepth := h.depth c' (by rwa [hsize])
    by_cases hcc : c = c'
    · subst hcc
      have hsize' : c.index < k'.contexts.size := Nat.lt_of_lt_of_le hc (hsize ▸ h.size)
      rw [depth_enter hc] at hdepth
      have hleave : (k'.leave c).depth c = k'.depth c - 1 := by
        simp only [Kernel.depth, leave, context_updateContext_self k' _ hsize']
      omega
    · have henter : (k.enter c).depth c' = k.depth c' := by
        simp only [Kernel.depth, enter, context_updateContext_of_ne k _ hcc]
      have hleave : (k'.leave c).depth c' = k'.depth c' := by
        simp only [Kernel.depth, leave, context_updateContext_of_ne k' _ hcc]
      rw [hleave, hdepth, henter]
  · have hentered : (k.enter c).Plain := hk.of_symbols_eq rfl
    exact (h.plain hentered).of_symbols_eq rfl

theorem keeps_newRoot (k : Kernel) : k.Keeps k.newRoot.2 where
  config := rfl
  size := by simp [newRoot]
  depth c hc := by
    simp [newRoot, Kernel.depth, context, Array.getElem?_push, Nat.ne_of_lt hc]
  plain hk := hk.of_symbols_eq rfl

/-- A child is a context of its own that starts at the depth of its parent. -/
theorem keeps_spawnChild (k : Kernel) (c : ContextId) : k.Keeps (k.spawnChild c).2 ∧
    (k.spawnChild c).1.index < (k.spawnChild c).2.contexts.size ∧
      (k.spawnChild c).2.depth (k.spawnChild c).1 = k.depth c := by
  refine ⟨⟨rfl, by simp [spawnChild], fun c' hc' => ?_, fun hk => hk.of_symbols_eq rfl⟩, ?_, ?_⟩
  · simp [spawnChild, depth, context, Array.getElem?_push, Nat.ne_of_lt hc']
  · simp [spawnChild]
  · simp [spawnChild, depth, context]

end Kernel

end Termwise
