import Termwise.Eval.Gather
import Termwise.Proofs.Kernel.Plain
import Termwise.Proofs.Kernel.Readings

/-!
# Termwise.Proofs.Kernel.Generation

The generation tells when definitions have changed.  From one kernel to a later one
(`Kernel.Moves`)

1. the generation never goes back;
2. while it stands still, so do all definitions (`Kernel.Unchanged`);
3. no node is stamped with a generation that is yet to come (`Kernel.Dated`).

Every single change of a kernel is such a move, and moves compose.
-/

namespace Termwise

namespace Kernel

/-! ## definitions that stand still -/

/-- The definitions of symbols and contexts are as before; new contexts have no definitions of their
own. -/
structure Unchanged (k k' : Kernel) : Prop where
  attributes : ∀ s, k'.attributes s = k.attributes s
  value : ∀ s, k'.value? s = k.value? s
  rules : ∀ s cache, k'.rules? s cache = k.rules? s cache
  code : ∀ s, (k'.record s).code = (k.record s).code
  locals : ∀ c, (k'.context c).locals = (k.context c).locals
  localRules : ∀ c, (k'.context c).localRules = (k.context c).localRules
  /-- No context is lost. -/
  size : k.contexts.size ≤ k'.contexts.size
  ancestors : ∀ c : ContextId, c.index < k.contexts.size →
    (k'.context c).ancestors = (k.context c).ancestors

/-- Whatever can be looked up of definitions is found as before. -/
structure SameMeaning (k k' : Kernel) : Prop where
  attributes : ∀ s, k'.attributes s = k.attributes s
  value : ∀ s, k'.value? s = k.value? s
  rules : ∀ s cache, k'.rules? s cache = k.rules? s cache
  code : ∀ s, (k'.record s).code = (k.record s).code
  localValue : ∀ c : ContextId, c.index < k.contexts.size → ∀ s,
    k'.localValue? c s = k.localValue? c s
  localRules : ∀ c : ContextId, c.index < k.contexts.size → ∀ s,
    k'.localRules? c s = k.localRules? c s

variable {k k' k'' : Kernel}

theorem Unchanged.refl (k : Kernel) : k.Unchanged k :=
  ⟨fun _ => rfl, fun _ => rfl, fun _ _ => rfl, fun _ => rfl, fun _ => rfl, fun _ => rfl,
    Nat.le_refl _, fun _ _ => rfl⟩

theorem Unchanged.trans (h : k.Unchanged k') (h' : k'.Unchanged k'') : k.Unchanged k'' where
  attributes s := (h'.attributes s).trans (h.attributes s)
  value s := (h'.value s).trans (h.value s)
  rules s cache := (h'.rules s cache).trans (h.rules s cache)
  code s := (h'.code s).trans (h.code s)
  locals c := (h'.locals c).trans (h.locals c)
  localRules c := (h'.localRules c).trans (h.localRules c)
  size := Nat.le_trans h.size h'.size
  ancestors c hc := (h'.ancestors c (Nat.lt_of_lt_of_le hc h.size)).trans (h.ancestors c hc)

/-- A change of symbols after which they read as before. -/
theorem SameReadings.unchanged (h : k.SameReadings k') (hcontexts : k'.contexts = k.contexts) :
    k.Unchanged k' := by
  have hcontext : k'.context = k.context := funext fun c => by simp only [context, hcontexts]
  refine ⟨h.attributes, h.value, h.rules, h.code, fun c => ?_, fun c => ?_, ?_, fun c _ => ?_⟩
  · rw [hcontext]
  · rw [hcontext]
  · exact Nat.le_of_eq (congrArg Array.size hcontexts.symm)
  · rw [hcontext]

/-- A change of contexts that leaves their definitions alone. -/
theorem Unchanged.of_symbols_eq (hsymbols : k'.symbols = k.symbols)
    (hlocals : ∀ c, (k'.context c).locals = (k.context c).locals)
    (hlocalRules : ∀ c, (k'.context c).localRules = (k.context c).localRules)
    (hsize : k.contexts.size ≤ k'.contexts.size)
    (hancestors : ∀ c : ContextId, c.index < k.contexts.size →
      (k'.context c).ancestors = (k.context c).ancestors) : k.Unchanged k' := by
  have hrecord : k'.record = k.record := funext fun s => by simp only [record, hsymbols]
  refine ⟨fun s => ?_, fun s => ?_, fun s cache => ?_, fun s => ?_, hlocals, hlocalRules, hsize,
    hancestors⟩
  · rw [Kernel.attributes, hrecord, Kernel.attributes]
  · rw [value?, hrecord, value?]
  · rw [rules?, hrecord, rules?]
  · rw [hrecord]

/-- What a context and the ones it was spawned from define is found as before. -/
theorem Unchanged.findSome?_chain {α β : Type} (h : k.Unchanged k') {c : ContextId}
    (hc : c.index < k.contexts.size) {f : Context → β}
    (hf : ∀ c, f (k'.context c) = f (k.context c)) (g : β → Option α) :
    (k'.chain c).findSome? (fun x => g (f x)) = (k.chain c).findSome? fun x => g (f x) := by
  have hchain : (k'.chain c).map f = (k.chain c).map f := by
    simp only [chain, h.ancestors c hc, List.map_cons, List.map_map, hf, Function.comp_def]
  have hfind : ∀ xs : List Context,
      xs.findSome? (fun x => g (f x)) = (xs.map f).findSome? g := fun xs => by
    rw [List.findSome?_map]
    rfl
  rw [hfind, hfind, hchain]

theorem Unchanged.sameMeaning (h : k.Unchanged k') : k.SameMeaning k' where
  attributes := h.attributes
  value := h.value
  rules := h.rules
  code := h.code
  localValue _ hc s := h.findSome?_chain hc h.locals fun locals => locals.lookup s
  localRules _ hc s := h.findSome?_chain hc h.localRules fun rules => rules.lookup s

/-! ## moves -/

/-- No node is stamped with a generation that is yet to come. -/
def Dated (k : Kernel) : Prop := ∀ id, k.stamps.getD id 0 ≤ k.generation

/-- A later kernel: the generation has gone on if definitions have changed. -/
structure Moves (k k' : Kernel) : Prop where
  le : k.generation ≤ k'.generation
  unchanged : k'.generation = k.generation → k.Unchanged k'
  dated : k.Dated → k'.Dated

theorem Moves.refl (k : Kernel) : k.Moves k := ⟨Nat.le_refl _, fun _ => .refl k, id⟩

theorem Moves.trans (h : k.Moves k') (h' : k'.Moves k'') : k.Moves k'' where
  le := Nat.le_trans h.le h'.le
  unchanged heq := by
    have hle := h.le
    have hle' := h'.le
    exact (h.unchanged (by omega)).trans (h'.unchanged (by omega))
  dated hk := h'.dated (h.dated hk)

/-- A stamp set before definitions changed is not current afterwards. -/
theorem Moves.lt_of_isEvaluated (h : k.Moves k') (hk : k.Dated) {t : Term} {g : Nat}
    (ht : k.isEvaluated t g = true) (hchanged : ¬k.SameMeaning k') : g < k'.generation := by
  have hlt : k.generation < k'.generation :=
    Nat.lt_of_le_of_ne h.le fun heq => hchanged (h.unchanged heq.symm).sameMeaning
  cases t with
  | node id head args =>
      obtain ⟨-, hstamp⟩ : id ≠ 0 ∧ k.stamps.getD id 0 = g := by simpa [isEvaluated] using ht
      have := hk id
      omega
  | _ => cases ht

/-- No node of a new kernel is stamped. -/
theorem dated_new (config : Config) : (new config).Dated := by
  intro id
  simp only [new, Array.getD_eq_getD_getElem?]
  cases id <;> simp

/-- The generation has gone on. -/
theorem Moves.of_lt (hgeneration : k.generation < k'.generation) (hstamps : k'.stamps = k.stamps) :
    k.Moves k' where
  le := Nat.le_of_lt hgeneration
  unchanged heq := absurd heq (Nat.ne_of_gt hgeneration)
  dated hk id := by
    rw [hstamps]
    exact Nat.le_trans (hk id) (Nat.le_of_lt hgeneration)

/-- Definitions, generation and stamps stand still. -/
theorem Unchanged.moves (h : k.Unchanged k') (hgeneration : k'.generation = k.generation)
    (hstamps : k'.stamps = k.stamps) : k.Moves k' where
  le := Nat.le_of_eq hgeneration.symm
  unchanged _ := h
  dated hk id := by
    rw [hstamps, hgeneration]
    exact hk id

/-! ## changes that are no definitions -/

/-- A change that leaves symbols, contexts, generation and stamps alone. -/
theorem Moves.of_eq (hsymbols : k'.symbols = k.symbols) (hcontexts : k'.contexts = k.contexts)
    (hgeneration : k'.generation = k.generation) (hstamps : k'.stamps = k.stamps) : k.Moves k' :=
  ((SameReadings.of_eq hsymbols hcontexts).unchanged hcontexts).moves hgeneration hstamps

/-- A change of a context that leaves its definitions alone. -/
theorem moves_updateContext (k : Kernel) (c : ContextId) {f : Context → Context}
    (hlocals : ∀ x, (f x).locals = x.locals) (hlocalRules : ∀ x, (f x).localRules = x.localRules)
    (hancestors : ∀ x, (f x).ancestors = x.ancestors) : k.Moves (k.updateContext c f) := by
  have hunchanged : k.Unchanged (k.updateContext c f) := .of_symbols_eq rfl
    (fun c' => context_updateContext_of_eq k c c' hlocals)
    (fun c' => context_updateContext_of_eq k c c' hlocalRules) (by simp [updateContext])
    fun c' _ => context_updateContext_of_eq k c c' hancestors
  exact hunchanged.moves rfl rfl

/-- A change of stamps to ones of this generation or earlier ones. -/
theorem moves_stamps (k : Kernel) {stamps : Array Nat}
    (h : ∀ id, stamps.getD id 0 ≤ max (k.stamps.getD id 0) k.generation) :
    k.Moves { k with stamps := stamps } where
  le := Nat.le_refl _
  unchanged _ := { Unchanged.refl k with }
  dated hk id := by
    have := hk id
    have := h id
    change stamps.getD id 0 ≤ k.generation
    omega

theorem moves_share (k : Kernel) (t : Term) : k.Moves (k.share t).2 :=
  k.moves_stamps fun id => by
    rw [getD_append_replicate]
    exact Nat.le_max_left _ _

theorem moves_markEvaluated (k : Kernel) (t : Term) {g : Nat} (hg : g ≤ k.generation) :
    k.Moves (k.markEvaluated t g) := by
  cases t with
  | node id head args =>
      rw [markEvaluated]
      split
      · exact .refl k
      · refine k.moves_stamps fun id' => ?_
        rw [getD_setIfInBounds]
        split
        · exact Nat.le_trans hg (Nat.le_max_right _ _)
        · exact Nat.le_max_left _ _
  | _ => exact .refl k

/-- A node is stamped with a generation that was read before. -/
theorem moves_stamp (h : k.Moves k') (c : ContextId) (t : Term) :
    k'.Moves (k'.stamp c t (k.stampGeneration? c)) := by
  unfold stamp
  split
  · rename_i g _ hg _
    have hread : g = k.generation := by
      unfold stampGeneration? at hg
      split at hg <;> cases hg
      rfl
    exact moves_markEvaluated k' t (hread ▸ h.le)
  · exact .refl k'

theorem moves_elapse (k : Kernel) (nanos : Nat) : k.Moves (k.elapse nanos) := .of_eq rfl rfl rfl rfl

theorem moves_addMessage (k : Kernel) (s : Symbol) (tag : String) (args : List Term) :
    k.Moves (k.addMessage s tag args) := .of_eq rfl rfl rfl rfl

theorem moves_setLimitReported (k : Kernel) (c : ContextId) (reported : Bool) :
    k.Moves (k.setLimitReported c reported) :=
  moves_updateContext k c (fun _ => rfl) (fun _ => rfl) fun _ => rfl

theorem moves_setDeadline (k : Kernel) (c : ContextId) (deadline : Nat) :
    k.Moves (k.setDeadline c deadline) :=
  moves_updateContext k c (fun _ => rfl) (fun _ => rfl) fun _ => rfl

theorem moves_enter (k : Kernel) (c : ContextId) : k.Moves (k.enter c) :=
  moves_updateContext k c (fun _ => rfl) (fun _ => rfl) fun _ => rfl

theorem moves_leave (k : Kernel) (c : ContextId) : k.Moves (k.leave c) :=
  moves_updateContext k c (fun _ => rfl) (fun _ => rfl) fun _ => rfl

theorem moves_gatherBegin (k : Kernel) (c : ContextId) (pattern : Term) :
    k.Moves (k.gatherBegin c pattern) :=
  (moves_updateContext k c
    (f := fun x => { x with gathers := ⟨k.frames, pattern, []⟩ :: x.gathers })
    (fun _ => rfl) (fun _ => rfl) fun _ => rfl).trans (.of_eq rfl rfl rfl rfl)

theorem moves_gatherEnd (k : Kernel) (c : ContextId) : k.Moves (k.gatherEnd c).2 := by
  unfold gatherEnd
  split
  · exact moves_updateContext k c (fun _ => rfl) (fun _ => rfl) fun _ => rfl
  · exact .refl k

/-! ## new contexts -/

/-- A new context without definitions of its own. -/
theorem moves_push (k : Kernel) {x : Context} (hlocals : x.locals = [])
    (hlocalRules : x.localRules = []) : k.Moves { k with contexts := k.contexts.push x } := by
  have hcontext : ∀ c : ContextId, ({ k with contexts := k.contexts.push x } : Kernel).context c =
      if c.index = k.contexts.size then x else k.context c := fun c => by
    simp only [context, Array.getD_eq_getD_getElem?, Array.getElem?_push]
    split <;> rfl
  have hnew : ∀ c : ContextId, c.index = k.contexts.size → k.context c = default := fun c hc => by
    rw [context, Array.getD_eq_getD_getElem?, Array.getElem?_eq_none (Nat.le_of_eq hc.symm)]
    rfl
  have hunchanged : k.Unchanged { k with contexts := k.contexts.push x } := by
    refine .of_symbols_eq rfl (fun c => ?_) (fun c => ?_) (by simp) fun c hc => ?_
    · rw [hcontext]
      split
      · rename_i hc
        rw [hlocals, hnew c hc]
        rfl
      · rfl
    · rw [hcontext]
      split
      · rename_i hc
        rw [hlocalRules, hnew c hc]
        rfl
      · rfl
    · rw [hcontext, if_neg (Nat.ne_of_lt hc)]
  exact hunchanged.moves rfl rfl

theorem moves_newRoot (k : Kernel) : k.Moves k.newRoot.2 := k.moves_push rfl rfl

theorem moves_spawnChild (k : Kernel) (c : ContextId) : k.Moves (k.spawnChild c).2 :=
  k.moves_push rfl rfl

/-! ## definitions -/

theorem moves_setLocal (k : Kernel) (c : ContextId) (s : Symbol) (value : Term) :
    k.Moves (k.setLocal c s value) := .of_lt (Nat.lt_succ_self _) rfl

theorem moves_unsetLocal (k : Kernel) (c : ContextId) (s : Symbol) :
    k.Moves (k.unsetLocal c s).2 := by
  unfold unsetLocal
  split
  · exact .of_lt (Nat.lt_succ_self _) rfl
  · exact .refl k

theorem moves_addLocalRule (k : Kernel) (c : ContextId) (s : Symbol) (r : Rule) :
    k.Moves (k.addLocalRule c s r) := .of_lt (Nat.lt_succ_self _) rfl

theorem moves_setAttributes {s : Symbol} {attrs : Attributes}
    (h : k.setAttributes s attrs = .ok k') : k.Moves k' := by
  rw [setAttributes_eq_ok h]
  exact .of_lt (Nat.lt_succ_self _) rfl

theorem moves_setValue {s : Symbol} {value : Option Term} (h : k.setValue s value = .ok k') :
    k.Moves k' := by
  rw [setValue_eq_ok h]
  exact .of_lt (Nat.lt_succ_self _) rfl

/-- Rules that are opened read as before. -/
theorem moves_openRules {s : Symbol} {mode : AccessMode} {opened : Option RuleStore}
    (h : k.openRules s mode = .ok (opened, k')) : k.Moves k' := by
  have hreadings := sameReadings_openRules h
  rcases openRules_eq_ok h with ⟨-, rfl⟩ | ⟨-, -, rfl⟩
  · exact .refl k'
  · exact (hreadings.unchanged rfl).moves rfl rfl

theorem moves_putRules (k : Kernel) (s : Symbol) (cache : RuleCache) (list : RuleList) :
    k.Moves (k.putRules s cache list).bump := .of_lt (Nat.lt_succ_self _) rfl

theorem moves_register (k : Kernel) (s : Symbol) (usage : CodeUsage) (code : Native) :
    k.Moves (k.register s usage code) := .of_lt (Nat.lt_succ_self _) rfl

theorem moves_registerApprox (k : Kernel) (s : Symbol) (code : ApproxNative) :
    k.Moves (k.registerApprox s code) := .of_lt (Nat.lt_succ_self _) rfl

/-! ## names -/

/-- A new symbol has no definitions. -/
theorem moves_intern (k : Kernel) (name : String) : k.Moves (k.intern name).2 := by
  cases hlookup : k.lookup? name with
  | some s =>
      rw [intern, hlookup]
      exact .refl k
  | none =>
      rw [intern_of_lookup?_eq_none hlookup]
      have hrecord : ∀ s : Symbol, (k.addSymbol name).record s = k.record s ∨
          (k.addSymbol name).record s = { name := name } ∧ k.record s = { name := s.name } := by
        intro s
        rw [record_addSymbol]
        split
        · rename_i hs
          exact .inr ⟨rfl, record_of_size_le (Nat.le_of_eq hs.symm)⟩
        · exact .inl rfl
      have hunchanged : k.Unchanged (k.addSymbol name) := by
        refine ⟨fun s => ?_, fun s => ?_, fun s cache => ?_, fun s => ?_, fun _ => rfl,
          fun _ => rfl, Nat.le_refl _, fun _ _ => rfl⟩
        all_goals
          rcases hrecord s with h | ⟨h, h'⟩
          · simp only [attributes, value?, rules?, h]
          · simp only [attributes, value?, rules?, h, h']
      exact hunchanged.moves rfl rfl

theorem moves_remove (k : Kernel) (s : Symbol) : k.Moves (k.remove s).2 := by
  unfold remove
  split
  · exact .of_lt (Nat.lt_succ_self _) rfl
  · exact .refl k

end Kernel

end Termwise
