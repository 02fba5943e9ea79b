import Termwise.Proofs.Eval.Counterparts
import Termwise.Proofs.Eval.Preserved
import Termwise.Proofs.Eval.Stable
import Termwise.Proofs.Eval.Twins
import Termwise.Proofs.Term.Identity

/-!
# Termwise.Proofs.Eval.Forgetful

Evaluation that remembers nothing.  Where local definitions are in sight no node is
stamped, so evaluation depends on the structure of terms only.  Two runs on structurally
equal terms may then differ in everything that terms and kernels have besides
(`Kernel.Alongside`):

1. identities, as long as each stands for one thing, which a ledger for each run says;
2. stamps, messages, the time and pending exceptions;
3. what gathers have collected that were open before;
4. the number of gathers opened so far, and so the numbers of those opened since.
-/

namespace Termwise

/-! ## structurally equal terms -/

/-- What identities stand for in two runs. -/
structure Ledgers where
  /-- What they stand for in the first run. -/
  first : List Term
  /-- What they stand for in the second run. -/
  second : List Term

instance : Preorder Ledgers where
  le w w' := w.first <+: w'.first ∧ w.second <+: w'.second
  le_refl w := ⟨List.prefix_refl _, List.prefix_refl _⟩
  le_trans _ _ _ h h' := ⟨h.1.trans h'.1, h.2.trans h'.2⟩

theorem forall₂_structural_iff {ledger ledger' : List Term} {xs ys : List Term} :
    List.Forall₂ (fun x y => x.strip = y.strip ∧ x.Booked ledger ∧ y.Booked ledger') xs ys ↔
      xs.map Term.strip = ys.map Term.strip ∧ (∀ x ∈ xs, x.Booked ledger) ∧
        ∀ y ∈ ys, y.Booked ledger' := by
  induction xs generalizing ys with
  | nil =>
      cases ys with
      | nil => exact iff_of_true .nil ⟨rfl, nofun, nofun⟩
      | cons y ys => exact iff_of_false nofun fun h => nomatch h.1
  | cons x xs ih =>
      cases ys with
      | nil => exact iff_of_false nofun fun h => nomatch h.1
      | cons y ys =>
          rw [List.forall₂_cons, ih, List.map_cons, List.map_cons, List.cons.injEq,
            List.forall_mem_cons, List.forall_mem_cons]
          tauto

theorem forall₂_and_mem {α β : Type} {R : α → β → Prop} {p : α → Prop} {q : β → Prop}
    {xs : List α} {ys : List β} (h : List.Forall₂ R xs ys) (hxs : ∀ x ∈ xs, p x)
    (hys : ∀ y ∈ ys, q y) : List.Forall₂ (fun x y => R x y ∧ p x ∧ q y) xs ys := by
  induction h with
  | nil => exact .nil
  | cons h _ ih =>
      obtain ⟨hx, hxs⟩ := List.forall_mem_cons.mp hxs
      obtain ⟨hy, hys⟩ := List.forall_mem_cons.mp hys
      exact .cons ⟨h, hx, hy⟩ (ih hxs hys)

/-- Terms of two runs are structurally equal, and each stands in the ledger of its run. -/
def Likeness.structural : Likeness Ledgers where
  Like w t t' := t.strip = t'.strip ∧ t.Booked w.first ∧ t'.Booked w.second
  later hw h := ⟨h.1, h.2.1.mono hw.1, h.2.2.mono hw.2⟩
  strip_eq h := h.1
  head {w i j f g xs ys} h := by
    obtain ⟨hstrip, hbooked, hbooked'⟩ := h
    rw [Term.strip, Term.strip, Term.node.injEq] at hstrip
    exact ⟨hstrip.2.1, (Term.booked_node.mp hbooked).2.1, (Term.booked_node.mp hbooked').2.1⟩
  args {w i j f g xs ys} h := by
    obtain ⟨hstrip, hbooked, hbooked'⟩ := h
    rw [Term.strip, Term.strip, Term.node.injEq, Term.stripAll_eq_map, Term.stripAll_eq_map]
      at hstrip
    exact forall₂_structural_iff.mpr ⟨hstrip.2.2, (Term.booked_node.mp hbooked).2.2,
      (Term.booked_node.mp hbooked').2.2⟩
  call {w f g xs ys} hf hxs := by
    obtain ⟨hstrip, hxs, hys⟩ := forall₂_structural_iff.mp hxs
    refine ⟨?_, Term.booked_call hf.2.1 hxs, Term.booked_call hf.2.2 hys⟩
    rw [Term.strip_call, Term.strip_call, hf.1, hstrip]
  symbol _ _ := ⟨rfl, .inl rfl, .inl rfl⟩
  int _ _ := ⟨rfl, .inl rfl, .inl rfl⟩
  magic _ _ := ⟨rfl, .inl rfl, .inl rfl⟩

theorem Likeness.rebuilds_structural : Likeness.structural.Rebuilds := by
  intro w f f' head head' args args' xs xs' i j hcall hhead hargs hlength
  obtain ⟨hstrip, hxs, hxs'⟩ := forall₂_structural_iff.mp hargs
  have hlength' : xs'.length = args'.length := by
    rw [← List.Forall₂.length_eq hargs, hlength,
      List.Forall₂.length_eq (Likeness.structural.args hcall)]
  refine ⟨?_, hcall.2.1.rebuild hhead.2.1 hxs, hcall.2.2.rebuild hhead.2.2 hxs'⟩
  rw [Term.strip_rebuild hcall.2.1 hhead.2.1 hxs hlength,
    Term.strip_rebuild hcall.2.2 hhead.2.2 hxs' hlength', Term.strip_call, Term.strip_call,
    hhead.1, hstrip]

/-! ## numbers of gathers -/

/-- How two runs count gathers. -/
structure Counts where
  /-- Gathers below this number were opened before both runs. -/
  common : Nat
  /-- The number of the next gather when the first run starts. -/
  first : Nat
  /-- The number of the next gather when the second run starts. -/
  second : Nat
  le_first : common ≤ first
  le_second : common ≤ second

/-- Gathers with these numbers correspond. -/
def Counts.Match (m : Counts) (i j : Nat) : Prop :=
  (i < m.common ∧ j = i) ∨ ∃ d, i = m.first + d ∧ j = m.second + d

theorem Counts.Match.eq_iff {m : Counts} {i j i' j' : Nat} (h : m.Match i j) (h' : m.Match i' j') :
    i = i' ↔ j = j' := by
  have hfirst := m.le_first
  have hsecond := m.le_second
  rcases h with ⟨hi, rfl⟩ | ⟨d, rfl, rfl⟩ <;> rcases h' with ⟨hi', rfl⟩ | ⟨d', rfl, rfl⟩ <;> omega

/-! ## kernels -/

/-- Native code that looks at the structure of calls only and makes no identities of its own. -/
def Native.IsStructural : Native → Prop
  | .function f => (∀ t t', t.strip = t'.strip → (f t).map Term.strip = (f t').map Term.strip) ∧
      ∀ ledger t, t.Booked ledger → ∀ v ∈ f t, v.Booked ledger
  | code => code.isOrderly = true

namespace Kernel

/-- All native code is structural. -/
def Structural (k : Kernel) : Prop :=
  ∀ s usage code, (k.record s).code.get usage = some code → code.IsStructural

/-- Every identity in what evaluation in a context looks up stands for what the ledger says, which
is as long as there are identities. -/
structure Booked (k : Kernel) (c : ContextId) (ledger : List Term) : Prop where
  size : ledger.length = k.stamps.size
  value : ∀ s v, (k.localValue? c s).or (k.value? s) = some v → v.Booked ledger
  rules : ∀ s cache list, k.rules? s cache = some list →
    list.All fun lhs rhs => lhs.Booked ledger ∧ rhs.Booked ledger
  localRules : ∀ s list, k.localRules? c s = some list →
    list.All fun lhs rhs => lhs.Booked ledger ∧ rhs.Booked ledger
  patterns : ∀ owner ∈ k.line c, ∀ g ∈ k.openGathers owner, g.2.Booked ledger

variable {k k' k₁ k₁' : Kernel} {c : ContextId} {ledger ledger' : List Term}

theorem SameDefinitions.line_eq (h : k.SameDefinitions k') (c : ContextId) :
    k'.line c = k.line c := by rw [line, line, h.ancestors_eq]

theorem Booked.of_definitions (h : k.Booked c ledger) (hk : k.SameDefinitions k')
    (hle : ledger <+: ledger') (hsize : ledger'.length = k'.stamps.size)
    (hpatterns : ∀ owner ∈ k.line c, ∀ g ∈ k'.openGathers owner, g.2.Booked ledger') :
    k'.Booked c ledger' where
  size := hsize
  value s v hv := by
    rw [hk.localValue?_eq, value?, hk.record_eq] at hv
    exact (h.value s v hv).mono hle
  rules s cache list hlist := by
    rw [rules?, hk.record_eq] at hlist
    have hrules := h.rules s cache list hlist
    exact ⟨fun r hr => (hrules.rules r hr).imp (·.mono hle) (·.mono hle),
      fun t ht r hr => (hrules.demoted t ht r hr).imp (·.mono hle) (·.mono hle)⟩
  localRules s list hlist := by
    rw [hk.localRules?_eq] at hlist
    have hrules := h.localRules s list hlist
    exact ⟨fun r hr => (hrules.rules r hr).imp (·.mono hle) (·.mono hle),
      fun t ht r hr => (hrules.demoted t ht r hr).imp (·.mono hle) (·.mono hle)⟩
  patterns owner howner g hg := by
    rw [hk.line_eq] at howner
    exact hpatterns owner howner g hg

theorem Booked.of_still (h : k.Booked c ledger) (hk : k.Still k') (hle : ledger <+: ledger')
    (hsize : ledger'.length = k'.stamps.size) : k'.Booked c ledger' :=
  h.of_definitions hk.definitions hle hsize fun owner howner g hg => by
    rw [hk.gathers] at hg
    exact (h.patterns owner howner g hg).mono hle

/-- Naming the nodes of a term goes on with the ledger. -/
theorem Booked.exists_share (h : k.Booked c ledger) {t : Term} (ht : t.Booked ledger) :
    ∃ ledger', ledger <+: ledger' ∧ (k.share t).2.Booked c ledger' ∧
      (k.share t).1.Booked ledger' := by
  obtain ⟨ledger', hle, hsize, hshared⟩ := Term.exists_booked_share ht
  have hgrown := hle.length_le
  rw [h.size] at hsize hshared hgrown
  refine ⟨ledger', hle, h.of_still (k.preserves_share t).toStill hle ?_, hshared⟩
  simp only [Kernel.share, Array.size_append, Array.size_replicate]
  omega

/-! ## kernels alongside -/

/-- Kernels of two runs in a context that remember nothing, the innermost gathers having collected
the same in both. -/
structure Alongside (m : Counts) (c : ContextId) (owners : List ContextId) (w : Ledgers) (n : Nat)
    (k k' : Kernel) : Prop where
  definitions : k.SameDefinitions k'
  config : k'.config = k.config
  structureEpoch : k'.structureEpoch = k.structureEpoch
  depth : k'.depth c = k.depth c
  limitReported : k'.limitReported c = k.limitReported c
  structural : k.Structural
  forgetful : k.stampGeneration? c = none
  endless : k.deadline c = noDeadline
  ancestors : (k.context c).ancestors = owners
  booked : k.Booked c w.first
  booked' : k'.Booked c w.second
  gathers : ∀ owner ∈ c :: owners, List.Forall₂
    (fun g g' => m.Match g.1 g'.1 ∧ g.2.strip = g'.2.strip) (k.openGathers owner)
      (k'.openGathers owner)
  collected : List.Forall₂
    (fun g g' => m.Match g.id g'.id ∧ Likeness.structural.All w g.values g'.values)
      ((k.context c).gathers.take n) ((k'.context c).gathers.take n)
  frames : ∃ d, k.frames = m.first + d ∧ k'.frames = m.second + d

variable {m : Counts} {owners : List ContextId} {w w' : Ledgers} {n : Nat}

theorem Alongside.collected_later (h : Alongside m c owners w n k k') (hw : w ≤ w') :
    List.Forall₂ (fun g g' => m.Match g.id g'.id ∧ Likeness.structural.All w' g.values g'.values)
      ((k.context c).gathers.take n) ((k'.context c).gathers.take n) :=
  h.collected.imp fun _ _ hg => ⟨hg.1, hg.2.later hw⟩

/-- Changes that leave definitions and open gathers alone, in both runs. -/
theorem Alongside.change (h : Alongside m c owners w n k k') (hk : k.Still k₁)
    (hk' : k'.Still k₁') (hw : w ≤ w') (hsize : w'.first.length = k₁.stamps.size)
    (hsize' : w'.second.length = k₁'.stamps.size)
    (hdepth : k₁'.depth c = k₁.depth c) (hlimit : k₁'.limitReported c = k₁.limitReported c)
    (hcollected : List.Forall₂
      (fun g g' => m.Match g.id g'.id ∧ Likeness.structural.All w' g.values g'.values)
        ((k₁.context c).gathers.take n) ((k₁'.context c).gathers.take n))
    (hframes : k₁.frames = k.frames) (hframes' : k₁'.frames = k'.frames) :
    Alongside m c owners w' n k₁ k₁' where
  definitions := hk.definitions.symm.trans (h.definitions.trans hk'.definitions)
  config := hk'.config.trans (h.config.trans hk.config.symm)
  structureEpoch := hk'.structureEpoch.trans (h.structureEpoch.trans hk.structureEpoch.symm)
  depth := hdepth
  limitReported := hlimit
  structural := by
    rw [Structural, hk.definitions.record_eq]
    exact h.structural
  forgetful := (hk.definitions.stampGeneration?_eq c).trans h.forgetful
  endless := (hk.definitions.deadline_eq c).trans h.endless
  ancestors := (hk.definitions.ancestors_eq c).trans h.ancestors
  booked := h.booked.of_still hk hw.1 hsize
  booked' := h.booked'.of_still hk' hw.2 hsize'
  gathers owner howner := by
    rw [hk.gathers, hk'.gathers]
    exact h.gathers owner howner
  collected := hcollected
  frames := by
    rw [hframes, hframes']
    exact h.frames

/-- Changes that leave all contexts alone, in both runs. -/
theorem Alongside.of_contexts_eq (h : Alongside m c owners w n k k') (hk : k.Still k₁)
    (hk' : k'.Still k₁') (hw : w ≤ w') (hsize : w'.first.length = k₁.stamps.size)
    (hsize' : w'.second.length = k₁'.stamps.size) (hcontexts : k₁.contexts = k.contexts)
    (hcontexts' : k₁'.contexts = k'.contexts) (hframes : k₁.frames = k.frames)
    (hframes' : k₁'.frames = k'.frames) : Alongside m c owners w' n k₁ k₁' := by
  have hcontext : k₁.context = k.context := by
    funext c
    rw [context, context, hcontexts]
  have hcontext' : k₁'.context = k'.context := by
    funext c
    rw [context, context, hcontexts']
  refine h.change hk hk' hw hsize hsize' ?_ ?_ ?_ hframes hframes'
  · rw [Kernel.depth, Kernel.depth, hcontext, hcontext']
    exact h.depth
  · rw [Kernel.limitReported, Kernel.limitReported, hcontext, hcontext']
    exact h.limitReported
  · rw [hcontext, hcontext']
    exact h.collected_later hw

/-- Changes of the context that leave what is fixed in it and its gathers alone. -/
theorem Alongside.updateContext (h : Alongside m c owners w n k k') {f f' : Context → Context}
    (hfixed : ∀ x, (f x).fixed = x.fixed) (hfixed' : ∀ x, (f' x).fixed = x.fixed)
    (hgathers : ∀ x, (f x).gathers = x.gathers) (hgathers' : ∀ x, (f' x).gathers = x.gathers)
    (hdepth : ∀ x x' : Context, x'.depth = x.depth → (f' x').depth = (f x).depth)
    (hlimit : ∀ x x' : Context, x'.limitReported = x.limitReported →
      (f' x').limitReported = (f x).limitReported) :
    Alongside m c owners w n (k.updateContext c f) (k'.updateContext c f') := by
  have hsame : ∀ {α : Type} {g : Context → α},
      (∀ x x' : Context, g x' = g x → g (f' x') = g (f x)) →
      g (k'.context c) = g (k.context c) →
      g ((k'.updateContext c f').context c) = g ((k.updateContext c f).context c) := by
    intro α g hg heq
    by_cases hknown : c.index < k.contexts.size
    · rw [context_updateContext_self k f hknown,
        context_updateContext_self k' f' (by rwa [h.definitions.size]), hg _ _ heq]
    · have hout := Nat.le_of_not_lt hknown
      rw [context_updateContext_of_size_le k f c hout,
        context_updateContext_of_size_le k' f' c (by rwa [h.definitions.size]), heq]
  refine h.change (k.still_updateContext c hfixed fun x => by rw [hgathers])
    (k'.still_updateContext c hfixed' fun x => by rw [hgathers']) le_rfl h.booked.size
    h.booked'.size (hsame hdepth h.depth) (hsame hlimit h.limitReported) ?_ rfl rfl
  rw [context_updateContext_of_eq k c c hgathers, context_updateContext_of_eq k' c c hgathers']
  exact h.collected

/-! ## gathers of kernels alongside -/

theorem Alongside.isOpen (h : Alongside m c owners w n k k') {owner : ContextId}
    (howner : owner ∈ c :: owners) {i j : Nat} (hij : m.Match i j) :
    k.isOpen owner i = k'.isOpen owner j := by
  have hopen : ∀ (k : Kernel) (i : Nat), k.isOpen owner i = (k.openGathers owner).any (·.1 == i) :=
    fun k i => by rw [Kernel.isOpen, openGathers, List.any_map]; rfl
  rw [hopen, hopen]
  have hgathers := h.gathers owner howner
  generalize k.openGathers owner = gs, k'.openGathers owner = gs' at hgathers
  induction hgathers with
  | nil => rfl
  | cons hg _ ih =>
      rw [List.any_cons, List.any_cons, ih]
      congr 1
      rw [Bool.eq_iff_iff, beq_iff_eq, beq_iff_eq, hg.1.eq_iff hij]

theorem gathers_of_size_le (k : Kernel) {c : ContextId} (hc : k.contexts.size ≤ c.index) :
    (k.context c).gathers = [] := by
  simp [context, Array.getD_eq_getD_getElem?, Array.getElem?_eq_none hc, default]

theorem gathers_collect (k : Kernel) (c owner : ContextId) (i : Nat) (t : Term) :
    ((k.collect owner i t).context c).gathers = (k.context c).gathers.map fun g =>
      if owner = c ∧ g.id = i then { g with values := g.values ++ [t] } else g := by
  rw [Kernel.collect]
  by_cases hc : owner = c
  · subst hc
    simp only [true_and]
    by_cases hknown : owner.index < k.contexts.size
    · rw [context_updateContext_self k _ hknown]
    · have hout := Nat.le_of_not_lt hknown
      rw [context_updateContext_of_size_le k _ owner hout, k.gathers_of_size_le hout, List.map_nil]
  · simp only [hc, false_and, if_false, List.map_id']
    rw [context_updateContext_of_ne k _ hc]

theorem Alongside.collect (h : Alongside m c owners w n k k') (owner : ContextId) {i j : Nat}
    (hij : m.Match i j) {t t' : Term} (ht : Likeness.structural.Like w t t') :
    Alongside m c owners w n (k.collect owner i t) (k'.collect owner j t') := by
  have hk := (k.preserves_collect owner i t).toStands
  have hk' := (k'.preserves_collect owner j t').toStands
  refine h.change hk.toStill hk'.toStill le_rfl h.booked.size h.booked'.size
    ((hk'.depth c).trans (h.depth.trans (hk.depth c).symm)) ?_ ?_ rfl rfl
  · have hlimit : ∀ (k : Kernel) i t, (k.collect owner i t).limitReported c = k.limitReported c :=
      fun k i t => context_updateContext_of_eq k owner c fun _ => rfl
    rw [hlimit, hlimit]
    exact h.limitReported
  · rw [gathers_collect, gathers_collect, ← List.map_take, ← List.map_take,
      List.forall₂_map_left_iff, List.forall₂_map_right_iff]
    refine h.collected.imp fun g g' hg => ?_
    simp only [hg.1.eq_iff hij]
    split
    · exact ⟨hg.1, hg.2.append (.cons ht .nil)⟩
    · exact hg

theorem gathers_gatherBegin (k : Kernel) (c : ContextId) (t : Term) :
    ((k.gatherBegin c t).context c).gathers =
      if c.index < k.contexts.size then ⟨k.frames, t, []⟩ :: (k.context c).gathers else [] := by
  split
  next hknown => exact congrArg Context.gathers (context_updateContext_self k _ hknown)
  next hknown =>
    have hout := Nat.le_of_not_lt hknown
    exact (congrArg Context.gathers (context_updateContext_of_size_le k _ c hout)).trans
      (k.gathers_of_size_le hout)

theorem Alongside.gatherBegin (h : Alongside m c owners w n k k') {t t' : Term}
    (ht : Likeness.structural.Like w t t') :
    Alongside m c owners w (n + 1) (k.gatherBegin c t) (k'.gatherBegin c t') := by
  have hk := k.sameDefinitions_gatherBegin c t
  have hk' := k'.sameDefinitions_gatherBegin c t'
  obtain ⟨d, hframes, hframes'⟩ := h.frames
  have hmatch : m.Match k.frames k'.frames := .inr ⟨d, hframes, hframes'⟩
  have hpatterns : ∀ (k : Kernel) {ledger : List Term} {t : Term}, k.Booked c ledger →
      t.Booked ledger → ∀ owner ∈ k.line c, ∀ g ∈ (k.gatherBegin c t).openGathers owner,
        g.2.Booked ledger := by
    intro k ledger t hbooked ht owner howner g hg
    rw [openGathers_gatherBegin] at hg
    split at hg
    · rcases List.mem_cons.mp hg with rfl | hg
      · exact ht
      · exact hbooked.patterns owner howner g hg
    · exact hbooked.patterns owner howner g hg
  constructor
  · exact hk.symm.trans (h.definitions.trans hk')
  · exact h.config
  · exact h.structureEpoch
  · rw [Kernel.depth, k'.gatherBegin_eq c c t' (g := Context.depth) fun _ _ => rfl, Kernel.depth,
      k.gatherBegin_eq c c t (g := Context.depth) fun _ _ => rfl]
    exact h.depth
  · rw [Kernel.limitReported, k'.gatherBegin_eq c c t' (g := Context.limitReported) fun _ _ => rfl,
      Kernel.limitReported, k.gatherBegin_eq c c t (g := Context.limitReported) fun _ _ => rfl]
    exact h.limitReported
  · exact h.structural
  · exact (hk.stampGeneration?_eq c).trans h.forgetful
  · exact (hk.deadline_eq c).trans h.endless
  · exact (hk.ancestors_eq c).trans h.ancestors
  · exact h.booked.of_definitions hk (List.prefix_refl _) h.booked.size
      (hpatterns k h.booked ht.2.1)
  · exact h.booked'.of_definitions hk' (List.prefix_refl _) h.booked'.size
      (hpatterns k' h.booked' ht.2.2)
  · intro owner howner
    rw [openGathers_gatherBegin, openGathers_gatherBegin, h.definitions.size]
    split
    · exact .cons ⟨hmatch, ht.1⟩ (h.gathers owner howner)
    · exact h.gathers owner howner
  · rw [gathers_gatherBegin, gathers_gatherBegin, h.definitions.size]
    split
    · exact .cons ⟨hmatch, .nil⟩ h.collected
    · exact .nil
  · exact ⟨d + 1, congrArg (· + 1) hframes, congrArg (· + 1) hframes'⟩

theorem gathers_gatherEnd (k : Kernel) (c : ContextId) :
    ((k.gatherEnd c).2.context c).gathers = (k.context c).gathers.tail := by
  unfold Kernel.gatherEnd
  split
  next frame rest hframes =>
    have hknown : c.index < k.contexts.size := by
      by_contra hout
      rw [k.gathers_of_size_le (Nat.le_of_not_lt hout)] at hframes
      cases hframes
    rw [context_updateContext_self k _ hknown, hframes, List.tail_cons]
  next hframes => rw [hframes, List.tail_nil]

theorem gatherEnd_values (k : Kernel) (c : ContextId) : (k.gatherEnd c).1 =
    ((k.context c).gathers.head?.map GatherFrame.values).getD [] := by
  unfold Kernel.gatherEnd
  split <;> rename_i hframes <;> rw [hframes] <;> rfl

theorem Booked.gatherEnd (h : k.Booked c ledger) : (k.gatherEnd c).2.Booked c ledger := by
  have hsize : (k.gatherEnd c).2.stamps = k.stamps := by
    unfold Kernel.gatherEnd
    split <;> rfl
  refine h.of_definitions (sameDefinitions_gatherEnd k c) (List.prefix_refl _)
    (by rw [hsize, h.size]) fun owner howner g hg => ?_
  rw [openGathers_gatherEnd] at hg
  split at hg
  · exact h.patterns owner howner g (List.mem_of_mem_tail hg)
  · exact h.patterns owner howner g hg

theorem Alongside.gatherEnd (h : Alongside m c owners w (n + 1) k k') :
    Alongside m c owners w n (k.gatherEnd c).2 (k'.gatherEnd c).2 ∧
      Likeness.structural.All w (k.gatherEnd c).1 (k'.gatherEnd c).1 := by
  have hk := sameDefinitions_gatherEnd k c
  have hk' := sameDefinitions_gatherEnd k' c
  obtain ⟨hconfig, hepoch, -, hframes⟩ := k.gatherEnd_fields c
  obtain ⟨hconfig', hepoch', -, hframes'⟩ := k'.gatherEnd_fields c
  have hcollected := h.collected
  refine ⟨?_, ?_⟩
  · constructor
    · exact hk.symm.trans (h.definitions.trans hk')
    · exact hconfig'.trans (h.config.trans hconfig.symm)
    · exact hepoch'.trans (h.structureEpoch.trans hepoch.symm)
    · exact (k'.gatherEnd_eq c c (g := Context.depth) fun _ _ => rfl).trans
        (h.depth.trans (k.gatherEnd_eq c c (g := Context.depth) fun _ _ => rfl).symm)
    · exact (k'.gatherEnd_eq c c (g := Context.limitReported) fun _ _ => rfl).trans
        (h.limitReported.trans
          (k.gatherEnd_eq c c (g := Context.limitReported) fun _ _ => rfl).symm)
    · rw [Structural, hk.record_eq]
      exact h.structural
    · exact (hk.stampGeneration?_eq c).trans h.forgetful
    · exact (hk.deadline_eq c).trans h.endless
    · exact (hk.ancestors_eq c).trans h.ancestors
    · exact h.booked.gatherEnd
    · exact h.booked'.gatherEnd
    · intro owner howner
      rw [openGathers_gatherEnd, openGathers_gatherEnd]
      split
      · have hgathers := h.gathers owner howner
        generalize k.openGathers owner = gs, k'.openGathers owner = gs' at hgathers
        cases hgathers with
        | nil => exact .nil
        | cons _ hrest => exact hrest
      · exact h.gathers owner howner
    · rw [gathers_gatherEnd, gathers_gatherEnd]
      generalize (k.context c).gathers = gs, (k'.context c).gathers = gs' at hcollected
      cases gs with
      | nil =>
          cases gs' with
          | nil => simp
          | cons g' gs' => cases hcollected
      | cons g gs =>
          cases gs' with
          | nil => cases hcollected
          | cons g' gs' => exact (List.forall₂_cons.mp hcollected).2
    · rw [hframes, hframes']
      exact h.frames
  · rw [gatherEnd_values, gatherEnd_values]
    generalize (k.context c).gathers = gs, (k'.context c).gathers = gs' at hcollected
    cases gs with
    | nil =>
        cases gs' with
        | nil => exact .nil
        | cons g' gs' => cases hcollected
    | cons g gs =>
        cases gs' with
        | nil => cases hcollected
        | cons g' gs' => exact (List.forall₂_cons.mp hcollected).1.2

end Kernel

/-! ## two runs -/

/-- Two runs in a context that remember nothing. -/
def Twins.forgetful (m : Counts) (c : ContextId) (owners : List ContextId) : Twins Ledgers where
  likeness := Likeness.structural
  Kernels w n := Kernel.Alongside m c owners w n
  Gathers _ owner i j := owner ∈ c :: owners ∧ m.Match i j
  gathers_later _ h := h
  Generations g g' := g = none ∧ g' = none

theorem RuleList.All.settled {ledger ledger' : List Term} {l : RuleList}
    (h : l.All fun lhs rhs => lhs.Booked ledger ∧ rhs.Booked ledger)
    (h' : l.All fun lhs rhs => lhs.Booked ledger' ∧ rhs.Booked ledger') :
    l.Settled Likeness.structural ⟨ledger, ledger'⟩ where
  rules r hr :=
    ⟨⟨rfl, (h.rules r hr).1, (h'.rules r hr).1⟩, ⟨rfl, (h.rules r hr).2, (h'.rules r hr).2⟩⟩
  demoted t ht r hr :=
    ⟨⟨rfl, (h.demoted t ht r hr).1, (h'.demoted t ht r hr).1⟩,
      ⟨rfl, (h.demoted t ht r hr).2, (h'.demoted t ht r hr).2⟩⟩

theorem Native.IsStructural.fits {code : Native} (h : code.IsStructural) :
    Twins.Fits Likeness.structural code := by
  cases code with
  | function f =>
      intro w t t' ht
      have hstrip := h.1 t t' ht.1
      have hbooked := h.2 w.first t ht.2.1
      have hbooked' := h.2 w.second t' ht.2.2
      cases hf : f t with
      | none =>
          cases hf' : f t' with
          | none => exact .none
          | some v' => rw [hf, hf'] at hstrip; cases hstrip
      | some v =>
          cases hf' : f t' with
          | none => rw [hf, hf'] at hstrip; cases hstrip
          | some v' =>
              rw [hf, hf', Option.map_some, Option.map_some, Option.some.injEq] at hstrip
              exact .some ⟨hstrip, hbooked v hf, hbooked' v' hf'⟩
  | _ => exact h

theorem Twins.hosts_forgetful (m : Counts) (c : ContextId) (owners : List ContextId) :
    (Twins.forgetful m c owners).Hosts c where
  symbols h := h.definitions.symbols
  config h := h.config
  epoch h := h.structureEpoch
  depth h := h.depth
  limitReported h := h.limitReported
  localValue? h := h.definitions.localValue?_eq c
  localRules? h := h.definitions.localRules?_eq c
  value {w n k k'} h s v hv := by
    refine ⟨rfl, h.booked.value s v hv, h.booked'.value s v ?_⟩
    rwa [h.definitions.localValue?_eq, Kernel.value?, h.definitions.record_eq]
  rules {w n k k'} h s cache list hlist := by
    refine (h.booked.rules s cache list hlist).settled (h.booked'.rules s cache list ?_)
    rwa [Kernel.rules?, h.definitions.record_eq]
  localRules {w n k k'} h s list hlist := by
    refine (h.booked.localRules s list hlist).settled (h.booked'.localRules s list ?_)
    rwa [h.definitions.localRules?_eq]
  code h s usage code hcode := (h.structural s usage code hcode).fits
  poll w n := by
    refine Correspondence.alike_then (Twins.alike_modify fun _ k k' _ h => ?_)
      (Twins.alike_get fun w' k k' _ h => ?_)
    · exact h.of_contexts_eq (k.preserves_elapse _).toStill (k'.preserves_elapse _).toStill le_rfl
        h.booked.size h.booked'.size rfl rfl rfl rfl
    · have hlate : ∀ k : Kernel, k.deadline c = noDeadline → k.isLate (k.deadline c) = false :=
        fun k hk => by simp [Kernel.isLate, hk]
      rw [h.definitions.aborting, hlate k h.endless,
        hlate k' ((h.definitions.deadline_eq c).trans h.endless)]
      split
      · exact Twins.alike_throw fun _ _ => .other rfl
      · exact Correspondence.alike_pure _ fun _ _ => trivial
  share {w t t'} n ht w' k k' hw hk := by
    obtain ⟨hstrip, hbooked, hbooked'⟩ := Likeness.structural.later hw ht
    obtain ⟨ledger, hle, hk₁, hshared⟩ := hk.booked.exists_share hbooked
    obtain ⟨ledger', hle', hk₁', hshared'⟩ := hk.booked'.exists_share hbooked'
    refine ⟨⟨ledger, ledger'⟩, ⟨hle, hle'⟩, ?_, .ok ⟨?_, hshared, hshared'⟩⟩
    · exact hk.of_contexts_eq (k.preserves_share t).toStill (k'.preserves_share t').toStill
        ⟨hle, hle'⟩ hk₁.size hk₁'.size rfl rfl rfl rfl
    · exact (Term.strip_share t _).trans (hstrip.trans (Term.strip_share t' _).symm)
  message {_ _ k k' _ _} s tag h _ :=
    h.of_contexts_eq (k.preserves_addMessage s tag _).toStill
      (k'.preserves_addMessage s tag _).toStill le_rfl h.booked.size h.booked'.size rfl rfl rfl rfl
  generations {_ _ k k'} h := ⟨h.forgetful, (h.definitions.stampGeneration?_eq c).trans h.forgetful⟩
  evaluated {_ _ k k' _ _} h _ := by
    rw [h.forgetful, h.definitions.stampGeneration?_eq c, h.forgetful]
    rfl
  stamp {_ _ k k' _ _ _ _} h hg _ := by
    obtain ⟨rfl, rfl⟩ := hg
    exact h
  raise h _ := h.updateContext (fun _ => rfl) (fun _ => rfl) (fun _ => rfl) (fun _ => rfl)
    (fun _ _ hdepth => hdepth) fun _ _ hlimit => hlimit
  catches h := h.updateContext (fun _ => rfl) (fun _ => rfl) (fun _ => rfl) (fun _ => rfl)
    (fun _ _ hdepth => hdepth) fun _ _ hlimit => hlimit
  enter h := h.updateContext (fun _ => rfl) (fun _ => rfl) (fun _ => rfl) (fun _ => rfl)
    (fun _ _ hdepth => congrArg (· + 1) hdepth) fun _ _ hlimit => hlimit
  leave h := h.updateContext (fun _ => rfl) (fun _ => rfl) (fun _ => rfl) (fun _ => rfl)
    (fun _ _ hdepth => congrArg (· - 1) hdepth) fun _ _ hlimit => hlimit
  setLimitReported _ h := h.updateContext (fun _ => rfl) (fun _ => rfl) (fun _ => rfl)
    (fun _ => rfl) (fun _ _ hdepth => hdepth) fun _ _ _ => rfl
  ancestors := by
    refine ⟨owners, fun {_ _ k k'} h => ⟨h.ancestors, ?_, fun owner howner => ?_⟩⟩
    · exact (h.definitions.ancestors_eq c).trans h.ancestors
    · have hgathers := h.gathers owner howner
      have hline : owner ∈ k.line c := by rwa [Kernel.line, h.ancestors]
      have hpatterns := h.booked.patterns owner hline
      have hpatterns' := h.booked'.patterns owner (by rwa [h.definitions.line_eq])
      have hall := forall₂_and_mem hgathers hpatterns hpatterns'
      rw [Kernel.openGathers, Kernel.openGathers, List.forall₂_map_left_iff,
        List.forall₂_map_right_iff] at hall
      exact hall.imp fun g g' hg => ⟨⟨howner, hg.1.1⟩, hg.1.2, hg.2.1, hg.2.2⟩
  isOpen h hij := h.isOpen hij.1 hij.2
  collect h hij ht := h.collect _ hij.2 ht
  opens {w _ _ _ _ _} h ht := ⟨w, le_rfl, h.gatherBegin ht⟩
  closes h := h.gatherEnd
  rebuild := Likeness.rebuilds_structural

/-! ## where nothing is remembered -/

namespace Kernel

variable {k k₁ k₂ : Kernel} {c : ContextId} {ledger ledger' ledger₁ ledger₂ : List Term}

/-- In the context nothing is remembered: local definitions are in sight.  No deadline is set,
native code is structural, gathers were counted, and identities stand for one thing each. -/
structure Forgetful (k : Kernel) (c : ContextId) (ledger : List Term) : Prop where
  structural : k.Structural
  forgetful : k.stampGeneration? c = none
  endless : k.deadline c = noDeadline
  counted : k.GathersCounted c
  booked : k.Booked c ledger

/-- A later kernel of a run that has not hit a limit since. -/
structure Continues (k k' : Kernel) (c : ContextId) (ledger : List Term) : Prop
    extends k.Stands k' where
  limitReported : k'.limitReported c = k.limitReported c
  booked : k'.Booked c ledger

theorem Booked.continues (h : k.Booked c ledger) : k.Continues k c ledger :=
  ⟨.refl k, rfl, h⟩

/-- Two runs that started from one kernel go on alongside. -/
theorem Forgetful.alongside (h : k.Forgetful c ledger) (h₁ : k.Continues k₁ c ledger₁)
    (h₂ : k.Continues k₂ c ledger₂) :
    Alongside ⟨k.frames, k₁.frames, k₂.frames, h₁.frames, h₂.frames⟩ c (k.context c).ancestors
      ⟨ledger₁, ledger₂⟩ 0 k₁ k₂ where
  definitions := h₁.definitions.symm.trans h₂.definitions
  config := h₂.config.trans h₁.config.symm
  structureEpoch := h₂.structureEpoch.trans h₁.structureEpoch.symm
  depth := (h₂.depth c).trans (h₁.depth c).symm
  limitReported := h₂.limitReported.trans h₁.limitReported.symm
  structural := by
    rw [Structural, h₁.definitions.record_eq]
    exact h.structural
  forgetful := (h₁.definitions.stampGeneration?_eq c).trans h.forgetful
  endless := (h₁.definitions.deadline_eq c).trans h.endless
  ancestors := h₁.definitions.ancestors_eq c
  booked := h₁.booked
  booked' := h₂.booked
  gathers owner howner := by
    rw [h₁.gathers, h₂.gathers]
    exact List.forall₂_same.mpr fun g hg => ⟨.inl ⟨h.counted owner howner g hg, rfl⟩, rfl⟩
  collected := by
    rw [List.take_zero, List.take_zero]
    exact .nil
  frames := ⟨0, rfl, rfl⟩

end Kernel

end Termwise
