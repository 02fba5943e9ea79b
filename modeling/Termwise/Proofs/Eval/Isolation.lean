import Termwise.Proofs.Eval.LockstepRounds
import Termwise.Proofs.Eval.Preserved
import Termwise.Proofs.Eval.Terminates

/-!
# Termwise.Proofs.Eval.Isolation

Contexts do not disturb each other.  What is done to other contexts than those that a
context was spawned from (`ContextOp`) changes nothing that evaluation in it looks up, but
it moves two counters that all contexts share:

1. the generation, so what was known to be evaluated is forgotten;
2. the number of gathers, so gathers that are opened later have other numbers.

Neither shows.  Two runs, one after such changes and one without them, go on abreast
(`Kernel.Abreast`): the same nodes are known to be evaluated now in both, and open gathers
differ in their numbers only, by the same amount.
-/

namespace Termwise

/-! ## changes elsewhere -/

/-- What is done to a context, other than evaluation. -/
inductive ContextOp where
  /-- Bind a symbol. -/
  | setLocal (s : Symbol) (value : Term)
  /-- Unbind a symbol. -/
  | unsetLocal (s : Symbol)
  /-- Add a local rule. -/
  | addLocalRule (s : Symbol) (r : Rule)
  /-- Throw: record a pending exception unless there is one. -/
  | raise (value : Term)
  /-- Take the pending exception. -/
  | catchException
  /-- Open a gather. -/
  | gatherBegin (pattern : Term)
  /-- Close the innermost gather. -/
  | gatherEnd

/-- The kernel after something was done to a context. -/
def ContextOp.apply (k : Kernel) (c : ContextId) : ContextOp → Kernel
  | setLocal s value => k.setLocal c s value
  | unsetLocal s => (k.unsetLocal c s).2
  | addLocalRule s r => k.addLocalRule c s r
  | raise value => k.recordException c value
  | catchException => (k.catchException c).2
  | gatherBegin pattern => k.gatherBegin c pattern
  | gatherEnd => (k.gatherEnd c).2

namespace Kernel

/-- The kernel after several things were done to contexts, one after the other. -/
def applyAll (k : Kernel) (ops : List (ContextId × ContextOp)) : Kernel :=
  ops.foldl (fun k op => op.2.apply k op.1) k

/-- Kernels that differ in other contexts than some, and in counters that have moved on. -/
structure DiffersElsewhere (owners : List ContextId) (k k' : Kernel) : Prop where
  config : k'.config = k.config
  symbols : k'.symbols = k.symbols
  aborting : k'.aborting = k.aborting
  messages : k'.messages = k.messages
  structureEpoch : k'.structureEpoch = k.structureEpoch
  stamps : k'.stamps = k.stamps
  clock : k'.clock = k.clock
  size : k'.contexts.size = k.contexts.size
  context : ∀ owner ∈ owners, k'.context owner = k.context owner
  generation : k.generation ≤ k'.generation
  frames : k.frames ≤ k'.frames

variable {owners : List ContextId} {k k' k'' : Kernel} {c : ContextId}

theorem DiffersElsewhere.refl (owners : List ContextId) (k : Kernel) :
    DiffersElsewhere owners k k :=
  ⟨rfl, rfl, rfl, rfl, rfl, rfl, rfl, rfl, fun _ _ => rfl, Nat.le_refl _, Nat.le_refl _⟩

theorem DiffersElsewhere.trans (h : DiffersElsewhere owners k k')
    (h' : DiffersElsewhere owners k' k'') : DiffersElsewhere owners k k'' where
  config := h'.config.trans h.config
  symbols := h'.symbols.trans h.symbols
  aborting := h'.aborting.trans h.aborting
  messages := h'.messages.trans h.messages
  structureEpoch := h'.structureEpoch.trans h.structureEpoch
  stamps := h'.stamps.trans h.stamps
  clock := h'.clock.trans h.clock
  size := h'.size.trans h.size
  context owner howner := (h'.context owner howner).trans (h.context owner howner)
  generation := Nat.le_trans h.generation h'.generation
  frames := Nat.le_trans h.frames h'.frames

theorem differsElsewhere_updateContext (k : Kernel) (hc : c ∉ owners) (f : Context → Context) :
    DiffersElsewhere owners k (k.updateContext c f) where
  config := rfl
  symbols := rfl
  aborting := rfl
  messages := rfl
  structureEpoch := rfl
  stamps := rfl
  clock := rfl
  size := by simp [updateContext]
  context owner howner := context_updateContext_of_ne k f fun h => hc (h ▸ howner)
  generation := Nat.le_refl _
  frames := Nat.le_refl _

theorem DiffersElsewhere.bump (h : DiffersElsewhere owners k k') :
    DiffersElsewhere owners k k'.bump :=
  { h with generation := Nat.le_succ_of_le h.generation }

/-- What is done to one context changes no other. -/
theorem differsElsewhere_apply (k : Kernel) (hc : c ∉ owners) (op : ContextOp) :
    DiffersElsewhere owners k (op.apply k c) := by
  have hupdate := fun f => k.differsElsewhere_updateContext hc f
  cases op with
  | setLocal s value => exact (hupdate _).bump
  | unsetLocal s =>
      simp only [ContextOp.apply, unsetLocal]
      split
      · exact (hupdate _).bump
      · exact .refl owners k
  | addLocalRule s r => exact (hupdate _).bump
  | raise value => exact hupdate _
  | catchException => exact hupdate _
  | gatherBegin pattern => exact { hupdate _ with frames := Nat.le_succ _ }
  | gatherEnd =>
      simp only [ContextOp.apply, gatherEnd]
      split
      · exact hupdate _
      · exact .refl owners k

theorem differsElsewhere_applyAll (k : Kernel) {ops : List (ContextId × ContextOp)}
    (hops : ∀ op ∈ ops, op.1 ∉ owners) : DiffersElsewhere owners k (k.applyAll ops) := by
  induction ops generalizing k with
  | nil => exact .refl owners k
  | cons op ops ih =>
      have hop := hops op List.mem_cons_self
      exact (k.differsElsewhere_apply hop op.2).trans
        (ih _ fun op hmem => hops op (List.mem_cons_of_mem _ hmem))

end Kernel

/-! ## runs abreast -/

/-- What the second of two runs is ahead of the first. -/
structure Lead where
  /-- The generation of the first run. -/
  generation : Nat
  /-- The generation of the second run. -/
  generation' : Nat
  /-- Number of gathers opened before the first run. -/
  first : Nat
  /-- So many more gathers were opened before the second run. -/
  ahead : Nat

namespace Lead

/-- The number that a gather of the first run has in the second. -/
def renumber (lead : Lead) (i : Nat) : Nat := if i < lead.first then i else i + lead.ahead

theorem renumber_inj (lead : Lead) {i j : Nat} : lead.renumber i = lead.renumber j ↔ i = j := by
  unfold renumber
  split <;> split <;> omega

end Lead

/-- The context as it is in the second run: gathers have other numbers. -/
def Context.renumbered (lead : Lead) (x : Context) : Context :=
  { x with gathers := x.gathers.map fun g => { g with id := lead.renumber g.id } }

namespace Kernel

/-- The kernels of two runs in a context, the second with a lead. -/
structure Abreast (lead : Lead) (c : ContextId) (owners : List ContextId) (k k' : Kernel) :
    Prop where
  orderly : k.Orderly
  config : k'.config = k.config
  symbols : k'.symbols = k.symbols
  aborting : k'.aborting = k.aborting
  messages : k'.messages = k.messages
  structureEpoch : k'.structureEpoch = k.structureEpoch
  clock : k'.clock = k.clock
  size : k'.contexts.size = k.contexts.size
  ancestors : (k.context c).ancestors = owners
  context : ∀ owner ∈ c :: owners, k'.context owner = (k.context owner).renumbered lead
  generation : k.generation = lead.generation
  generation' : k'.generation = lead.generation'
  stamped : k'.stamps.size = k.stamps.size
  stamps : ∀ id, k.stamps.getD id 0 = lead.generation ↔ k'.stamps.getD id 0 = lead.generation'
  opened : lead.first ≤ k.frames
  frames : k'.frames = k.frames + lead.ahead

variable {lead : Lead} {c : ContextId} {owners : List ContextId} {k k' : Kernel}

theorem Abreast.chain_eq (h : Abreast lead c owners k k') :
    k'.chain c = (k.chain c).map (Context.renumbered lead) := by
  have hself := h.context c List.mem_cons_self
  have hancestors : (k'.context c).ancestors = (k.context c).ancestors := by
    rw [hself]
    rfl
  rw [chain, chain, hancestors, hself, List.map_cons, List.map_map, List.cons.injEq]
  refine ⟨rfl, List.map_congr_left fun owner howner => ?_⟩
  rw [h.ancestors] at howner
  exact h.context owner (List.mem_cons_of_mem c howner)

theorem Abreast.stampGeneration?_eq (h : Abreast lead c owners k k') :
    (k.stampGeneration? c = none ∧ k'.stampGeneration? c = none) ∨
      (k.stampGeneration? c = some lead.generation ∧
        k'.stampGeneration? c = some lead.generation') := by
  have hany : ((k'.chain c).any fun x => !x.locals.isEmpty || !x.localRules.isEmpty) =
      (k.chain c).any fun x => !x.locals.isEmpty || !x.localRules.isEmpty := by
    rw [h.chain_eq, List.any_map]
    rfl
  rw [stampGeneration?, stampGeneration?, hany, h.generation, h.generation']
  split
  · exact .inl ⟨rfl, rfl⟩
  · exact .inr ⟨rfl, rfl⟩

theorem Abreast.isLate_eq (h : Abreast lead c owners k k') :
    k'.isLate (k'.deadline c) = k.isLate (k.deadline c) := by
  rw [isLate, isLate, deadline, deadline, h.chain_eq, List.foldl_map, h.clock]
  rfl

theorem Abreast.isEvaluated_eq (h : Abreast lead c owners k k') (t : Term) :
    k'.isEvaluated t lead.generation' = k.isEvaluated t lead.generation := by
  cases t with
  | node id _ _ =>
      have hid : (k'.stamps.getD id 0 == lead.generation') =
          (k.stamps.getD id 0 == lead.generation) := by
        rw [Bool.eq_iff_iff, beq_iff_eq, beq_iff_eq]
        exact (h.stamps id).symm
      rw [isEvaluated, isEvaluated, hid]
  | _ => rfl

/-- A change of a context that does not look at the numbers of gathers. -/
theorem Abreast.updateContext (h : Abreast lead c owners k k') (owner : ContextId)
    {f f' : Context → Context} (hancestors : ∀ x, (f x).ancestors = x.ancestors)
    (hf : ∀ x, f' (x.renumbered lead) = (f x).renumbered lead) :
    Abreast lead c owners (k.updateContext owner f) (k'.updateContext owner f') :=
  { h with
    size := by simp [Kernel.updateContext, h.size]
    ancestors := (context_updateContext_of_eq k owner c hancestors).trans h.ancestors
    context := fun other hother => by
      have hsame := h.context other hother
      by_cases hne : owner = other
      · subst hne
        by_cases hknown : owner.index < k.contexts.size
        · have hknown' : owner.index < k'.contexts.size := by rwa [h.size]
          rw [context_updateContext_self k f hknown, context_updateContext_self k' f' hknown',
            hsame, hf]
        · have hout := Nat.le_of_not_lt hknown
          rw [context_updateContext_of_size_le k f _ hout,
            context_updateContext_of_size_le k' f' _ (by rwa [h.size]), hsame]
      · rw [context_updateContext_of_ne k f hne, context_updateContext_of_ne k' f' hne, hsame] }

theorem Abreast.share (h : Abreast lead c owners k k') (t : Term) :
    (k'.share t).1 = (k.share t).1 ∧ Abreast lead c owners (k.share t).2 (k'.share t).2 := by
  unfold Kernel.share
  rw [h.stamped]
  refine ⟨rfl, { h with stamped := ?_, stamps := fun id => ?_ }⟩
  · simp [h.stamped]
  · rw [getD_append_replicate, getD_append_replicate]
    exact h.stamps id

theorem Abreast.markEvaluated (h : Abreast lead c owners k k') (t : Term) :
    Abreast lead c owners (k.markEvaluated t lead.generation)
      (k'.markEvaluated t lead.generation') := by
  unfold Kernel.markEvaluated
  split
  · split
    · exact h
    · rename_i id _ _ _
      refine { h with stamped := by simp [h.stamped], stamps := fun i => ?_ }
      rw [getD_setIfInBounds, getD_setIfInBounds, h.stamped]
      split
      · exact iff_of_true rfl rfl
      · exact h.stamps i
  · exact h

theorem Abreast.stamp (h : Abreast lead c owners k k') (t : Term) {g g' : Option Nat}
    (hg : (g = none ∧ g' = none) ∨ (g = some lead.generation ∧ g' = some lead.generation')) :
    Abreast lead c owners (k.stamp c t g) (k'.stamp c t g') := by
  unfold Kernel.stamp
  rcases hg with ⟨rfl, rfl⟩ | ⟨rfl, rfl⟩
  · exact h
  · rcases h.stampGeneration?_eq with ⟨hnone, hnone'⟩ | ⟨hsome, hsome'⟩
    · rw [hnone, hnone']
      exact h
    · rw [hsome, hsome']
      exact h.markEvaluated t

/-! ## gathers of runs abreast -/

theorem Abreast.gathers (h : Abreast lead c owners k k') {owner : ContextId}
    (howner : owner ∈ c :: owners) : (k'.context owner).gathers =
      (k.context owner).gathers.map fun g => { g with id := lead.renumber g.id } := by
  rw [h.context owner howner]
  rfl

theorem Abreast.isOpen (h : Abreast lead c owners k k') {owner : ContextId}
    (howner : owner ∈ c :: owners) (i : Nat) :
    k'.isOpen owner (lead.renumber i) = k.isOpen owner i := by
  have hid : ∀ g : GatherFrame, (lead.renumber g.id == lead.renumber i) = (g.id == i) := fun g => by
    rw [Bool.eq_iff_iff, beq_iff_eq, beq_iff_eq, lead.renumber_inj]
  rw [Kernel.isOpen, Kernel.isOpen, h.gathers howner, List.any_map]
  exact List.any_congr rfl hid

theorem Abreast.collect (h : Abreast lead c owners k k') (owner : ContextId) (i : Nat)
    (value : Term) :
    Abreast lead c owners (k.collect owner i value)
      (k'.collect owner (lead.renumber i) value) := by
  refine h.updateContext owner (fun _ => rfl) fun x => ?_
  simp only [Context.renumbered, List.map_map, Context.mk.injEq, and_true, true_and]
  refine List.map_congr_left fun g _ => ?_
  simp only [Function.comp, lead.renumber_inj]
  split <;> rfl

theorem Abreast.gatherBegin (h : Abreast lead c owners k k') (pattern : Term) :
    Abreast lead c owners (k.gatherBegin c pattern) (k'.gatherBegin c pattern) := by
  have hid : lead.renumber k.frames = k'.frames := by
    rw [Lead.renumber, if_neg (Nat.not_lt.mpr h.opened), h.frames]
  let opening (i : Nat) (x : Context) : Context :=
    { x with gathers := ⟨i, pattern, []⟩ :: x.gathers }
  have hopening : ∀ x : Context, opening k'.frames (x.renumbered lead) =
      (opening k.frames x).renumbered lead := fun x => by
    simp only [opening, Context.renumbered, List.map_cons, hid]
  have hopened := h.updateContext c (f := opening k.frames) (fun _ => rfl) hopening
  exact { hopened with
    opened := Nat.le_succ_of_le h.opened
    frames := by
      change k'.frames + 1 = k.frames + 1 + lead.ahead
      rw [h.frames, Nat.add_right_comm] }

theorem Abreast.gatherEnd (h : Abreast lead c owners k k') :
    (k'.gatherEnd c).1 = (k.gatherEnd c).1 ∧
      Abreast lead c owners (k.gatherEnd c).2 (k'.gatherEnd c).2 := by
  unfold Kernel.gatherEnd
  rw [h.gathers List.mem_cons_self]
  cases hframes : (k.context c).gathers with
  | nil => exact ⟨rfl, h⟩
  | cons frame rest => exact ⟨rfl, h.updateContext c (fun _ => rfl) fun _ => rfl⟩

end Kernel

/-! ## two runs -/

/-- Terms of two runs are the very same. -/
def Likeness.equality : Likeness Unit where
  Like _ := Eq
  later _ h := h
  strip_eq h := congrArg Term.strip h
  head h := (Term.node.inj h).2.1
  args h := by
    rw [(Term.node.inj h).2.2]
    exact List.forall₂_same.mpr fun _ _ => rfl
  call hf hxs := by
    rw [List.forall₂_eq_eq_eq] at hxs
    rw [hf, hxs]
  symbol _ _ := rfl
  int _ _ := rfl
  magic _ _ := rfl

theorem Likeness.all_equality {xs ys : List Term} (h : Likeness.equality.All () xs ys) :
    xs = ys := by
  rwa [Likeness.All, Likeness.equality, List.forall₂_eq_eq_eq] at h

theorem Likeness.eq_of_outcomes {r r' : Except EvalError Term}
    (h : Likeness.equality.Outcomes () Likeness.equality.Like r r') : r' = r := by
  cases h with
  | ok h => rw [Likeness.equality] at h; rw [h]
  | error h =>
      cases h with
      | thrown h => rw [Likeness.equality] at h; rw [h]
      | other => rfl

/-- Two runs in a context, the second with a lead. -/
def Twins.abreast (lead : Lead) (c : ContextId) (owners : List ContextId) : Twins Unit where
  likeness := Likeness.equality
  Kernels _ _ := Kernel.Abreast lead c owners
  Gathers _ owner i j := owner ∈ c :: owners ∧ j = lead.renumber i
  gathers_later _ h := h
  Generations g g' :=
    (g = none ∧ g' = none) ∨ (g = some lead.generation ∧ g' = some lead.generation')

theorem RuleList.settled_equality (l : RuleList) : l.Settled Likeness.equality () where
  rules _ _ := ⟨rfl, rfl⟩
  demoted _ _ _ _ := ⟨rfl, rfl⟩

theorem Twins.hosts_abreast (lead : Lead) (c : ContextId) (owners : List ContextId) :
    (Twins.abreast lead c owners).Hosts c where
  symbols h := h.symbols
  config h := h.config
  epoch h := h.structureEpoch
  depth h := by
    rw [Kernel.depth, h.context c List.mem_cons_self]
    rfl
  limitReported h := by
    rw [h.context c List.mem_cons_self]
    rfl
  localValue? h s := by
    rw [Kernel.localValue?, h.chain_eq, List.findSome?_map]
    rfl
  localRules? h s := by
    rw [Kernel.localRules?, h.chain_eq, List.findSome?_map]
    rfl
  value _ _ _ _ := rfl
  rules _ _ _ list _ := list.settled_equality
  localRules _ _ list _ := list.settled_equality
  code h s usage code hcode := by
    have horderly := h.orderly s usage code hcode
    cases code with
    | function f =>
        intro w t t' ht
        cases ht
        cases f t with
        | none => exact .none
        | some v => exact .some rfl
    | _ => exact horderly
  poll w n := by
    refine Correspondence.alike_then (Twins.alike_modify fun _ _ _ _ h =>
      { h with clock := congrArg (· + _) h.clock }) (Twins.alike_get fun w' k k' _ h => ?_)
    rw [h.aborting, h.isLate_eq]
    split
    · exact Twins.alike_throw fun _ _ => .other rfl
    · exact Correspondence.alike_pure _ fun _ _ => trivial
  share n ht := by
    cases ht
    intro w' k k' hw hk
    obtain ⟨hterm, hkernel⟩ := hk.share _
    exact ⟨w', le_rfl, hkernel, .ok hterm.symm⟩
  message s tag h hargs := by
    cases Likeness.all_equality hargs
    exact { h with messages := congrArg (_ :: ·) h.messages }
  generations h := h.stampGeneration?_eq
  evaluated {_ _ k k' t _} h ht := by
    cases ht
    rcases h.stampGeneration?_eq with ⟨hnone, hnone'⟩ | ⟨hsome, hsome'⟩
    · rw [hnone, hnone']
      rfl
    · rw [hsome, hsome']
      exact (h.isEvaluated_eq t).symm
  stamp h hg ht := by
    cases ht
    exact h.stamp _ hg
  raise h ht := by
    cases ht
    exact h.updateContext c (fun _ => rfl) fun _ => rfl
  catches h := h.updateContext c (fun _ => rfl) fun _ => rfl
  enter h := h.updateContext c (fun _ => rfl) fun _ => rfl
  leave h := h.updateContext c (fun _ => rfl) fun _ => rfl
  setLimitReported _ h := h.updateContext c (fun _ => rfl) fun _ => rfl
  ancestors := by
    refine ⟨owners, fun {_ _ k k'} h => ⟨h.ancestors, ?_, fun owner howner => ?_⟩⟩
    · rw [h.context c List.mem_cons_self]
      exact h.ancestors
    · rw [h.gathers howner]
      exact List.forall₂_map_right_iff.mpr
        (List.forall₂_same.mpr fun _ _ => ⟨⟨howner, rfl⟩, rfl⟩)
  isOpen h hid := by
    obtain ⟨howner, rfl⟩ := hid
    exact (h.isOpen howner _).symm
  collect h hid ht := by
    obtain ⟨-, rfl⟩ := hid
    cases ht
    exact h.collect _ _ _
  opens {w _ _ _ _ _} h ht := by
    cases ht
    exact ⟨w, le_rfl, h.gatherBegin _⟩
  closes h := by
    obtain ⟨hvalues, hkernel⟩ := h.gatherEnd
    refine ⟨hkernel, ?_⟩
    rw [hvalues]
    exact List.forall₂_same.mpr fun _ _ => rfl
  rebuild hcall hhead hargs _ := by
    cases hcall
    cases hhead
    cases Likeness.all_equality hargs
    rfl

/-! ## isolation -/

namespace Kernel

/-- No node is stamped with the generation, or a later one. -/
def Unstamped (k : Kernel) : Prop := ∀ id, k.stamps.getD id 0 < k.generation

/-- Nothing that is looked up in a context tells two kernels apart. -/
structure AlikeIn (c : ContextId) (k k' : Kernel) : Prop where
  config : k'.config = k.config
  symbols : k'.symbols = k.symbols
  aborting : k'.aborting = k.aborting
  messages : k'.messages = k.messages
  structureEpoch : k'.structureEpoch = k.structureEpoch
  clock : k'.clock = k.clock
  context : ∀ owner ∈ k.line c, k'.context owner = k.context owner
  isEvaluated : ∀ t, k'.isEvaluated t k'.generation = k.isEvaluated t k.generation

variable {c : ContextId} {k k' : Kernel}

theorem renumbered_of_lt {lead : Lead} {x : Context} (h : ∀ g ∈ x.gathers, g.id < lead.first) :
    x.renumbered lead = x := by
  have hgathers : (x.gathers.map fun g => { g with id := lead.renumber g.id }) = x.gathers := by
    rw [List.map_congr_left (g := id), List.map_id]
    intro g hg
    rw [Lead.renumber, if_pos (h g hg)]
    rfl
  rw [Context.renumbered, hgathers]

theorem renumbered_of_ids {lead : Lead} {x : Context}
    (h : x.gathers.map (fun g => lead.renumber g.id) = x.gathers.map (·.id)) :
    x.renumbered lead = x := by
  have hgathers : (x.gathers.map fun g => { g with id := lead.renumber g.id }) = x.gathers := by
    rw [List.map_congr_left (g := id), List.map_id]
    intro g hg
    rw [List.map_inj_left.mp h g hg]
    rfl
  rw [Context.renumbered, hgathers]

/-- Runs start abreast after changes elsewhere. -/
theorem DiffersElsewhere.abreast (h : DiffersElsewhere (k.line c) k k') (hk : k.Orderly)
    (hstamps : k.Unstamped) (hgathers : k.GathersCounted c) :
    Abreast ⟨k.generation, k'.generation, k.frames, k'.frames - k.frames⟩ c
      (k.context c).ancestors k k' where
  orderly := hk
  config := h.config
  symbols := h.symbols
  aborting := h.aborting
  messages := h.messages
  structureEpoch := h.structureEpoch
  clock := h.clock
  size := h.size
  ancestors := rfl
  context owner howner := by
    rw [h.context owner howner, renumbered_of_lt fun g hg => ?_]
    exact hgathers owner howner _ (List.mem_map_of_mem hg)
  generation := rfl
  generation' := rfl
  stamped := by rw [h.stamps]
  stamps id := by
    have hid := hstamps id
    have hgeneration := h.generation
    rw [h.stamps]
    dsimp only
    omega
  opened := Nat.le_refl _
  frames := by
    have hframes := h.frames
    dsimp only
    omega

/-- Runs that end abreast, with the same gathers open, end alike. -/
theorem Abreast.alikeIn {lead : Lead} {owners : List ContextId} (h : Abreast lead c owners k k')
    (hgathers : ∀ owner ∈ k.line c, k'.openGathers owner = k.openGathers owner) :
    AlikeIn c k k' where
  config := h.config
  symbols := h.symbols
  aborting := h.aborting
  messages := h.messages
  structureEpoch := h.structureEpoch
  clock := h.clock
  context owner howner := by
    have hids := hgathers owner howner
    rw [line, h.ancestors] at howner
    have hcontext := h.context owner howner
    rw [hcontext, renumbered_of_ids]
    rw [openGathers, openGathers, h.gathers howner, List.map_map] at hids
    have hfirst := congrArg (List.map Prod.fst) hids
    rwa [List.map_map, List.map_map] at hfirst
  isEvaluated t := by
    rw [h.generation, h.generation']
    exact h.isEvaluated_eq t

theorem unstamped_of_all (hgeneration : 0 < k.generation)
    (h : k.stamps.all (· < k.generation) = true) : k.Unstamped := by
  intro id
  rw [Array.getD_eq_getD_getElem?]
  rcases Nat.lt_or_ge id k.stamps.size with hid | hid
  · rw [Array.getElem?_eq_getElem hid]
    exact of_decide_eq_true (Array.all_eq_true.mp h id hid)
  · rwa [Array.getElem?_eq_none hid]

/-- Contexts are isolated.  Whatever was done to contexts other than one and those it was spawned
from, evaluation in it gives the same result or fails with the same error, and leaves all that is
looked up in it the same: messages, definitions, its own bindings, exception and gathers and those
of the contexts it was spawned from. -/
theorem Orderly.evaluateWith_isolated (hk : k.Orderly) (hstamps : k.Unstamped)
    (hgathers : k.GathersCounted c) {ops : List (ContextId × ContextOp)}
    (hops : ∀ op ∈ ops, op.1 ∉ k.line c) (fuel : Nat) (t : Term) :
    ((evaluateWith fuel c t).run (k.applyAll ops)).1 = ((evaluateWith fuel c t).run k).1 ∧
      AlikeIn c ((evaluateWith fuel c t).run k).2
        ((evaluateWith fuel c t).run (k.applyAll ops)).2 := by
  have hdiffers := k.differsElsewhere_applyAll hops
  have habreast := hdiffers.abreast hk hstamps hgathers
  have hpreserves := hk.preserves_evaluateWith fuel c t
  have hpreserves' := (hk.of_symbols_eq hdiffers.symbols).preserves_evaluateWith fuel c t
  obtain ⟨_, -, hends, hresults⟩ :=
    (Evaluator.inLockstep_ofFuel (Twins.hosts_abreast _ c _) fuel).evaluate 0 (w := ()) (t := t)
      rfl () k (k.applyAll ops) le_rfl habreast
  have habreast' : Abreast _ c _ ((evaluateWith fuel c t).run k).2
    ((evaluateWith fuel c t).run (k.applyAll ops)).2 := hends
  refine ⟨Likeness.eq_of_outcomes hresults, habreast'.alikeIn fun owner howner => ?_⟩
  rw [line, habreast'.ancestors] at howner
  rw [hpreserves.gathers, hpreserves'.gathers, openGathers, openGathers,
    hdiffers.context owner howner]

end Kernel

/-- A kernel with two contexts spawned from one that has a gather open. -/
def siblingKernel : Kernel :=
  (((((namedKernel {}).gatherBegin ⟨0⟩ (.app .blank [])).spawnChild ⟨0⟩).2).spawnChild ⟨0⟩).2

/-- What is bound, thrown and gathered in one context does not show in the other. -/
theorem evaluateWith_isolated_sibling :
    let ops : List (ContextId × ContextOp) :=
      [(⟨2⟩, .setLocal ⟨38, "x"⟩ (.int 1)), (⟨2⟩, .raise (.int 2)),
        (⟨2⟩, .gatherBegin (.app .blank []))]
    ((evaluateWith 4 ⟨1⟩ (.symbol ⟨38, "x"⟩)).run (siblingKernel.applyAll ops)).1 =
        ((evaluateWith 4 ⟨1⟩ (.symbol ⟨38, "x"⟩)).run siblingKernel).1 ∧
      Kernel.AlikeIn ⟨1⟩ ((evaluateWith 4 ⟨1⟩ (.symbol ⟨38, "x"⟩)).run siblingKernel).2
        ((evaluateWith 4 ⟨1⟩ (.symbol ⟨38, "x"⟩)).run (siblingKernel.applyAll ops)).2 :=
  Kernel.Orderly.evaluateWith_isolated (k := siblingKernel) (c := ⟨1⟩)
    (Kernel.orderly_of_all (by decide +kernel))
    (Kernel.unstamped_of_all (by decide) (by decide +kernel))
    (by unfold Kernel.GathersCounted; decide +kernel) (by decide +kernel) 4 _

end Termwise
