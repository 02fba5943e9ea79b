import Mathlib.Data.List.Basic
import Termwise.Memory.Heap

/-!
# Termwise.Proofs.Memory.Counted

Counting handles.  A heap is *counted* for the handles in hand when every
allocation has as many handles as are in hand and in the contents of allocations
together, and at least one:

```text
take       the handles in the contents of an allocation come to hand
put back   handles in hand go into the contents of an allocation
release    a handle in hand, and those that go with it, are gone
```

An operation only adds allocations, or only takes away what no handle keeps.  So
what the remaining handles reach is as it was, and so is whatever an allocation
reaches that was there before; an allocation that is there only now is `fresh`
(`Evolves`).
-/

namespace Termwise.Memory.Heap

variable {α : Type} {refs : α → List Nat} {fresh : α → Prop} {h h' : Heap α} {id : Nat} {v : α}
  {owners : List Nat}

/-! ## cells -/

/-- Handles in a place. -/
def handlesIn (c : Option (Cell α)) : Nat := (c.map Cell.handles).getD 0

/-- The handles that the contents of a place keep. -/
def keptIn (refs : α → List Nat) (c : Option (Cell α)) : List Nat :=
  (c.map fun c => refs c.contents).getD []

/-- The handles that the contents of allocations keep. -/
def kept (refs : α → List Nat) (h : Heap α) : List Nat := h.cells.flatMap (keptIn refs)

theorem handles_eq (h : Heap α) (id : Nat) : h.handles id = handlesIn (h.cell? id) := rfl

theorem cell?_eq_some {c : Cell α} : h.cell? id = some c ↔ h.cells[id]? = some (some c) :=
  Option.join_eq_some_iff

theorem read_eq_some : h.read id = some v ↔ ∃ n, h.cell? id = some ⟨v, n⟩ := by
  simp only [read, Option.map_eq_some_iff]
  constructor
  · rintro ⟨⟨_, n⟩, hcell, rfl⟩
    exact ⟨n, hcell⟩
  · rintro ⟨n, hcell⟩
    exact ⟨_, hcell, rfl⟩

theorem lt_of_cell?_eq_some {c : Cell α} (hcell : h.cell? id = some c) : id < h.cells.length :=
  (List.getElem?_eq_some_iff.mp (cell?_eq_some.mp hcell)).1

theorem cell?_put (hid : id < h.cells.length) (c : Option (Cell α)) (a : Nat) :
    (h.put id c).cell? a = if a = id then c else h.cell? a := by
  simp only [cell?, put, List.getElem?_set, hid, if_true]
  split
  · rename_i heq
    simp [heq]
  · rename_i hne
    rw [if_neg (Ne.symm hne)]

theorem cell?_alloc (h : Heap α) (v : α) (a : Nat) :
    (h.alloc v).2.cell? a = if a = h.cells.length then some ⟨v, 1⟩ else h.cell? a := by
  simp only [cell?, alloc]
  split
  · rename_i heq
    simp [heq]
  · rename_i hne
    rcases Nat.lt_or_gt_of_ne hne with hlt | hgt
    · rw [List.getElem?_append_left hlt]
    · rw [List.getElem?_eq_none (by simp; omega), List.getElem?_eq_none (by omega)]

/-- Another number of handles for an allocation. -/
theorem read_put_handles {m n : Nat} (hcell : h.cell? id = some ⟨v, n⟩) (a : Nat) :
    (h.put id (some ⟨v, m⟩)).read a = h.read a := by
  rw [read, cell?_put (lt_of_cell?_eq_some hcell)]
  split
  · rename_i heq
    rw [heq, read, hcell]
    rfl
  · rfl

theorem makeUnique_of_alone (refs : α → List Nat) (copy : α → α)
    (hcell : h.cell? id = some ⟨v, 1⟩) : h.makeUnique refs copy id = some (id, h) := by
  rw [makeUnique, hcell]
  rfl

/-- Whether the places that were freed are still free. -/
def StaysFree (h h' : Heap α) : Prop :=
  ∀ id : Nat, h.cells[id]? = some none → h'.cells[id]? = some none

theorem StaysFree.refl (h : Heap α) : StaysFree h h := fun _ hfree => hfree

theorem StaysFree.trans {h'' : Heap α} (first : StaysFree h h') (second : StaysFree h' h'') :
    StaysFree h h'' := fun id hfree => second id (first id hfree)

theorem staysFree_put {c : Cell α} (hcell : h.cell? id = some c) (new : Option (Cell α)) :
    StaysFree h (h.put id new) := by
  intro a hfree
  have hne : id ≠ a := by
    rintro rfl
    rw [cell?_eq_some, hfree] at hcell
    cases hcell
  rw [put, List.getElem?_set_ne hne]
  exact hfree

theorem staysFree_alloc (h : Heap α) (v : α) : StaysFree h (h.alloc v).2 := by
  intro a hfree
  rw [alloc, List.getElem?_append_left (List.getElem?_eq_some_iff.mp hfree).1]
  exact hfree

/-- Contents that go into a place and those that leave it. -/
theorem count_flatMap_set {β : Type} (f : β → List Nat) {x : β} (y : β) (a : Nat) :
    ∀ {l : List β} {i : Nat}, l[i]? = some x →
      ((l.set i y).flatMap f).count a + (f x).count a = (l.flatMap f).count a + (f y).count a
  | z :: l, 0, hx => by
      obtain rfl : z = x := by simpa using hx
      simp only [List.set_cons_zero, List.flatMap_cons, List.count_append]
      omega
  | z :: l, i + 1, hx => by
      have := count_flatMap_set f y a (show l[i]? = some x by simpa using hx)
      simp only [List.set_cons_succ, List.flatMap_cons, List.count_append]
      omega

theorem count_kept_put (refs : α → List Nat) {old : Option (Cell α)}
    (hold : h.cells[id]? = some old) (new : Option (Cell α)) (a : Nat) :
    ((h.put id new).kept refs).count a + (keptIn refs old).count a =
      (h.kept refs).count a + (keptIn refs new).count a :=
  count_flatMap_set (keptIn refs) new a hold

theorem kept_alloc (h : Heap α) (v : α) : (h.alloc v).2.kept refs = h.kept refs ++ refs v := by
  simp [kept, alloc, keptIn]

theorem mem_kept_iff {a : Nat} : a ∈ h.kept refs ↔ ∃ id v, h.read id = some v ∧ a ∈ refs v := by
  simp only [kept, List.mem_flatMap, read_eq_some]
  constructor
  · rintro ⟨c, hc, ha⟩
    obtain ⟨id, hplace⟩ := List.mem_iff_getElem?.mp hc
    cases c with
    | none => cases ha
    | some c => exact ⟨id, c.contents, ⟨c.handles, cell?_eq_some.mpr hplace⟩, ha⟩
  · rintro ⟨id, v, ⟨n, hcell⟩, ha⟩
    exact ⟨_, List.mem_of_getElem? (cell?_eq_some.mp hcell), ha⟩

theorem mem_kept_of_read (hread : h.read id = some v) {a : Nat} (ha : a ∈ refs v) :
    a ∈ h.kept refs :=
  mem_kept_iff.mpr ⟨id, v, hread, ha⟩

/-! ## what handles reach -/

/-- The allocations that handles keep, directly or through the contents of others. -/
inductive Reaches (refs : α → List Nat) (h : Heap α) (owners : List Nat) : Nat → Prop
  | owned {id : Nat} : id ∈ owners → Reaches refs h owners id
  | kept {x id : Nat} {v : α} :
      Reaches refs h owners x → h.read x = some v → id ∈ refs v → Reaches refs h owners id

/-- Whether all that handles reach is as before. -/
def Keeps (refs : α → List Nat) (owners : List Nat) (h h' : Heap α) : Prop :=
  ∀ id, h.Reaches refs owners id → h'.read id = h.read id

/-- Whether every allocation of a heap is one of another heap. -/
def Within (h h' : Heap α) : Prop := ∀ id v, h.read id = some v → h'.read id = some v

theorem Reaches.mono {more : List Nat} (hsub : owners ⊆ more) (hid : h.Reaches refs owners id) :
    h.Reaches refs more id := by
  induction hid with
  | owned hmem => exact .owned (hsub hmem)
  | kept _ hread hmem ih => exact .kept ih hread hmem

theorem Reaches.of_keeps (hkeeps : Keeps refs owners h h') (hid : h.Reaches refs owners id) :
    h'.Reaches refs owners id := by
  induction hid with
  | owned hmem => exact .owned hmem
  | kept hx hread hmem ih => exact .kept ih ((hkeeps _ hx).trans hread) hmem

theorem Keeps.trans {h'' : Heap α} (first : Keeps refs owners h h')
    (second : Keeps refs owners h' h'') : Keeps refs owners h h'' :=
  fun id hid => (second id (hid.of_keeps first)).trans (first id hid)

theorem Keeps.mono {more : List Nat} (hkeeps : Keeps refs more h h') (hsub : owners ⊆ more) :
    Keeps refs owners h h' := fun id hid => hkeeps id (hid.mono hsub)

/-- Whether all that handles reach is as before, and an allocation that is not fresh was there, with
all that it reaches. -/
structure Evolves (refs : α → List Nat) (fresh : α → Prop) (owners : List Nat) (h h' : Heap α) :
    Prop where
  keeps : Keeps refs owners h h'
  stale : ∀ {id v}, h'.read id = some v → ¬ fresh v →
    h.read id = some v ∧ Keeps refs [id] h h'

theorem Evolves.refl (refs : α → List Nat) (fresh : α → Prop) (owners : List Nat) (h : Heap α) :
    Evolves refs fresh owners h h := ⟨fun _ _ => rfl, fun hread _ => ⟨hread, fun _ _ => rfl⟩⟩

theorem Evolves.trans {h'' : Heap α} (first : Evolves refs fresh owners h h')
    (second : Evolves refs fresh owners h' h'') : Evolves refs fresh owners h h'' where
  keeps := first.keeps.trans second.keeps
  stale hread hstale := by
    obtain ⟨hread', hkeeps'⟩ := second.stale hread hstale
    obtain ⟨hread, hkeeps⟩ := first.stale hread' hstale
    exact ⟨hread, hkeeps.trans hkeeps'⟩

theorem Evolves.mono {more : List Nat} (hevolves : Evolves refs fresh more h h')
    (hsub : owners ⊆ more) : Evolves refs fresh owners h h' where
  keeps := hevolves.keeps.mono hsub
  stale := hevolves.stale

/-! ## counted heaps -/

/-- Whether a heap counts the handles in hand and in its contents. -/
structure Counted (refs : α → List Nat) (h : Heap α) (owners : List Nat) : Prop where
  handles_eq : ∀ id, h.handles id = owners.count id + (h.kept refs).count id
  positive : ∀ {id c}, h.cell? id = some c → 0 < c.handles

theorem counted_empty (refs : α → List Nat) : Counted refs (Heap.mk []) [] where
  handles_eq _ := rfl
  positive hcell := by simp [cell?] at hcell

namespace Counted

theorem congr (counted : Counted refs h owners) {others : List Nat}
    (heq : ∀ a, owners.count a = others.count a) : Counted refs h others where
  handles_eq a := by rw [counted.handles_eq, heq]
  positive := counted.positive

theorem perm (counted : Counted refs h owners) {others : List Nat} (hperm : owners.Perm others) :
    Counted refs h others :=
  counted.congr hperm.count_eq

/-- What a handle keeps is there. -/
theorem exists_cell (counted : Counted refs h owners) (hid : id ∈ owners ++ h.kept refs) :
    ∃ c, h.cell? id = some c := by
  have hpos : 0 < h.handles id := by
    rw [counted.handles_eq, ← List.count_append]
    exact List.count_pos_iff.mpr hid
  cases hcell : h.cell? id with
  | some c => exact ⟨c, rfl⟩
  | none => simp [handles, hcell] at hpos

theorem exists_read (counted : Counted refs h owners) (hid : id ∈ owners ++ h.kept refs) :
    ∃ v, h.read id = some v := by
  obtain ⟨c, hcell⟩ := counted.exists_cell hid
  exact ⟨c.contents, by simp [read, hcell]⟩

/-- Adding allocations keeps what allocations reach. -/
theorem keeps_of_within {others : List Nat} (counted : Counted refs h others)
    (hwithin : h.Within h') (hlive : ∀ a ∈ owners, ∃ v, h.read a = some v) :
    Keeps refs owners h h' := by
  intro id hid
  have hread : ∃ v, h.read id = some v := by
    cases hid with
    | owned hmem => exact hlive id hmem
    | kept _ hread hmem =>
        exact counted.exists_read (List.mem_append_right _ (mem_kept_of_read hread hmem))
  obtain ⟨v, hread⟩ := hread
  rw [hread, hwithin id v hread]

/-- Taking allocations away keeps what those that are left reach. -/
theorem keeps_of_within_of_counted {others : List Nat} (counted : Counted refs h' others)
    (hwithin : h'.Within h) (hlive : ∀ a ∈ owners, ∃ v, h'.read a = some v) :
    Keeps refs owners h h' := by
  have hsame : ∀ {id}, (∃ v, h'.read id = some v) → h'.read id = h.read id := fun ⟨v, hread⟩ => by
    rw [hread, hwithin _ v hread]
  intro id hid
  induction hid with
  | owned hmem => exact hsame (hlive _ hmem)
  | kept _ hread hmem ih =>
      exact hsame (counted.exists_read
        (List.mem_append_right _ (mem_kept_of_read (ih.trans hread) hmem)))

/-- Adding fresh allocations. -/
theorem evolves_of_within (counted : Counted refs h owners) (hwithin : h.Within h')
    (hfresh : ∀ {id v}, h'.read id = some v → ¬ fresh v → h.read id = some v) :
    Evolves refs fresh owners h h' where
  keeps := counted.keeps_of_within hwithin fun _ hmem =>
    counted.exists_read (List.mem_append_left _ hmem)
  stale hread hstale := by
    have hbefore := hfresh hread hstale
    exact ⟨hbefore, counted.keeps_of_within hwithin (by simpa using ⟨_, hbefore⟩)⟩

/-- Taking allocations away. -/
theorem evolves_of_within_of_counted {others : List Nat} (counted : Counted refs h' others)
    (fresh : α → Prop) (hwithin : h'.Within h) (howners : owners ⊆ others ++ h'.kept refs) :
    Evolves refs fresh owners h h' where
  keeps := counted.keeps_of_within_of_counted hwithin fun _ hmem =>
    counted.exists_read (howners hmem)
  stale hread _ :=
    ⟨hwithin _ _ hread, counted.keeps_of_within_of_counted hwithin (by simpa using ⟨_, hread⟩)⟩

/-- The only handle of an allocation is nowhere else. -/
theorem not_mem_of_handles_eq_one (counted : Counted refs h (id :: owners))
    (hone : h.handles id = 1) : id ∉ owners ∧ id ∉ h.kept refs := by
  have := counted.handles_eq id
  rw [List.count_cons_self] at this
  exact ⟨List.count_eq_zero.mp (by omega), List.count_eq_zero.mp (by omega)⟩

/-- An allocation that has one handle keeps that one when others let go. -/
theorem alone_of_within {others : List Nat} (counted : Counted refs h (id :: others))
    (hcell : h.cell? id = some ⟨v, 1⟩) (counted' : Counted refs h' (id :: owners))
    (hwithin : h'.Within h) (hsub : owners ⊆ others) : h'.cell? id = some ⟨v, 1⟩ := by
  have halone := counted.not_mem_of_handles_eq_one (by rw [handles, hcell]; rfl)
  have hkept : id ∉ h'.kept refs := fun hmem => by
    obtain ⟨x, w, hx, hw⟩ := mem_kept_iff.mp hmem
    exact halone.2 (mem_kept_of_read (hwithin x w hx) hw)
  have howners : id ∉ owners := fun hmem => halone.1 (hsub hmem)
  obtain ⟨⟨w, m⟩, hcell'⟩ :=
    counted'.exists_cell (List.mem_append_left _ (List.mem_cons_self (a := id)))
  obtain rfl : w = v := by
    have := hwithin _ _ (read_eq_some.mpr ⟨m, hcell'⟩)
    rw [read, hcell] at this
    exact (Option.some.inj this).symm
  have hm := counted'.handles_eq id
  rw [handles, hcell'] at hm
  simp only [Option.map_some, Option.getD_some, List.count_cons_self,
    List.count_eq_zero.mpr howners, List.count_eq_zero.mpr hkept] at hm
  rw [hcell', hm]

/-! ## operations -/

/-- A new allocation takes the handles in its contents. -/
theorem alloc (counted : Counted refs h (refs v ++ owners)) (fresh : α → Prop) (hv : fresh v) :
    ∃ new h', h.alloc v = (new, h') ∧ h'.cell? new = some ⟨v, 1⟩ ∧
      Counted refs h' (new :: owners) ∧ Evolves refs fresh (refs v ++ owners) h h' ∧
      StaysFree h h' := by
  have hfree : ∀ c, h.cell? h.cells.length ≠ some c := fun c hcell =>
    Nat.lt_irrefl _ (lt_of_cell?_eq_some hcell)
  refine ⟨h.cells.length, _, rfl, ?_, ⟨fun a => ?_, fun {a c} hcell => ?_⟩,
    counted.evolves_of_within (fun a w hread => ?_) fun {a w} hread hstale => ?_,
    staysFree_alloc h v⟩
  · exact (cell?_alloc h v _).trans (if_pos rfl)
  · have hcount := counted.handles_eq a
    rw [Heap.handles_eq, List.count_append] at hcount
    change ((h.alloc v).2.handles a) = _ + ((h.alloc v).2.kept refs).count a
    rw [Heap.handles_eq, cell?_alloc, kept_alloc, List.count_append]
    by_cases ha : a = h.cells.length
    · subst ha
      rw [Option.eq_none_iff_forall_ne_some.mpr hfree] at hcount
      simp only [handlesIn, Option.map_none, Option.getD_none] at hcount
      simp only [if_true, handlesIn, Option.map_some, Option.getD_some, List.count_cons_self]
      omega
    · rw [if_neg ha, List.count_cons_of_ne (Ne.symm ha)]
      omega
  · replace hcell := (cell?_alloc h v a).symm.trans hcell
    split at hcell
    · cases hcell
      exact Nat.one_pos
    · exact counted.positive hcell
  · obtain ⟨n, hcell⟩ := read_eq_some.mp hread
    refine read_eq_some.mpr ⟨n, (cell?_alloc h v a).trans ?_⟩
    rwa [if_neg (Nat.ne_of_lt (lt_of_cell?_eq_some hcell))]
  · replace hread := (congrArg (Option.map Cell.contents) (cell?_alloc h v a).symm).trans hread
    split at hread
    · cases hread
      exact absurd hv hstale
    · exact hread

/-- Putting an allocation in a place or freeing one, when the handles come out right. -/
theorem put {others : List Nat} {old new : Option (Cell α)} (counted : Counted refs h owners)
    (hold : h.cells[id]? = some old) (hpositive : ∀ c, new = some c → 0 < c.handles)
    (hid : handlesIn new + owners.count id + (keptIn refs old).count id =
      handlesIn old + others.count id + (keptIn refs new).count id)
    (hothers : ∀ a, a ≠ id → owners.count a + (keptIn refs old).count a =
      others.count a + (keptIn refs new).count a) : Counted refs (h.put id new) others := by
  have hlt : id < h.cells.length := (List.getElem?_eq_some_iff.mp hold).1
  refine ⟨fun a => ?_, fun {a c} hcell => ?_⟩
  · have hkept := count_kept_put refs hold new a
    have hcount := counted.handles_eq a
    rw [Heap.handles_eq, cell?_put hlt]
    split
    · rename_i heq
      subst heq
      rw [Heap.handles_eq, show h.cell? a = old by simp [cell?, hold]] at hcount
      omega
    · rename_i hne
      have := hothers a hne
      rw [Heap.handles_eq] at hcount
      omega
  · rw [cell?_put hlt] at hcell
    split at hcell
    · exact hpositive c hcell
    · exact counted.positive hcell

/-- Other contents that keep the same, in an allocation that is there. -/
theorem store {v' : α} (counted : Counted refs h owners) (hread : h.read id = some v)
    (hrefs : refs v' = refs v) :
    ∃ h', h.write id v' = some h' ∧ Counted refs h' owners ∧
      (∀ a, h'.read a = if a = id then some v' else h.read a) ∧ StaysFree h h' := by
  obtain ⟨n, hcell⟩ := read_eq_some.mp hread
  refine ⟨_, by rw [Heap.write, hcell, Option.map_some], ?_, fun a => ?_, staysFree_put hcell _⟩
  · refine counted.put (cell?_eq_some.mp hcell) (fun c hc => ?_) ?_ fun a _ => ?_
    · cases hc
      exact counted.positive (c := ⟨v, n⟩) hcell
    · simp only [handlesIn, keptIn, Option.map_some, Option.getD_some, hrefs]
    · simp only [keptIn, Option.map_some, Option.getD_some, hrefs]
  · rw [read, cell?_put (lt_of_cell?_eq_some hcell)]
    split <;> rfl

/-- One handle more of an allocation that is kept. -/
theorem retain (counted : Counted refs h owners) (hid : id ∈ owners ++ h.kept refs) :
    ∃ h', h.retain id = some h' ∧ Counted refs h' (id :: owners) ∧
      (∀ a, h'.read a = h.read a) ∧ StaysFree h h' := by
  obtain ⟨⟨v, n⟩, hcell⟩ := counted.exists_cell hid
  refine ⟨_, by rw [Heap.retain, hcell, Option.map_some], ?_, read_put_handles hcell,
    staysFree_put hcell _⟩
  refine counted.put (cell?_eq_some.mp hcell) (fun c hc => ?_) ?_ fun a hne => ?_
  · cases hc
    exact Nat.succ_pos n
  · simp only [handlesIn, keptIn, Option.map_some, Option.getD_some, List.count_cons_self]
    omega
  · rw [List.count_cons_of_ne (Ne.symm hne)]
    rfl

theorem retainAll (counted : Counted refs h owners) (ids : List Nat)
    (hids : ids ⊆ owners ++ h.kept refs) :
    ∃ h', h.retainAll ids = some h' ∧ Counted refs h' (ids ++ owners) ∧
      (∀ a, h'.read a = h.read a) ∧ StaysFree h h' := by
  induction ids generalizing h owners with
  | nil => exact ⟨h, rfl, counted, fun _ => rfl, .refl h⟩
  | cons id ids ih =>
      obtain ⟨h₁, hretain, counted₁, hread₁, hfree₁⟩ :=
        counted.retain (hids (List.mem_cons_self ..))
      have hids₁ : ids ⊆ id :: owners ++ h₁.kept refs := fun a ha => by
        have := hids (List.mem_cons_of_mem _ ha)
        simp only [List.mem_append, List.mem_cons, mem_kept_iff, hread₁] at this ⊢
        tauto
      obtain ⟨h', hrest, counted', hread', hfree'⟩ := ih counted₁ hids₁
      exact ⟨h', by rw [Heap.retainAll, hretain, Option.bind_some, hrest],
        counted'.perm List.perm_middle, fun a => (hread' a).trans (hread₁ a), hfree₁.trans hfree'⟩

/-- Freeing an allocation through its only handle: what it kept comes to hand. -/
theorem take (counted : Counted refs h (id :: owners)) (hcell : h.cell? id = some ⟨v, 1⟩) :
    Counted refs (h.put id none) (refs v ++ owners) ∧ (h.put id none).Within h := by
  have hread : h.read id = some v := read_eq_some.mpr ⟨1, hcell⟩
  have hkept : id ∉ refs v := fun hmem =>
    (counted.not_mem_of_handles_eq_one (by simp [handles, hcell])).2 (mem_kept_of_read hread hmem)
  refine ⟨counted.put (cell?_eq_some.mp hcell) (fun c hc => nomatch hc) ?_ fun a hne => ?_,
    fun a w hread => ?_⟩
  · simp only [handlesIn, keptIn, Option.map_some, Option.map_none, Option.getD_some,
      Option.getD_none, List.count_cons_self, List.count_append, List.count_nil,
      List.count_eq_zero.mpr hkept]
    omega
  · rw [List.count_cons_of_ne (Ne.symm hne), List.count_append]
    simp only [keptIn, Option.map_some, Option.map_none, Option.getD_some, Option.getD_none,
      List.count_nil]
    omega
  · rw [read, cell?_put (lt_of_cell?_eq_some hcell)] at hread
    split at hread
    · cases hread
    · exact hread

/-- Putting contents in a free place: they take the handles in them. -/
theorem fill (fresh : α → Prop) (counted : Counted refs h (refs v ++ owners))
    (hplace : h.cells[id]? = some none) (hv : fresh v) :
    Counted refs (h.put id (some ⟨v, 1⟩)) (id :: owners) ∧
      Evolves refs fresh (refs v ++ owners) h (h.put id (some ⟨v, 1⟩)) := by
  have hlt : id < h.cells.length := (List.getElem?_eq_some_iff.mp hplace).1
  have hfree : id ∉ refs v ++ owners := fun hmem => by
    obtain ⟨c, hcell⟩ := counted.exists_cell (List.mem_append_left _ hmem)
    simp [cell?, hplace] at hcell
  refine ⟨counted.put hplace (fun c hc => ?_) ?_ fun a hne => ?_,
    counted.evolves_of_within (fun a w hread => ?_) fun {a w} hread hstale => ?_⟩
  · cases hc
    exact Nat.one_pos
  · rw [List.count_eq_zero.mpr hfree]
    simp only [List.mem_append, not_or] at hfree
    simp [handlesIn, keptIn, List.count_eq_zero.mpr hfree.1, List.count_eq_zero.mpr hfree.2]
  · rw [List.count_cons_of_ne (Ne.symm hne), List.count_append]
    simp only [keptIn, Option.map_some, Option.map_none, Option.getD_some, Option.getD_none,
      List.count_nil]
    omega
  · rw [read, cell?_put hlt]
    split
    · rename_i heq
      rw [heq, read, cell?, hplace] at hread
      cases hread
    · exact hread
  · rw [read, cell?_put hlt] at hread
    split at hread
    · cases hread
      exact absurd hv hstale
    · exact hread

/-- Letting go of a handle that is not the only one. -/
theorem drop {n : Nat} (counted : Counted refs h (id :: owners))
    (hcell : h.cell? id = some ⟨v, n + 2⟩) :
    Counted refs (h.put id (some ⟨v, n + 1⟩)) owners := by
  refine counted.put (cell?_eq_some.mp hcell) (fun c hc => ?_) ?_ fun a hne => ?_
  · cases hc
    exact Nat.succ_pos n
  · simp only [handlesIn, keptIn, Option.map_some, Option.getD_some, List.count_cons_self]
    omega
  · rw [List.count_cons_of_ne (Ne.symm hne)]
    rfl

/-- Letting go of handles: allocations go only when nothing keeps them. -/
theorem release (ids : List Nat) (counted : Counted refs h (ids ++ owners)) :
    ∃ h', h.release refs ids = some h' ∧ Counted refs h' owners ∧ h'.Within h ∧
      StaysFree h h' := by
  induction h, ids using Heap.release.induct refs with
  | case1 h => exact ⟨h, by rw [Heap.release], counted, fun _ _ hread => hread, .refl h⟩
  | case2 h id ids hnone =>
      obtain ⟨c, hcell⟩ :=
        counted.exists_cell (List.mem_append_left _ (List.mem_cons_self (a := id)))
      rw [hnone] at hcell
      cases hcell
  | case3 h id ids v hzero => exact absurd (counted.positive hzero) (Nat.lt_irrefl 0)
  | case4 h id ids v hone ih =>
      obtain ⟨counted₁, hwithin₁⟩ := take counted hone
      obtain ⟨h', hrest, counted', hwithin', hfree'⟩ := ih (by simpa using counted₁)
      refine ⟨h', ?_, counted', fun a w hread => hwithin₁ a w (hwithin' a w hread),
        (staysFree_put hone none).trans hfree'⟩
      rw [Heap.release]
      split <;> simp_all
  | case5 h id ids v n hmany ih =>
      obtain ⟨h', hrest, counted', hwithin', hfree'⟩ := ih (drop counted hmany)
      refine ⟨h', ?_, counted', fun a w hread => ?_, (staysFree_put hmany _).trans hfree'⟩
      · rw [Heap.release]
        split <;> simp_all
      · rw [← read_put_handles hmany]
        exact hwithin' a w hread

/-- A handle made the only one of its allocation: the allocation as it was, or a copy. -/
theorem makeUnique {copy : α → α} (fresh : α → Prop) (hcopy : ∀ v, refs (copy v) = refs v)
    (hfresh : ∀ v, fresh (copy v)) (counted : Counted refs h (id :: owners))
    (hread : h.read id = some v) :
    ∃ id' h' v', h.makeUnique refs copy id = some (id', h') ∧ h'.cell? id' = some ⟨v', 1⟩ ∧
      (v' = v ∨ v' = copy v) ∧ Counted refs h' (id' :: owners) ∧
      Evolves refs fresh (refs v ++ owners) h h' ∧ StaysFree h h' := by
  obtain ⟨n, hcell⟩ := read_eq_some.mp hread
  rw [Heap.makeUnique, hcell, Option.bind_eq_bind, Option.bind_some]
  by_cases hone : n = 1
  · subst hone
    exact ⟨id, h, v, rfl, hcell, .inl rfl, counted, .refl .., .refl h⟩
  rw [if_neg hone]
  -- the copy keeps what the contents keep, so nothing that it needs goes with the old handle
  obtain ⟨h₁, hretain, counted₁, hread₁, hfree₁⟩ := counted.retainAll (refs v) fun a ha =>
    List.mem_append_right _ (mem_kept_of_read hread ha)
  have hevolves₁ : Evolves refs fresh (refs v ++ owners) h h₁ :=
    ⟨fun a _ => hread₁ a, fun {a w} hw _ => ⟨(hread₁ a).symm.trans hw, fun b _ => hread₁ b⟩⟩
  rw [← hcopy v] at counted₁
  obtain ⟨new, h₂, halloc, hnew₂, counted₂, hevolves₂, hfree₂⟩ := alloc counted₁ fresh (hfresh v)
  obtain ⟨h₃, hrelease, counted₃, hwithin₃, hfree₃⟩ :=
    release [id] (counted₂.perm (List.Perm.swap ..))
  have hnew₃ : h₃.cell? new = some ⟨copy v, 1⟩ :=
    counted₂.alone_of_within hnew₂ counted₃ hwithin₃ (List.subset_cons_self ..)
  refine ⟨new, h₃, copy v, ?_, hnew₃, .inr rfl, counted₃, hevolves₁.trans <|
    (hevolves₂.mono ?_).trans (counted₃.evolves_of_within_of_counted fresh hwithin₃ ?_),
    (hfree₁.trans hfree₂).trans hfree₃⟩
  · rw [hretain]
    simp only [Option.bind_eq_bind, Option.bind_some, halloc, hrelease]
  · rw [hcopy]
    exact fun a ha => by simp only [List.mem_append, List.mem_cons] at ha ⊢; tauto
  · have hcontents : h₃.read new = some (copy v) := read_eq_some.mpr ⟨1, hnew₃⟩
    intro a ha
    simp only [List.mem_append, List.mem_cons] at ha ⊢
    exact ha.elim (fun hv => .inr (mem_kept_of_read hcontents (by rwa [hcopy])))
      fun ho => .inl (.inr ho)

/-- New contents in an allocation through its only handle: handles in hand go in, others come
out. -/
theorem write {v' : α} (fresh : α → Prop) (more dropped : List Nat)
    (counted : Counted refs h (id :: (more ++ owners))) (hcell : h.cell? id = some ⟨v, 1⟩)
    (hperm : (refs v ++ more).Perm (refs v' ++ dropped)) (hv' : fresh v') :
    ∃ h', h.write id v' = some h' ∧ h'.cell? id = some ⟨v', 1⟩ ∧
      Counted refs h' (id :: (dropped ++ owners)) ∧
      Evolves refs fresh (refs v ++ (more ++ owners)) h h' ∧ StaysFree h h' := by
  have hlt := lt_of_cell?_eq_some hcell
  obtain ⟨counted₁, hwithin₁⟩ := take counted hcell
  have hplace : (h.put id none).cells[id]? = some none := by simp [Heap.put, hlt]
  have htwice : (h.put id none).put id (some ⟨v', 1⟩) = h.put id (some ⟨v', 1⟩) := by
    simp [Heap.put]
  have hsame : (refs v ++ (more ++ owners)).Perm (refs v' ++ (dropped ++ owners)) := by
    simpa using hperm.append_right owners
  obtain ⟨counted₂, hevolves₂⟩ := fill fresh (counted₁.perm hsame) hplace hv'
  rw [htwice] at counted₂ hevolves₂
  refine ⟨h.put id (some ⟨v', 1⟩), by rw [Heap.write, hcell, Option.map_some], ?_, counted₂,
    (counted₁.evolves_of_within_of_counted fresh hwithin₁ (List.subset_append_left ..)).trans
      (hevolves₂.mono hsame.subset), staysFree_put hcell _⟩
  rw [cell?_put hlt, if_pos rfl]

end Counted

end Termwise.Memory.Heap
