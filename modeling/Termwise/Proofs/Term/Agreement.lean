import Termwise.Proofs.Memory.Places
import Termwise.Proofs.Term.Remembered

/-!
# Termwise.Proofs.Term.Agreement

What operations on handles of shared nodes do is what they do on terms that share nothing
(`Sheet`):

```text
handles    #0          #0  #0       #0  #1            node #0 is copied to #1
terms      f(1)        f(1) f(1)    f(1) f(2)
           call        clone        set
```

`Agrees` is the invariant: the handles in places and in hand show the terms there,
the heap counts them, remembered hashes are right, and a node remembers a
generation only if it did before, with the items that it had.
-/

namespace Termwise.Shared

open Memory Memory.Heap

variable {hasher : List Token → UInt64}

/-! ## terms that share nothing -/

/-- The terms that a program has, and how many calls it took apart to put them together again. -/
structure Sheet where
  places : Places Term := {}
  lent : Nat := 0

namespace Sheet

/-- The term that an operation is given. -/
def operand (p : Sheet) : Operand → Option (Term × Sheet)
  | .atom t _ => some (t, p)
  | .copy r => do
    let t ← p.places.get? r
    some (t, p)
  | .move r => do
    let (t, places) ← p.places.take? r
    some (t, { p with places })

/-- The terms that an operation is given, one after the other. -/
def operands (p : Sheet) : List Operand → Option (List Term × Sheet)
  | [] => some ([], p)
  | o :: os => do
    let (t, p) ← p.operand o
    let (ts, p) ← p.operands os
    some (t :: ts, p)

/-- The call in a place. -/
def call? (p : Sheet) (r : Nat) : Option Term :=
  (p.places.get? r).bind fun t => if t.kind = .expr then some t else none

/-- The call in a place, used up. -/
def takeCall? (p : Sheet) (r : Nat) : Option (Term × Sheet) := do
  let (t, places) ← p.places.take? r
  if t.kind = .expr then some (t, { p with places }) else none

/-- A term for the next place. -/
def add (p : Sheet) (t : Term) : Sheet := { p with places := p.places.add t }

/-- Terms for the next places. -/
def addAll (p : Sheet) (ts : List Term) : Sheet :=
  { p with places := ⟨p.places.entries ++ ts.map some⟩ }

/-- One operation on terms that share nothing. -/
def step (p : Sheet) : Op → Option Sheet
  | .blank head arity => do
    let (t, p) ← p.operand head
    some (p.add (.blankCall t arity))
  | .call head args => do
    let (t, p) ← p.operand head
    let (ts, p) ← p.operands args
    some (p.add (.call t ts))
  | .ofItems items => do
    let (ts, p) ← p.operands items
    some (p.add (.ofItems ts))
  | .clone r => do
    let (t, p) ← p.operand (.copy r)
    some (p.add t)
  | .drop r => do
    let (_, p) ← p.operand (.move r)
    some p
  | .item r i => do
    let t ← p.call? r
    some (p.add (t.item i))
  | .set r i value => do
    let (t, p) ← p.takeCall? r
    let (u, p) ← p.operand value
    some (p.add (t.set i u))
  | .resize r arity => do
    let (t, p) ← p.takeCall? r
    some (p.add (t.resize arity))
  | .append r args => do
    let (t, p) ← p.takeCall? r
    let (ts, p) ← p.operands args
    some (p.add (t.append ts))
  | .lend r => do
    let (t, p) ← p.takeCall? r
    some { p.addAll t.items with lent := p.lent + 1 }
  | .giveBack items => do
    let (ts, p) ← p.operands items
    match p.lent with
    | 0 => none
    | lent + 1 => some { p.add (.ofItems ts) with lent }
  | .range r start len => do
    let t ← p.call? r
    some (p.add (t.range start len))
  | .intoItems r => do
    let (t, p) ← p.takeCall? r
    some (p.addAll t.items)
  | .hash r | .mark r _ => do
    let _ ← p.call? r
    some p
  | .equal r other => do
    let _ ← p.call? r
    let _ ← p.call? other
    some p

/-- The operations of a program, one after the other. -/
def run (p : Sheet) (ops : List Op) : Option Sheet := ops.foldlM step p

end Sheet

/-! ## what a store remembers of an earlier one -/

/-- A node that remembers nothing. -/
def Forgetful (n : Node) : Prop := n.hash = 0 ∧ n.evaluated = 0

/-- Whether a node has the items that it had, and shows what it did. -/
def Unchanged (s s' : Store) (id : Nat) : Prop :=
  itemsAt s' id = itemsAt s id ∧ ∀ t, Shows s' t (.node id) ↔ Shows s t (.node id)

/-- Whether a node that is known to be evaluated was so before, and has not changed. -/
def Ages (s s' : Store) : Prop :=
  ∀ {id n'}, s'.read id = some n' → n'.evaluated ≠ 0 →
    Unchanged s s' id ∧ ∃ n, s.read id = some n ∧ n.evaluated = n'.evaluated

section

variable {s s' s'' : Store} {owners : List Nat}

theorem Unchanged.refl (s : Store) (id : Nat) : Unchanged s s id := ⟨rfl, fun _ => Iff.rfl⟩

theorem Unchanged.trans {id : Nat} (first : Unchanged s s' id) (second : Unchanged s' s'' id) :
    Unchanged s s'' id :=
  ⟨second.1.trans first.1, fun t => (second.2 t).trans (first.2 t)⟩

theorem Ages.refl (s : Store) : Ages s s := fun hread _ => ⟨.refl s _, _, hread, rfl⟩

theorem Ages.trans (first : Ages s s') (second : Ages s' s'') : Ages s s'' := fun hread hstamp => by
  obtain ⟨hsame, n, hread', heq⟩ := second hread hstamp
  obtain ⟨hsame', m, hread'', heq'⟩ := first hread' (heq ▸ hstamp)
  exact ⟨hsame'.trans hsame, m, hread'', heq'.trans heq⟩

theorem itemsAt_of_keeps (hkeeps : Keeps Node.refs owners s s') {a : Nat}
    (ha : s.Reaches Node.refs owners a) : itemsAt s' a = itemsAt s a := by
  rw [itemsAt, itemsAt, hkeeps a ha]

theorem Unchanged.of_keeps {id : Nat} (hkeeps : Keeps Node.refs [id] s s') : Unchanged s s' id :=
  ⟨itemsAt_of_keeps hkeeps (.owned (List.mem_singleton_self id)), fun _ =>
    shows_congr (fun _ => itemsAt_of_keeps hkeeps) fun _ ha => .owned ha⟩

theorem Ages.of_evolves (hevolves : Evolves Node.refs Forgetful owners s s') : Ages s s' :=
  fun hread hstamp => by
    obtain ⟨hread', hkeeps⟩ := hevolves.stale hread fun hfresh => hstamp hfresh.2
    exact ⟨.of_keeps hkeeps, _, hread', rfl⟩

theorem Hashed.of_evolves (hashed : Hashed hasher s)
    (hevolves : Evolves Node.refs Forgetful owners s s') : Hashed hasher s' :=
  fun hread hne hshows => by
    obtain ⟨hread', hkeeps⟩ := hevolves.stale hread fun hfresh => hne hfresh.1
    exact hashed hread' hne (((Unchanged.of_keeps hkeeps).2 _).mp hshows)

theorem Ages.of_rehashed (h : Rehashed hasher owners s s') : Ages s s' := fun {id n'} hread _ => by
  have hsame := h.same id
  rw [hread] at hsame
  obtain ⟨n, hread', heq⟩ := Option.map_eq_some_iff.mp hsame.symm
  exact ⟨⟨h.itemsAt_eq id, fun _ => h.shows_iff⟩, n, hread', congrArg Prod.snd heq⟩

theorem showsAll_of_keeps (hkeeps : Keeps Node.refs owners s s') {ts : List Term}
    {vs : List Value} (hvs : Value.allRefs vs ⊆ owners) (hshows : ShowsAll s ts vs) :
    ShowsAll s' ts vs :=
  (showsAll_congr (fun _ => itemsAt_of_keeps hkeeps) fun _ ha => .owned (hvs ha)).mpr hshows

end

/-! ## the invariant -/

/-- Whether the values in the places of a program show given terms, and the heap counts these values
and those in hand.  Nodes remember no more than they did in an earlier store. -/
structure Holds (hasher : List Token → UInt64) (start : Store) (st : State) (p : Sheet)
    (vs : List Value) : Prop where
  counted : Counted Node.refs st.store (Value.allRefs vs ++ st.places.held Value.refs)
  hashed : Hashed hasher st.store
  places : st.places.Agree (fun v t => Shows st.store t v) p.places
  lent : st.lent.length = p.lent
  free : ∀ id ∈ st.lent, st.store.cells[id]? = some none
  nodup : st.lent.Nodup
  ages : Ages start st.store

/-- Whether what is in hand shows given terms too. -/
structure Agrees (hasher : List Token → UInt64) (start : Store) (st : State) (p : Sheet)
    (vs : List Value) (ts : List Term) : Prop extends Holds hasher start st p vs where
  hand : ShowsAll st.store ts vs

section

variable {start : Store} {st : State} {p : Sheet} {vs ws : List Value} {ts us : List Term}

theorem agree_of_keeps {s s' : Store} {owners : List Nat} (hkeeps : Keeps Node.refs owners s s')
    {places : Places Value} {terms : Places Term} (hheld : places.held Value.refs ⊆ owners)
    (hagree : places.Agree (fun v t => Shows s t v) terms) :
    places.Agree (fun v t => Shows s' t v) terms :=
  hagree.imp fun _ _ hv hshows => (shows_congr (fun _ => itemsAt_of_keeps hkeeps) fun _ ha =>
    .owned (hheld (Places.mem_held hv ha))).mpr hshows

/-- The store evolves, and with it what is in hand. -/
theorem Holds.evolve {s' : Store} {owners : List Nat} (h : Holds hasher start st p vs)
    (hevolves : Evolves Node.refs Forgetful owners st.store s')
    (hheld : st.places.held Value.refs ⊆ owners) (hfree : StaysFree st.store s')
    (counted : Counted Node.refs s' (Value.allRefs ws ++ st.places.held Value.refs)) :
    Holds hasher start { st with store := s' } p ws where
  counted := counted
  hashed := Hashed.of_evolves h.hashed hevolves
  places := agree_of_keeps hevolves.keeps hheld h.places
  lent := h.lent
  free id hid := hfree id (h.free id hid)
  nodup := h.nodup
  ages := Ages.trans h.ages (Ages.of_evolves hevolves)

/-- The store fills in hashes. -/
theorem Agrees.rehash {s' : Store} (h : Agrees hasher start st p vs ts)
    (hrehashed : Rehashed hasher (Value.allRefs vs ++ st.places.held Value.refs) st.store s') :
    Agrees hasher start { st with store := s' } p vs ts where
  counted := hrehashed.counted
  hashed := hrehashed.hashed
  hand := hrehashed.showsAll_iff.mpr h.hand
  places := h.places.imp fun _ _ _ hshows => hrehashed.shows_iff.mpr hshows
  lent := h.lent
  free id hid := hrehashed.free id (h.free id hid)
  nodup := h.nodup
  ages := Ages.trans h.ages (Ages.of_rehashed hrehashed)

end

namespace Agrees

variable {start : Store} {st : State} {p : Sheet} {vs ws : List Value} {ts us : List Term}

/-! ## operands -/

theorem refs_subset_held {v : Value} {r : Nat} (hget : st.places.get? r = some v) :
    v.refs ⊆ st.places.held Value.refs :=
  fun _ ha => Places.mem_held (Places.mem_entries_of_get? hget) ha

/-- One handle more of values that are kept. -/
theorem exists_retain (h : Agrees hasher start st p vs ts) (ws : List Value)
    (hkept : Value.allRefs ws ⊆ Value.allRefs vs ++ st.places.held Value.refs ++
      st.store.kept Node.refs) (hshows : ShowsAll st.store us ws) :
    ∃ s', st.store.retainAll (Value.allRefs ws) = some s' ∧
      Agrees hasher start { st with store := s' } p (vs ++ ws) (ts ++ us) := by
  obtain ⟨s', hretain, counted', hread, hfree⟩ := h.counted.retainAll (Value.allRefs ws) hkept
  have hkeeps : ∀ {owners}, Keeps Node.refs owners st.store s' := fun id _ => hread id
  have hevolves : Evolves Node.refs Forgetful (Value.allRefs vs ++ st.places.held Value.refs)
      st.store s' := ⟨hkeeps, fun hnew _ => ⟨(hread _).symm.trans hnew, hkeeps⟩⟩
  refine ⟨s', hretain,
    h.evolve hevolves (List.subset_append_right ..) hfree (counted'.perm ?_), ?_⟩
  · rw [Value.allRefs_append, ← List.append_assoc]
    exact List.perm_append_comm.append_right _
  · exact (showsAll_of_keeps hkeeps (List.Subset.refl _) h.hand).append
      (showsAll_of_keeps hkeeps (List.Subset.refl _) hshows)

/-- The value in a place comes to hand. -/
theorem takeValue (h : Agrees hasher start st p vs ts) {r : Nat} {v : Value} {t : Term}
    {places : Places Value} {terms : Places Term} (hv : st.places.take? r = some (v, places))
    (hshows : Shows st.store t v) (hagree : places.Agree (fun v t => Shows st.store t v) terms) :
    Agrees hasher start { st with places } { p with places := terms } (vs ++ [v]) (ts ++ [t]) where
  counted := by
    refine h.counted.perm ?_
    rw [Value.allRefs_append, Value.allRefs_singleton, List.append_assoc]
    exact (Places.held_take hv).append_left _
  hashed := h.hashed
  hand := h.hand.append (showsAll_singleton.mpr hshows)
  places := hagree
  lent := h.lent
  free := h.free
  nodup := h.nodup
  ages := h.ages

/-- A value that an operation is given comes to hand. -/
theorem operand (h : Agrees hasher start st p vs ts) (o : Operand) :
    Option.Rel (fun a b => Agrees hasher start a.2 b.2 (vs ++ [a.1]) (ts ++ [b.1])) (st.operand o)
      (p.operand o) := by
  cases o with
  | atom t isAtom =>
      refine .some { h.toHolds with counted := ?_, hand := ?_ }
      · simpa [Value.allRefs, Value.refs] using h.counted
      · exact h.hand.append (showsAll_singleton.mpr (shows_atom_iff.mpr rfl))
  | copy r =>
      simp only [State.operand, Sheet.operand]
      rcases h.places.get? r with ⟨hv, ht⟩ | ⟨v, t, hv, ht, hshows⟩ <;> rw [hv, ht]
      · exact .none
      · obtain ⟨s', hretain, hagrees⟩ := h.exists_retain [v]
          (fun a ha => by
            rw [Value.allRefs_singleton] at ha
            exact List.mem_append_left _ (List.mem_append_right _ (refs_subset_held hv ha)))
          (showsAll_singleton.mpr hshows)
        rw [Value.allRefs_singleton] at hretain
        simp only [Option.bind_eq_bind, Option.bind_some, hretain]
        exact .some hagrees
  | move r =>
      simp only [State.operand, Sheet.operand]
      rcases h.places.take? r with ⟨hv, ht⟩ | ⟨v, places, t, terms, hv, ht, hshows, hagree⟩ <;>
        rw [hv, ht]
      · exact .none
      · exact .some (h.takeValue hv hshows hagree)

theorem operands (h : Agrees hasher start st p vs ts) (os : List Operand) :
    Option.Rel (fun a b => Agrees hasher start a.2 b.2 (vs ++ a.1) (ts ++ b.1)) (st.operands os)
      (p.operands os) := by
  induction os generalizing st p vs ts with
  | nil => exact .some (by simpa using h)
  | cons o os ih =>
      refine rel_bind (h.operand o) fun a b hfirst => rel_bind (ih hfirst) fun c d hrest => ?_
      exact .some (by simpa using hrest)

/-- The node in a place comes to hand. -/
theorem takeNode? (h : Agrees hasher start st p [] []) (r : Nat) :
    Option.Rel (fun a b => Agrees hasher start a.2 b.2 [.node a.1] [b.1]) (st.takeNode? r)
      (p.takeCall? r) := by
  simp only [State.takeNode?, Sheet.takeCall?]
  rcases h.places.take? r with ⟨hv, ht⟩ | ⟨v, places, t, terms, hv, ht, hshows, hagree⟩ <;>
    rw [hv, ht]
  · exact .none
  · have hhand := h.takeValue hv hshows hagree
    cases v with
    | atom u isAtom =>
        obtain rfl := shows_atom_iff.mp hshows
        simp only [Option.bind_eq_bind, Option.bind_some, if_neg isAtom]
        exact .none
    | node id =>
        obtain ⟨head, args, items, rfl, -⟩ := shows_node_iff.mp hshows
        exact .some hhand

/-- The node in a place, seen only. -/
theorem node? (h : Agrees hasher start st p [] []) (r : Nat) :
    Option.Rel (fun id t => Shows st.store t (.node id) ∧ st.places.get? r = some (.node id))
      (st.node? r) (p.call? r) := by
  simp only [State.node?, Sheet.call?]
  rcases h.places.get? r with ⟨hv, ht⟩ | ⟨v, t, hv, ht, hshows⟩ <;> rw [hv, ht]
  · exact .none
  · cases v with
    | atom u isAtom =>
        obtain rfl := shows_atom_iff.mp hshows
        simp only [Option.bind_some, if_neg isAtom]
        exact .none
    | node id =>
        obtain ⟨head, args, items, rfl, -⟩ := shows_node_iff.mp hshows
        exact .some ⟨hshows, rfl⟩

/-! ## results -/

/-- What is in hand goes to the next places. -/
theorem addAll {s' : Store} (h : Agrees hasher start { st with store := s' } p vs ts) :
    Agrees hasher start (st.addAll (vs, s')) (p.addAll ts) [] [] where
  counted := by
    refine h.counted.perm (List.perm_append_comm.trans (List.Perm.of_eq ?_))
    simp [State.addAll, Places.held, Value.allRefs, List.flatMap_map]
  hashed := h.hashed
  hand := rfl
  places := by
    refine List.rel_append h.places ?_
    have hhand := showsAll_iff.mp h.hand
    rw [List.forall₂_map_left_iff, List.forall₂_map_right_iff]
    exact hhand.flip.imp fun _ _ hshows => .some hshows
  lent := h.lent
  free := h.free
  nodup := h.nodup
  ages := h.ages

theorem add {s' : Store} {v : Value} {t : Term}
    (h : Agrees hasher start { st with store := s' } p [v] [t]) :
    Agrees hasher start (st.add (v, s')) (p.add t) [] [] := h.addAll

/-- A new node takes what is in hand. -/
theorem newNode {t : Term} (h : Agrees hasher start st p vs (t :: ts)) :
    Agrees hasher start (st.addNode (st.store.alloc { items := vs })) (p.add (.call t ts))
      [] [] := by
  obtain ⟨id, s', halloc, hcell, counted', hevolves, hfree⟩ :=
    h.counted.alloc Forgetful (show Forgetful { items := vs } from ⟨rfl, rfl⟩)
  rw [State.addNode, halloc]
  refine add ⟨h.evolve hevolves (List.subset_append_right ..) hfree counted', ?_⟩
  have hitems := showsAll_of_keeps hevolves.keeps (List.subset_append_left ..) h.hand
  exact showsAll_singleton.mpr (shows_node_iff.mpr ⟨t, ts, vs, rfl,
    itemsAt_eq_some.mpr ⟨_, read_eq_some.mpr ⟨1, hcell⟩, rfl⟩, showsAll_iff.mp hitems⟩)

/-- Some of what is in hand is dropped. -/
theorem exists_dropAll (h : Holds hasher start st p (vs ++ ws))
    (hand : ShowsAll st.store ts vs) :
    ∃ s', st.store.dropAll ws = some s' ∧ Agrees hasher start { st with store := s' } p vs ts := by
  have hperm : (Value.allRefs (vs ++ ws) ++ st.places.held Value.refs).Perm
      (Value.allRefs ws ++ (Value.allRefs vs ++ st.places.held Value.refs)) := by
    rw [Value.allRefs_append, ← List.append_assoc]
    exact List.perm_append_comm.append_right _
  obtain ⟨s', hrelease, counted', hwithin, hfree⟩ :=
    (h.counted.perm hperm).release (Value.allRefs ws)
  have hevolves := counted'.evolves_of_within_of_counted Forgetful hwithin
    (List.subset_append_left ..)
  exact ⟨s', hrelease, h.evolve hevolves (List.subset_append_right ..) hfree counted',
    showsAll_of_keeps hevolves.keeps (List.subset_append_left ..) hand⟩

/-- A handle made the only one of its node, whose items come to be what they were. -/
theorem exists_unique {id : Nat} {f : Term} {xs : List Term}
    (h : Agrees hasher start st p (.node id :: vs) (.call f xs :: ts)) :
    ∃ id' s' n, st.store.makeUnique Node.refs Node.copy id = some (id', s') ∧
      s'.cell? id' = some ⟨n, 1⟩ ∧
      Agrees hasher start { st with store := s' } p (.node id' :: vs) (.call f xs :: ts) ∧
      ShowsAll s' (f :: xs) n.items := by
  obtain ⟨x, rest, hx, hnode, hts⟩ := h.hand
  cases hx
  obtain ⟨head, args, items, hcall, hitems, hall⟩ := shows_node_iff.mp hnode
  cases hcall
  obtain ⟨n, hread, rfl⟩ := itemsAt_eq_some.mp hitems
  obtain ⟨id', s', n', hunique, hcell, hn', counted', hevolves, hfree⟩ :=
    Counted.makeUnique Forgetful (fun n => (rfl : Node.refs n.copy = n.refs))
      (fun _ => ⟨rfl, rfl⟩) h.counted hread
  have hsame : n'.items = n.items := by
    rcases hn' with rfl | rfl <;> rfl
  have hitems' : ShowsAll s' (f :: xs) n'.items := by
    rw [hsame]
    exact showsAll_of_keeps hevolves.keeps (List.subset_append_left ..) (showsAll_iff.mpr hall)
  have howners : Value.allRefs vs ++ st.places.held Value.refs ⊆
      n.refs ++ (Value.allRefs vs ++ st.places.held Value.refs) := List.subset_append_right ..
  refine ⟨id', s', n', hunique, hcell, ⟨h.evolve hevolves
    (List.Subset.trans (List.subset_append_right ..) howners) hfree counted', _, _, rfl, ?_, ?_⟩,
    hitems'⟩
  · exact shows_node_iff.mpr ⟨f, xs, n'.items, rfl,
      itemsAt_eq_some.mpr ⟨_, read_eq_some.mpr ⟨1, hcell⟩, rfl⟩, showsAll_iff.mp hitems'⟩
  · exact showsAll_of_keeps hevolves.keeps
      (List.Subset.trans (List.subset_append_left ..) howners) hts

/-- A change of the items of a node. -/
theorem exists_edit {id : Nat} {f g : Term} {xs ys : List Term}
    {change : List Value → List Value × List Value}
    (h : Agrees hasher start st p (.node id :: vs) (.call f xs :: ts))
    (hperm : ∀ items, items.length = xs.length + 1 →
      (Value.allRefs items ++ Value.allRefs vs).Perm
        (Value.allRefs (change items).1 ++ Value.allRefs (change items).2))
    (hshows : ∀ s items, ShowsAll s (f :: xs) items → ShowsAll s ts vs →
      ShowsAll s (g :: ys) (change items).1) :
    ∃ given, st.store.edit id change = some given ∧
      Agrees hasher start { st with store := given.2 } p [.node given.1] [.call g ys] := by
  -- the handle is made the only one, the items are written, what they lost is dropped
  obtain ⟨id', s₁, n, hunique, hcell, h₁, hitems⟩ := h.exists_unique
  have hlength : n.items.length = xs.length + 1 := (showsAll_iff.mp hitems).length_eq.symm
  obtain ⟨s₂, hwrite, hcell₂, counted₂, hevolves₂, hfree₂⟩ := Counted.write Forgetful
    (Value.allRefs vs) (Value.allRefs (change n.items).2) h₁.counted hcell
    (show (n.refs ++ _).Perm (Node.refs { items := (change n.items).1 } ++ _) from
      hperm n.items hlength) ⟨rfl, rfl⟩
  obtain ⟨_, _, hcons, -, hts⟩ := h₁.hand
  cases hcons
  have hitems₂ : ShowsAll s₂ (g :: ys) (change n.items).1 := by
    refine hshows s₂ n.items (showsAll_of_keeps hevolves₂.keeps (List.subset_append_left ..) hitems)
      (showsAll_of_keeps hevolves₂.keeps ?_ hts)
    exact List.Subset.trans (List.subset_append_left ..) (List.subset_append_right ..)
  have hnode₂ : Shows s₂ (.call g ys) (.node id') := shows_node_iff.mpr ⟨g, ys, _, rfl,
    itemsAt_eq_some.mpr ⟨_, read_eq_some.mpr ⟨1, hcell₂⟩, rfl⟩, showsAll_iff.mp hitems₂⟩
  have h₂ : Holds hasher start { st with store := s₂ } p ([.node id'] ++ (change n.items).2) :=
    h₁.evolve hevolves₂
      (List.Subset.trans (List.subset_append_right ..) (List.subset_append_right ..)) hfree₂
      counted₂
  obtain ⟨s₃, hdrop, h₃⟩ := exists_dropAll h₂ (showsAll_singleton.mpr hnode₂)
  refine ⟨(id', s₃), ?_, h₃⟩
  simp only [Store.edit, hunique, read_eq_some.mpr ⟨1, hcell⟩, hwrite, hdrop, Option.bind_eq_bind,
    Option.bind_some]

/-! ## changing -/

theorem perm_allRefs_set (v : Value) : ∀ {items : List Value} {i : Nat}, i < items.length →
    (Value.allRefs items ++ Value.allRefs [v]).Perm
      (Value.allRefs (items.set i v) ++ Value.allRefs items[i]?.toList)
  | x :: items, 0, _ => by
      simp only [Value.allRefs, List.set_cons_zero, List.getElem?_cons_zero, Option.toList_some,
        List.flatMap_cons, List.flatMap_nil, List.append_nil, List.append_assoc]
      exact List.perm_append_comm.trans (List.perm_append_comm.append_right _ |>.trans
        (List.Perm.of_eq (by simp)))
  | x :: items, i + 1, h => by
      have := (perm_allRefs_set v (show i < items.length by simpa using h)).append_left x.refs
      simpa [Value.allRefs] using this

theorem showsAll_set {s : Store} {t : Term} {v : Value} (hv : Shows s t v) :
    ∀ {ts : List Term} {vs : List Value}, ShowsAll s ts vs → ∀ i,
      ShowsAll s (ts.set i t) (vs.set i v)
  | [], vs, h, i => by
      cases h
      rfl
  | u :: ts, vs, h, i => by
      obtain ⟨x, xs, rfl, hx, hxs⟩ := h
      cases i with
      | zero => exact ⟨v, xs, rfl, hv, hxs⟩
      | succ i => exact ⟨x, xs.set i v, rfl, hx, showsAll_set hv hxs i⟩

theorem exists_set {id : Nat} {v : Value} {f t : Term} {xs : List Term} (i : Nat)
    (h : Agrees hasher start st p [.node id, v] [.call f xs, t]) :
    ∃ given, st.store.set id i v = some given ∧
      Agrees hasher start { st with store := given.2 } p [.node given.1]
        [(Term.call f xs).set i t] := by
  obtain ⟨_, _, hcons, hnode, -⟩ := h.hand
  cases hcons
  obtain ⟨head, args, items, hcall, hitems, hall⟩ := shows_node_iff.mp hnode
  cases hcall
  obtain ⟨n, hread, rfl⟩ := itemsAt_eq_some.mp hitems
  have hlength : n.items.length = (f :: xs).length := hall.length_eq.symm
  rw [Store.set, hread, Option.bind_eq_bind, Option.bind_some, Term.set]
  by_cases hin : i < (f :: xs).length
  · rw [if_neg (by omega), if_pos (show i < (Term.call f xs).items.length from hin)]
    obtain ⟨g, ys, hset⟩ : ∃ g ys, (f :: xs).set i t = g :: ys := by
      cases i <;> exact ⟨_, _, rfl⟩
    change ∃ given, _ ∧ Agrees _ _ _ _ _ [Term.ofItems ((f :: xs).set i t)]
    rw [hset]
    refine h.exists_edit (fun items hlen => perm_allRefs_set v ?_) fun s items hitems hts => ?_
    · rw [hlen]
      exact hin
    · rw [← hset]
      exact showsAll_set (showsAll_singleton.mp hts) hitems i
  · rw [if_pos (by omega), if_neg (show ¬ i < (Term.call f xs).items.length from hin)]
    obtain ⟨s', hdrop, hagrees⟩ :=
      exists_dropAll (show Holds _ _ _ _ ([.node id] ++ [v]) from h.toHolds)
        (showsAll_singleton.mpr hnode)
    exact ⟨(id, s'), by rw [hdrop]; rfl, hagrees⟩

theorem allRefs_replicate_null (n : Nat) : Value.allRefs (List.replicate n .null) = [] := by
  induction n with
  | zero => rfl
  | succ n ih => exact ih

theorem showsAll_replicate_null (s : Store) (n : Nat) :
    ShowsAll s (List.replicate n .null) (List.replicate n .null) := by
  induction n with
  | zero => rfl
  | succ n ih => exact ⟨_, _, rfl, ⟨_, rfl⟩, ih⟩

theorem exists_resize {id : Nat} {f : Term} {xs : List Term} (arity : Nat)
    (h : Agrees hasher start st p [.node id] [.call f xs]) :
    ∃ given, st.store.resize id arity = some given ∧
      Agrees hasher start { st with store := given.2 } p [.node given.1]
        [(Term.call f xs).resize arity] := by
  obtain ⟨head, args, items, hcall, hitems, hall⟩ :=
    shows_node_iff.mp (showsAll_singleton.mp h.hand)
  cases hcall
  obtain ⟨n, hread, rfl⟩ := itemsAt_eq_some.mp hitems
  have hlength : n.items.length = xs.length + 1 := hall.length_eq.symm
  rw [Store.resize, hread, Option.bind_eq_bind, Option.bind_some, hlength, Nat.add_sub_cancel,
    Term.resize]
  by_cases hsame : arity = xs.length
  · rw [if_pos hsame, if_pos (show arity = (Term.call f xs).args.length from hsame)]
    exact ⟨_, rfl, h⟩
  · rw [if_neg hsame, if_neg (show ¬ arity = (Term.call f xs).args.length from hsame)]
    refine h.exists_edit (fun items _ => ?_) fun s items hitems _ => ?_
    · dsimp only
      rw [Value.allRefs_append, allRefs_replicate_null, List.append_nil,
        ← Value.allRefs_append _ (items.drop _), List.take_append_drop]
      exact List.Perm.of_eq (List.append_nil _)
    · have hlen : items.length = xs.length + 1 := (showsAll_iff.mp hitems).length_eq.symm
      have htake : ShowsAll s ((f :: xs).take (arity + 1)) (items.take (arity + 1)) :=
        showsAll_iff.mpr (List.forall₂_take _ (showsAll_iff.mp hitems))
      have := htake.append (showsAll_replicate_null s (arity + 1 - items.length))
      rw [hlen, Nat.add_sub_add_right] at this
      dsimp only
      rw [hlen, Nat.add_sub_add_right]
      exact this

theorem exists_append {id : Nat} {f : Term} {xs : List Term}
    (h : Agrees hasher start st p (.node id :: vs) (.call f xs :: ts)) :
    ∃ given, st.store.append id vs = some given ∧
      Agrees hasher start { st with store := given.2 } p [.node given.1]
        [(Term.call f xs).append ts] :=
  h.exists_edit
    (fun items _ => List.Perm.of_eq (by simp [Value.allRefs]))
    fun _ _ hitems hts => hitems.append hts

/-- What shows in the place of a node is a call. -/
theorem exists_call {id : Nat} {t : Term}
    (h : Agrees hasher start st p (.node id :: vs) (t :: ts)) : ∃ f xs, t = .call f xs := by
  obtain ⟨_, _, hcons, hnode, -⟩ := h.hand
  cases hcons
  obtain ⟨f, xs, items, hcall, -⟩ := shows_node_iff.mp hnode
  exact ⟨f, xs, hcall⟩

/-- Empty results come to hand. -/
theorem addNulls (h : Agrees hasher start st p vs ts) (n : Nat) :
    Agrees hasher start st p (vs ++ List.replicate n .null) (ts ++ List.replicate n .null) where
  toHolds := { h.toHolds with
    counted := by
      rw [Value.allRefs_append, allRefs_replicate_null, List.append_nil]
      exact h.counted }
  hand := h.hand.append (showsAll_replicate_null _ n)

/-! ## calls taken apart -/

/-- Without items, the empty result is in hand. -/
theorem filled (h : Agrees hasher start st p vs ts) :
    ∃ u us, Term.ofItems ts = .call u us ∧
      Agrees hasher start st p (Store.filled vs) (u :: us) := by
  cases ts with
  | nil =>
      obtain rfl : vs = [] := h.hand
      refine ⟨.null, [], rfl, { h.toHolds with counted := ?_ }, _, _, rfl, ⟨_, rfl⟩, rfl⟩
      simpa [Store.filled, Value.allRefs, Value.null, Value.refs] using h.counted
  | cons t ts =>
      refine ⟨t, ts, rfl, ?_⟩
      obtain ⟨v, vs, rfl, -⟩ := h.hand
      exact h

/-- The items of a node that is to be changed are in hand. -/
theorem exists_lend {id : Nat} {f : Term} {xs : List Term}
    (h : Agrees hasher start st p [.node id] [.call f xs]) :
    ∃ id' given, st.store.lend id = some (id', given) ∧
      Agrees hasher start { st.addAll given with lent := id' :: st.lent }
        { p.addAll (f :: xs) with lent := p.lent + 1 } [] [] := by
  obtain ⟨id', s₁, n, hunique, hcell, h₁, hitems⟩ := h.exists_unique
  obtain ⟨counted₂, hwithin₂⟩ := h₁.counted.take hcell
  have hevolves₂ := counted₂.evolves_of_within_of_counted Forgetful hwithin₂
    (List.subset_append_left ..)
  have hfree₂ := staysFree_put hcell none
  have hplace : s₁.cells[id']? = some (some ⟨n, 1⟩) := cell?_eq_some.mp hcell
  have hlt := (List.getElem?_eq_some_iff.mp hplace).1
  have h₂ : Agrees hasher start { st with store := s₁.put id' none } p n.items (f :: xs) :=
    ⟨h₁.evolve hevolves₂ (List.subset_append_right ..) hfree₂ counted₂,
      showsAll_of_keeps hevolves₂.keeps (List.subset_append_left ..) hitems⟩
  refine ⟨id', (n.items, s₁.put id' none), ?_,
    { h₂.addAll with lent := ?_, free := ?_, nodup := ?_ }⟩
  · simp only [Store.lend, hunique, read_eq_some.mpr ⟨1, hcell⟩, Option.bind_eq_bind,
      Option.bind_some]
  · exact congrArg (· + 1) h.lent
  · intro a ha
    rcases List.mem_cons.mp ha with rfl | ha
    · exact List.getElem?_set_self hlt
    · exact h₂.free a ha
  · refine List.nodup_cons.mpr ⟨fun hmem => ?_, h.nodup⟩
    have := h₁.free id' hmem
    rw [hplace] at this
    cases this

/-- What is in hand goes into a node that is to be changed. -/
theorem giveBack {id lent : Nat} {rest : List Nat} (h : Agrees hasher start st p vs ts)
    (hst : st.lent = id :: rest) (hp : p.lent = lent + 1) :
    Agrees hasher start { st.addNode (id, st.store.giveBack id vs) with lent := rest }
      { p.add (Term.ofItems ts) with lent } [] [] := by
  obtain ⟨u, us, hcall, h₁⟩ := h.filled
  have hlent := h₁.nodup
  rw [hst, List.nodup_cons] at hlent
  have hplace : st.store.cells[id]? = some none :=
    h.free id (by rw [hst]; exact List.mem_cons_self ..)
  have hlt := (List.getElem?_eq_some_iff.mp hplace).1
  obtain ⟨counted', hevolves⟩ := Counted.fill Forgetful
    (show Counted Node.refs _ (Node.refs { items := Store.filled vs } ++ _) from h₁.counted) hplace
    ⟨rfl, rfl⟩
  have hread : (st.store.giveBack id vs).read id = some { items := Store.filled vs } := by
    rw [Heap.read, Store.giveBack, cell?_put hlt, if_pos rfl]
    rfl
  have hnode : Shows (st.store.giveBack id vs) (.call u us) (.node id) :=
    shows_node_iff.mpr ⟨u, us, Store.filled vs, rfl, itemsAt_eq_some.mpr ⟨_, hread, rfl⟩,
      showsAll_iff.mp (showsAll_of_keeps hevolves.keeps (List.subset_append_left ..) h₁.hand)⟩
  rw [hcall]
  exact {
    counted := by
      refine counted'.perm ((List.perm_append_singleton id _).symm.trans (List.Perm.of_eq ?_))
      simp [State.addNode, State.add, Places.held_add, Value.refs, Value.allRefs]
    hashed := Hashed.of_evolves h.hashed hevolves
    hand := rfl
    places := (agree_of_keeps hevolves.keeps (List.subset_append_right ..) h.places).add hnode
    lent := by
      have := h.lent
      rw [hst, hp] at this
      exact Nat.succ.inj this
    free := fun a ha => by
      have hne : id ≠ a := fun heq => hlent.1 (heq ▸ ha)
      rw [State.addNode, State.add, Store.giveBack, Heap.put]
      exact (List.getElem?_set_ne hne).trans
        (h.free a (by rw [hst]; exact List.mem_cons_of_mem _ ha))
    nodup := hlent.2
    ages := Ages.trans h.ages (Ages.of_evolves hevolves) }

/-- The items of a node whose handle is used up are in hand. -/
theorem exists_intoItems {id : Nat} {f : Term} {xs : List Term}
    (h : Agrees hasher start st p [.node id] [.call f xs]) :
    ∃ given, st.store.intoItems id = some given ∧
      Agrees hasher start { st with store := given.2 } p given.1 (f :: xs) := by
  obtain ⟨head, args, items, hcall, hitems, hall⟩ :=
    shows_node_iff.mp (showsAll_singleton.mp h.hand)
  cases hcall
  obtain ⟨n, hread, rfl⟩ := itemsAt_eq_some.mp hitems
  obtain ⟨handles, hcell⟩ := read_eq_some.mp hread
  have hhandles : st.store.handles id = handles := by rw [Heap.handles, hcell]; rfl
  rw [Store.intoItems, hread, Option.bind_eq_bind, Option.bind_some, hhandles]
  split
  · rename_i hone
    subst hone
    obtain ⟨counted', hwithin⟩ := h.counted.take hcell
    have hevolves := counted'.evolves_of_within_of_counted Forgetful hwithin
      (List.subset_append_left ..)
    exact ⟨_, rfl,
      h.evolve hevolves (List.subset_append_right ..) (staysFree_put hcell none) counted',
      showsAll_of_keeps hevolves.keeps (List.subset_append_left ..) (showsAll_iff.mpr hall)⟩
  · obtain ⟨s₁, hretain, h₁⟩ := h.exists_retain n.items (fun a ha =>
      List.mem_append_right _ (mem_kept_of_read hread ha)) (showsAll_iff.mpr hall)
    have h₂ : Holds hasher start { st with store := s₁ } p (n.items ++ [.node id]) := by
      refine { h₁.toHolds with counted := h₁.counted.perm ?_ }
      rw [Value.allRefs_append, Value.allRefs_append]
      exact List.perm_append_comm.append_right _
    obtain ⟨_, _, hcons, -, hhand⟩ := h₁.hand
    cases hcons
    obtain ⟨s₂, hdrop, h₃⟩ := exists_dropAll h₂ hhand
    refine ⟨(n.items, s₂), ?_, h₃⟩
    rw [show n.refs = Value.allRefs n.items from rfl, hretain]
    simp only [Option.bind_eq_bind, Option.bind_some, hdrop]

/-! ## reading -/

theorem refs_subset_kept {id : Nat} {n : Node} (hread : st.store.read id = some n)
    (hws : ws ⊆ n.items) : Value.allRefs ws ⊆ st.store.kept Node.refs := fun a ha => by
  obtain ⟨v, hv, ha⟩ := List.mem_flatMap.mp ha
  exact mem_kept_of_read hread (List.mem_flatMap.mpr ⟨v, hws hv, ha⟩)

theorem exists_range {id : Nat} {f : Term} {xs : List Term} (first len : Nat)
    (h : Agrees hasher start st p [] []) (hshows : Shows st.store (.call f xs) (.node id)) :
    ∃ given, st.store.range id first len = some given ∧
      Agrees hasher start (st.addNode given) (p.add ((Term.call f xs).range first len)) [] [] := by
  obtain ⟨-, _, x, vs, hv, hitems, hf, hxs⟩ := hshows
  cases hv
  obtain ⟨n, hread, hn⟩ := itemsAt_eq_some.mp hitems
  have hargs :
      ShowsAll st.store ((xs.drop (first - 1)).take len) ((vs.drop (first - 1)).take len) :=
    showsAll_iff.mpr (List.forall₂_take _ (List.forall₂_drop _ (showsAll_iff.mp hxs)))
  obtain ⟨s', hretain, h'⟩ := h.exists_retain (x :: (vs.drop (first - 1)).take len)
    (fun a ha => List.mem_append_right _ (refs_subset_kept hread (by
      rw [hn]
      exact List.cons_subset_cons x
        (List.Subset.trans (List.take_subset ..) (List.drop_subset ..))) ha))
    (show ShowsAll st.store (f :: _) (x :: _) from ⟨_, _, rfl, hf, hargs⟩)
  refine ⟨_, ?_, h'.newNode⟩
  simp only [Store.range, hread, hn, List.head?_cons, List.tail_cons, hretain, Option.bind_eq_bind,
    Option.bind_some]
  rfl

theorem showsAll_getD {s : Store} : ∀ {ts : List Term} {vs : List Value}, ShowsAll s ts vs → ∀ i,
    Shows s (ts.getD i .null) (vs.getD i .null)
  | [], vs, h, i => by
      cases h
      exact ⟨_, rfl⟩
  | t :: ts, vs, h, i => by
      obtain ⟨x, xs, rfl, hx, hxs⟩ := h
      cases i with
      | zero => exact hx
      | succ i => exact showsAll_getD hxs i

theorem refs_getD_subset : ∀ (vs : List Value) (i : Nat),
    (vs.getD i .null).refs ⊆ Value.allRefs vs
  | [], _ => List.nil_subset _
  | _ :: _, 0 => List.subset_append_left ..
  | _ :: vs, i + 1 => List.Subset.trans (refs_getD_subset vs i) (List.subset_append_right ..)

theorem exists_item {id : Nat} {f : Term} {xs : List Term} (i : Nat)
    (h : Agrees hasher start st p [] []) (hshows : Shows st.store (.call f xs) (.node id)) :
    ∃ n s', st.store.read id = some n ∧
      st.store.retainAll (n.items.getD i .null).refs = some s' ∧
      Agrees hasher start (st.add (n.items.getD i .null, s')) (p.add ((Term.call f xs).item i))
        [] [] := by
  obtain ⟨head, args, items, hcall, hitems, hall⟩ := shows_node_iff.mp hshows
  cases hcall
  obtain ⟨n, hread, rfl⟩ := itemsAt_eq_some.mp hitems
  obtain ⟨s', hretain, h'⟩ := h.exists_retain [n.items.getD i .null]
    (fun a ha => by
      rw [Value.allRefs_singleton] at ha
      exact List.mem_append_right _ (mem_kept_of_read hread (refs_getD_subset _ _ ha)))
    (showsAll_singleton.mpr (showsAll_getD (showsAll_iff.mpr hall) i))
  rw [Value.allRefs_singleton] at hretain
  exact ⟨n, s', hread, hretain, h'.add⟩

/-! ## marking -/

/-- Marking a node changes the generation that it remembers, and nothing else. -/
theorem exists_mark {id : Nat} {t : Term} (generation : Nat) (h : Agrees hasher start st p [] [])
    (hshows : Shows st.store t (.node id)) :
    ∃ s', st.store.mark id generation = some s' ∧ Agrees hasher s' { st with store := s' } p [] [] ∧
      ∀ a, Unchanged st.store s' a ∧ ∀ n', s'.read a = some n' →
        a = id ∧ n'.evaluated = generation ∨ st.store.read a = some n' := by
  obtain ⟨head, args, items, rfl, hitems, -⟩ := shows_node_iff.mp hshows
  obtain ⟨n, hread, rfl⟩ := itemsAt_eq_some.mp hitems
  obtain ⟨s', hwrite, counted', hread', hfree⟩ :=
    h.counted.store hread (show Node.refs { n with evaluated := generation } = n.refs from rfl)
  have hsame : ∀ a, itemsAt s' a = itemsAt st.store a := fun a => by
    rw [itemsAt, itemsAt, hread']
    split
    · rename_i heq
      rw [heq, hread]
      rfl
    · rfl
  have hshows : ∀ {t v}, Shows s' t v ↔ Shows st.store t v :=
    shows_congr (fun a _ => hsame a) fun _ ha => Reaches.owned ha
  have hhash : ∀ {a m}, s'.read a = some m → ∃ n, st.store.read a = some n ∧ m.hash = n.hash := by
    intro a m hm
    rw [hread'] at hm
    split at hm
    · rename_i heq
      cases hm
      exact ⟨n, heq ▸ hread, rfl⟩
    · exact ⟨m, hm, rfl⟩
  refine ⟨s', by rw [Store.mark, hread]; exact hwrite, ?_, fun a => ⟨⟨hsame a, fun _ => hshows⟩,
    fun m hm => ?_⟩⟩
  · exact {
      counted := counted'
      hashed := fun hm hne hshown => by
        obtain ⟨n, hn, heq⟩ := hhash hm
        rw [heq] at hne ⊢
        exact h.hashed hn hne (hshows.mp hshown)
      places := h.places.imp fun _ _ _ hshown => hshows.mpr hshown
      lent := h.lent
      free := fun a ha => hfree a (h.free a ha)
      nodup := h.nodup
      ages := Ages.refl s'
      hand := rfl }
  · rw [hread'] at hm
    split at hm
    · rename_i heq
      cases hm
      exact .inl ⟨heq, rfl⟩
    · exact .inr hm

end Agrees

end Termwise.Shared
