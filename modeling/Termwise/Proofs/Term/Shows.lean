import Mathlib.Data.List.Forall2
import Mathlib.Data.List.Perm.Subperm
import Termwise.Proofs.Memory.Counted
import Termwise.Proofs.Term.Order
import Termwise.Term.Shared

/-!
# Termwise.Proofs.Term.Shows

What the nodes in memory mean.  `Shows s t v` says that a value comes to a term:

```text
#0  g  #1  #1      #1  f  1           shows   g(f(1), f(1))
```

A value shows one term at most, whatever nodes it shares with others.  From that,
the structural hash of a node is the one of its term, whether it was remembered or
not, and two nodes are equal exactly when their terms are.
-/

namespace Termwise.Shared

open Memory Memory.Heap

variable {s s' : Store} {owners : List Nat}

/-! ## terms -/

theorem Value.allRefs_append (vs ws : List Value) :
    allRefs (vs ++ ws) = allRefs vs ++ allRefs ws := List.flatMap_append

theorem Value.allRefs_singleton (v : Value) : allRefs [v] = v.refs := List.append_nil _

/-- The items of a node. -/
def itemsAt (s : Store) (id : Nat) : Option (List Value) := (s.read id).map Node.items

mutual

/-- Whether a value comes to a term. -/
def Shows (s : Store) : Term → Value → Prop
  | .node i f xs, v => i = 0 ∧ ∃ id x vs, v = .node id ∧ itemsAt s id = some (x :: vs) ∧
      Shows s f x ∧ ShowsAll s xs vs
  | t, v => ∃ isAtom, v = .atom t isAtom

/-- Whether values come to terms, one by one. -/
def ShowsAll (s : Store) : List Term → List Value → Prop
  | [], vs => vs = []
  | t :: ts, vs => ∃ x xs, vs = x :: xs ∧ Shows s t x ∧ ShowsAll s ts xs

end

theorem itemsAt_eq_some {id : Nat} {vs : List Value} :
    itemsAt s id = some vs ↔ ∃ n, s.read id = some n ∧ n.items = vs := Option.map_eq_some_iff

theorem showsAll_iff {ts : List Term} {vs : List Value} :
    ShowsAll s ts vs ↔ List.Forall₂ (Shows s) ts vs := by
  induction ts generalizing vs with
  | nil => simp [ShowsAll]
  | cons t ts ih =>
      simp only [ShowsAll, ih, List.forall₂_cons_left_iff]
      exact exists_congr fun x => ⟨fun ⟨xs, hvs, hx, hxs⟩ => ⟨xs, hx, hxs, hvs⟩,
        fun ⟨xs, hx, hxs, hvs⟩ => ⟨xs, hvs, hx, hxs⟩⟩

theorem ShowsAll.append {ts us : List Term} {vs ws : List Value} (hts : ShowsAll s ts vs)
    (hus : ShowsAll s us ws) : ShowsAll s (ts ++ us) (vs ++ ws) :=
  showsAll_iff.mpr (List.rel_append (showsAll_iff.mp hts) (showsAll_iff.mp hus))

theorem showsAll_singleton {t : Term} {v : Value} : ShowsAll s [t] [v] ↔ Shows s t v := by
  simp [ShowsAll]

theorem shows_atom_iff {t u : Term} {isAtom : u.kind ≠ .expr} :
    Shows s t (.atom u isAtom) ↔ t = u := by
  constructor
  · intro h
    cases t with
    | node i f xs =>
        obtain ⟨-, id, x, vs, hv, -⟩ := h
        cases hv
    | _ =>
        obtain ⟨_, hv⟩ := h
        cases hv
        rfl
  · rintro rfl
    cases t with
    | node => exact absurd rfl isAtom
    | _ => exact ⟨isAtom, rfl⟩

theorem shows_node_iff {t : Term} {id : Nat} :
    Shows s t (.node id) ↔ ∃ head args vs, t = .call head args ∧ itemsAt s id = some vs ∧
      List.Forall₂ (Shows s) (head :: args) vs := by
  constructor
  · intro h
    cases t with
    | node i f xs =>
        obtain ⟨rfl, id', x, vs, hv, hitems, hf, hxs⟩ := h
        cases hv
        exact ⟨f, xs, x :: vs, rfl, hitems, .cons hf (showsAll_iff.mp hxs)⟩
    | _ =>
        obtain ⟨_, hv⟩ := h
        cases hv
  · rintro ⟨head, args, vs, rfl, hitems, hall⟩
    cases hall with
    | cons hhead hargs => exact ⟨rfl, id, _, _, rfl, hitems, hhead, showsAll_iff.mpr hargs⟩

theorem length_items {f : Term} {xs : List Term} {id : Nat} {vs : List Value}
    (h : Shows s (.call f xs) (.node id)) (hitems : itemsAt s id = some vs) :
    vs.length = xs.length + 1 := by
  obtain ⟨head, args, vs', heq, hitems', hall⟩ := shows_node_iff.mp h
  cases heq
  rw [hitems] at hitems'
  cases hitems'
  exact hall.length_eq.symm

mutual

/-- A value shows one term. -/
theorem eq_of_shows : ∀ {t u : Term} {v : Value}, Shows s t v → Shows s u v → t = u
  | .node i f xs, u, v, ht, hu => by
      obtain ⟨rfl, id, x, vs, rfl, hitems, hf, hxs⟩ := ht
      obtain ⟨head, args, vs', rfl, hitems', hall⟩ := shows_node_iff.mp hu
      obtain rfl : x :: vs = vs' := Option.some.inj (hitems.symm.trans hitems')
      cases hall with
      | cons hhead hargs =>
          rw [eq_of_shows hf hhead, eq_of_showsAll hxs (showsAll_iff.mpr hargs)]
          rfl
  | .magic _, u, v, ht, hu | .int _, u, v, ht, hu | .float _, u, v, ht, hu
  | .text _, u, v, ht, hu | .symbol _, u, v, ht, hu | .host _, u, v, ht, hu => by
      obtain ⟨isAtom, rfl⟩ := ht
      exact (shows_atom_iff.mp hu).symm

theorem eq_of_showsAll : ∀ {ts us : List Term} {vs : List Value},
    ShowsAll s ts vs → ShowsAll s us vs → ts = us
  | [], us, vs, hts, hus => by
      cases hts
      cases us with
      | nil => rfl
      | cons u us =>
          obtain ⟨x, xs, hvs, -⟩ := hus
          cases hvs
  | t :: ts, us, vs, hts, hus => by
      obtain ⟨x, xs, rfl, ht, hts⟩ := hts
      cases us with
      | nil => cases hus
      | cons u us =>
          obtain ⟨y, ys, hvs, hu, hus⟩ := hus
          cases hvs
          rw [eq_of_shows ht hu, eq_of_showsAll hts hus]

end

theorem reaches_of_itemsAt {id a : Nat} {vs : List Value} (hid : s.Reaches Node.refs owners id)
    (hitems : itemsAt s id = some vs) (ha : a ∈ Value.allRefs vs) :
    s.Reaches Node.refs owners a := by
  obtain ⟨n, hread, rfl⟩ := itemsAt_eq_some.mp hitems
  exact .kept hid hread ha

mutual

/-- What a value shows depends on the items of the nodes that it reaches. -/
theorem shows_congr (hsame : ∀ a, s.Reaches Node.refs owners a → itemsAt s' a = itemsAt s a) :
    ∀ {t : Term} {v : Value}, (∀ a ∈ v.refs, s.Reaches Node.refs owners a) →
      (Shows s' t v ↔ Shows s t v)
  | .node i f xs, v, hreach => by
      refine and_congr_right fun _ => exists_congr fun id => exists_congr fun x =>
        exists_congr fun vs => and_congr_right fun hv => ?_
      subst hv
      have hid := hreach id (List.mem_singleton_self id)
      rw [hsame id hid]
      refine and_congr_right fun hitems => ?_
      have hkept := fun a => reaches_of_itemsAt (a := a) hid hitems
      exact and_congr (shows_congr hsame fun a ha => hkept a (List.mem_append_left _ ha))
        (showsAll_congr hsame fun a ha => hkept a (List.mem_append_right _ ha))
  | .magic _, _, _ | .int _, _, _ | .float _, _, _ | .text _, _, _ | .symbol _, _, _
  | .host _, _, _ => Iff.rfl

theorem showsAll_congr (hsame : ∀ a, s.Reaches Node.refs owners a → itemsAt s' a = itemsAt s a) :
    ∀ {ts : List Term} {vs : List Value},
      (∀ a ∈ Value.allRefs vs, s.Reaches Node.refs owners a) →
        (ShowsAll s' ts vs ↔ ShowsAll s ts vs)
  | [], vs, _ => Iff.rfl
  | t :: ts, vs, hreach => by
      refine exists_congr fun x => exists_congr fun xs => and_congr_right fun hvs => ?_
      subst hvs
      exact and_congr (shows_congr hsame fun a ha => hreach a (List.mem_append_left _ ha))
        (showsAll_congr hsame fun a ha => hreach a (List.mem_append_right _ ha))

end

/-! ## structural hash of a term -/

variable (hasher : List Token → UInt64)

mutual

/-- What a term puts into a structural hash. -/
def contribution : Term → List Token
  | .node _ f xs => nodeTokens (finish hasher (contribution f ++ contributions xs))
  | t => atomTokens t

/-- What terms put into a structural hash. -/
def contributions : List Term → List Token
  | [] => []
  | t :: ts => contribution t ++ contributions ts

end

/-- The structural hash of a call. -/
def digest (t : Term) : UInt64 := finish hasher (contributions hasher t.items)

mutual

/-- Terms with the same digest contribute the same. -/
theorem contribution_of_sameDigest : ∀ {a b : Term}, Term.sameDigest a b = true →
    contribution hasher a = contribution hasher b
  | .node i f xs, b, h => by
      cases b with
      | node j g ys =>
          simp only [Term.sameDigest, Bool.and_eq_true] at h
          rw [contribution, contribution, contribution_of_sameDigest h.1,
            contributions_of_sameDigestAll h.2]
      | _ => cases h
  | .int m, b, h | .float m, b, h => by
      cases b with
      | int n | float n =>
          simp only [Term.sameDigest, Bool.and_eq_true, beq_iff_eq] at h
          simp only [contribution, atomTokens, h.2]
          rfl
      | _ => simp [Term.sameDigest, Term.isNumber, Term.kind] at h
  | .magic m, b, h => by
      cases b with
      | magic n => rw [eq_of_beq (a := m) h]
      | _ => cases h
  | .text m, b, h => by
      cases b with
      | text n =>
          have hunits : m.units = n.units := eq_of_beq h
          simp only [contribution, atomTokens, hunits]
          rfl
      | _ => cases h
  | .symbol m, b, h => by
      cases b with
      | symbol n => rw [eq_of_beq (a := m) h]
      | _ => cases h
  | .host m, b, h => by
      cases b with
      | host n =>
          have hnumber : m.number = n.number := eq_of_beq h
          simp only [contribution, atomTokens, hnumber]
          rfl
      | _ => cases h

theorem contributions_of_sameDigestAll : ∀ {as bs : List Term}, Term.sameDigestAll as bs = true →
    contributions hasher as = contributions hasher bs
  | [], bs, h => by
      cases bs with
      | nil => rfl
      | cons => cases h
  | a :: as, bs, h => by
      cases bs with
      | nil => cases h
      | cons b bs =>
          simp only [Term.sameDigestAll, Bool.and_eq_true] at h
          rw [contributions, contributions, contribution_of_sameDigest h.1,
            contributions_of_sameDigestAll h.2]

end

theorem contribution_call (i : Nat) (f : Term) (xs : List Term) :
    contribution hasher (.node i f xs) = nodeTokens (digest hasher (.node i f xs)) := rfl

/-- Equal calls have the same hash. -/
theorem digest_eq_of_equal {t u : Term} (h : (t == u) = true) :
    digest hasher t = digest hasher u := by
  have hsame := Term.sameDigest_of_equal t u h
  cases t with
  | node i f xs =>
      cases u with
      | node j g ys =>
          have hcontribution := contribution_of_sameDigest hasher hsame
          simp only [contribution_call, nodeTokens, List.cons.injEq, Token.word.injEq, and_true,
            true_and] at hcontribution
          exact hcontribution
      | _ => cases h
  | _ =>
      cases u with
      | node => cases h
      | _ => rfl

/-! ## nesting -/

mutual

/-- How deeply calls are nested in a term. -/
def depth : Term → Nat
  | .node _ f xs => max (depth f) (depthAll xs) + 1
  | _ => 0

/-- How deeply calls are nested in terms. -/
def depthAll : List Term → Nat
  | [] => 0
  | t :: ts => max (depth t) (depthAll ts)

end

/-- Whether nodes lie on a way down to something less deep than all of them. -/
structure Path (s : Store) (limit : Nat) (path : List Nat) (bound : Nat) : Prop where
  nodup : path.Nodup
  lt : ∀ a ∈ path, a < limit
  deeper : ∀ a ∈ path, ∃ t, Shows s t (.node a) ∧ bound < depth t

theorem Path.length_le {limit bound : Nat} {path : List Nat} (h : Path s limit path bound) :
    path.length ≤ limit := by
  have := (List.subperm_of_subset h.nodup fun a ha => List.mem_range.mpr (h.lt a ha)).length_le
  rwa [List.length_range] at this

theorem Path.mono {limit bound bound' : Nat} {path : List Nat} (h : Path s limit path bound)
    (hle : bound' ≤ bound) : Path s limit path bound' where
  nodup := h.nodup
  lt := h.lt
  deeper a ha := by
    obtain ⟨t, ht, hlt⟩ := h.deeper a ha
    exact ⟨t, ht, Nat.lt_of_le_of_lt hle hlt⟩

mutual

/-- The nodes on the way down from a node are all different. -/
theorem depth_add_le : ∀ {t : Term} {v : Value} {path : List Nat}, Shows s t v →
    Path s s.cells.length path (depth t) → depth t + path.length ≤ s.cells.length
  | .node i f xs, v, path, hshows, hpath => by
      have hnode := hshows
      obtain ⟨rfl, id, x, vs, rfl, hitems, hf, hxs⟩ := hshows
      obtain ⟨n, hread, -⟩ := itemsAt_eq_some.mp hitems
      obtain ⟨m, hcell⟩ := read_eq_some.mp hread
      have hlonger : Path s s.cells.length (id :: path) (max (depth f) (depthAll xs)) := by
        refine ⟨List.nodup_cons.mpr ⟨fun hmem => ?_, hpath.nodup⟩,
          List.forall_mem_cons.mpr ⟨lt_of_cell?_eq_some hcell, hpath.lt⟩,
          List.forall_mem_cons.mpr ⟨⟨_, hnode, Nat.lt_succ_self _⟩,
            (hpath.mono (Nat.le_succ _)).deeper⟩⟩
        obtain ⟨t, ht, hlt⟩ := hpath.deeper id hmem
        rw [eq_of_shows ht hnode] at hlt
        exact Nat.lt_irrefl _ hlt
      have hhead := depth_add_le hf (hlonger.mono (Nat.le_max_left ..))
      have hargs := depthAll_add_le hxs (hlonger.mono (Nat.le_max_right ..))
      rw [List.length_cons] at hhead hargs
      rw [depth]
      omega
  | .magic _, _, _, _, hpath | .int _, _, _, _, hpath | .float _, _, _, _, hpath
  | .text _, _, _, _, hpath | .symbol _, _, _, _, hpath | .host _, _, _, _, hpath => by
      simpa [depth] using hpath.length_le

theorem depthAll_add_le : ∀ {ts : List Term} {vs : List Value} {path : List Nat},
    ShowsAll s ts vs → Path s s.cells.length path (depthAll ts) →
      depthAll ts + path.length ≤ s.cells.length
  | [], _, _, _, hpath => by
      rw [depthAll, Nat.zero_add]
      exact hpath.length_le
  | t :: ts, vs, path, hshows, hpath => by
      obtain ⟨x, xs, rfl, ht, hts⟩ := hshows
      have hfirst := depth_add_le ht (hpath.mono (Nat.le_max_left ..))
      have hrest := depthAll_add_le hts (hpath.mono (Nat.le_max_right ..))
      rw [depthAll]
      omega

end

/-- Calls are nested no more deeply than there are nodes. -/
theorem depth_le {t : Term} {v : Value} (h : Shows s t v) : depth t ≤ s.cells.length :=
  depth_add_le h (show Path s _ [] _ from ⟨.nil, nofun, nofun⟩)

end Termwise.Shared
