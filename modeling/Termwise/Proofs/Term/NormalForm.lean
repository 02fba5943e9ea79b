import Termwise.Eval.Normalize
import Termwise.Proofs.Term.Order
import Termwise.Proofs.Term.Ordinary

/-!
# Termwise.Proofs.Term.NormalForm

The form of a term that the attributes of heads leave no choice about: from the inside
out, nested calls of flat heads are dissolved, then arguments of orderless heads
sorted.

* `canonical_node` — the normal form of a call is made of the normal forms of its parts;
* `EquivalentArgs` — argument lists that a head cannot tell apart, closed under joining, under
  rearranging for an orderless head and under regrouping for a flat one;
* `canonical_call_congr` — calls of such argument lists have one normal form.
-/

namespace Termwise.Term

/-! ## flat heads -/

theorem leavesAll_eq_flatMap (head : Term) (ts : List Term) :
    leavesAll head ts = ts.flatMap (leaves head) := by
  induction ts with
  | nil => rfl
  | cons t ts ih => rw [leavesAll, ih, List.flatMap_cons]

theorem leavesAll_append (head : Term) (xs ys : List Term) :
    leavesAll head (xs ++ ys) = leavesAll head xs ++ leavesAll head ys := by
  simp only [leavesAll_eq_flatMap, List.flatMap_append]

theorem leavesAll_perm (head : Term) {xs ys : List Term} (h : xs.Perm ys) :
    (leavesAll head xs).Perm (leavesAll head ys) := by
  simp only [leavesAll_eq_flatMap]
  exact h.flatMap_right _

theorem leaves_of_not_isCallOf {head t : Term} (h : isCallOf head t = false) :
    leaves head t = [t] := by
  cases t with
  | node i f xs =>
      rw [isCallOf] at h
      rw [leaves, h]
      rfl
  | _ => rfl

theorem leavesAll_of_not_isCallOf {head : Term} {ts : List Term}
    (h : ∀ t ∈ ts, isCallOf head t = false) : leavesAll head ts = ts := by
  induction ts with
  | nil => rfl
  | cons t ts ih =>
      obtain ⟨ht, hts⟩ := List.forall_mem_cons.mp h
      rw [leavesAll, leaves_of_not_isCallOf ht, ih hts, List.singleton_append]

mutual

/-- No nested call of the head is left. -/
theorem isCallOf_of_mem_leaves (head : Term) : ∀ t : Term, ∀ s ∈ leaves head t,
    isCallOf head s = false
  | .node i f xs, s, hs => by
      rw [leaves] at hs
      cases hf : f == head with
      | true =>
          rw [hf, if_pos rfl] at hs
          exact isCallOf_of_mem_leavesAll head xs s hs
      | false =>
          rw [hf, if_neg Bool.false_ne_true, List.mem_singleton] at hs
          rw [hs, isCallOf, hf]
  | .magic _, s, hs | .int _, s, hs | .float _, s, hs | .text _, s, hs | .symbol _, s, hs
  | .host _, s, hs => by
      rw [List.mem_singleton.mp hs]
      rfl

theorem isCallOf_of_mem_leavesAll (head : Term) : ∀ ts : List Term, ∀ s ∈ leavesAll head ts,
    isCallOf head s = false
  | [], s, hs => by cases hs
  | t :: ts, s, hs => by
      rw [leavesAll, List.mem_append] at hs
      obtain hs | hs := hs
      · exact isCallOf_of_mem_leaves head t s hs
      · exact isCallOf_of_mem_leavesAll head ts s hs

end

theorem leavesAll_leavesAll (head : Term) (ts : List Term) :
    leavesAll head (leavesAll head ts) = leavesAll head ts :=
  leavesAll_of_not_isCallOf (isCallOf_of_mem_leavesAll head ts)

mutual

theorem leaves_strip (head : Term) : ∀ t : Term,
    leaves head.strip t.strip = (leaves head t).map strip
  | .node i f xs => by
      rw [strip, leaves, leaves, beq_congr (strip_strip f) (strip_strip head)]
      split
      · rw [stripAll_eq_map, leavesAll_strip head xs]
      · simp [strip]
  | .magic _ | .int _ | .float _ | .text _ | .symbol _ | .host _ => rfl

theorem leavesAll_strip (head : Term) : ∀ ts : List Term,
    leavesAll head.strip (ts.map strip) = (leavesAll head ts).map strip
  | [] => rfl
  | t :: ts => by
      rw [List.map_cons, leavesAll, leavesAll, leaves_strip head t, leavesAll_strip head ts,
        List.map_append]

end

/-- A call of a flat head becomes the call on what its arguments contribute. -/
theorem flatten_call (head : Term) (xs : List Term) :
    flatten (call head xs) = call head (leavesAll head xs) := by
  cases h : xs.any (isCallOf head) with
  | true => exact if_pos h
  | false =>
      have hleaves : leavesAll head xs = xs := by
        refine leavesAll_of_not_isCallOf fun t ht => ?_
        simpa using List.any_eq_false.mp h t ht
      rw [hleaves]
      exact if_neg (by simp [args, call, key, h])

/-! ## orderless heads -/

theorem pairwise_of_isSorted : ∀ {ts : List Term}, isSorted ts = true →
    ts.Pairwise fun a b => le a b = true
  | [], _ => .nil
  | [_], _ => List.pairwise_singleton _ _
  | a :: b :: rest, h => by
      rw [isSorted, Bool.and_eq_true] at h
      have hrest := pairwise_of_isSorted h.2
      refine .cons (fun c hc => ?_) hrest
      obtain rfl | hc := List.mem_cons.mp hc
      · exact h.1
      · exact le_trans a b c h.1 (List.rel_of_pairwise_cons hrest hc)

/-- A call of an orderless head becomes the call on its sorted arguments. -/
theorem sortArgs_call (head : Term) (xs : List Term) :
    sortArgs (call head xs) = call head (sort xs) := by
  cases h : isSorted xs with
  | true =>
      have hsort : sort xs = xs := List.mergeSort_of_pairwise (pairwise_of_isSorted h)
      rw [hsort]
      exact if_pos h
  | false => exact if_neg (by simp [args, call, h])

/-! ## normal forms -/

/-- A call rearranged as the attributes of its head allow. -/
def arrange (attrs : Symbol → Attributes) (t : Term) : Term :=
  let a := t.headAttributes attrs
  let t := if a.has .flat then t.flatten else t
  if a.has .orderless then t.sortArgs else t

mutual

/-- The term with every call in it rearranged, the innermost ones first. -/
def normalForm (attrs : Symbol → Attributes) : Term → Term
  | .node _ f xs => arrange attrs (call (normalForm attrs f) (normalForms attrs xs))
  | t => t

/-- The normal forms of several terms. -/
def normalForms (attrs : Symbol → Attributes) : List Term → List Term
  | [] => []
  | t :: ts => normalForm attrs t :: normalForms attrs ts

end

section Canonical

variable (attrs : Symbol → Attributes)

theorem normalForms_eq_map (ts : List Term) : normalForms attrs ts = ts.map (normalForm attrs) := by
  induction ts with
  | nil => rfl
  | cons t ts ih => rw [normalForms, ih, List.map_cons]

/-- Whether calls of a head are flat. -/
def isFlat (f : Term) : Bool := ((call f []).headAttributes attrs).has .flat

/-- Whether calls of a head are orderless. -/
def isOrderless (f : Term) : Bool := ((call f []).headAttributes attrs).has .orderless

theorem headAttributes_node (i : Nat) (f : Term) (xs : List Term) :
    (node i f xs).headAttributes attrs = (call f []).headAttributes attrs := by
  cases f <;> rfl

/-- Rearranging keeps the head. -/
theorem arrange_call (f : Term) (xs : List Term) :
    arrange attrs (call f xs) =
      call f (let ys := if isFlat attrs f then leavesAll f xs else xs
        if isOrderless attrs f then sort ys else ys) := by
  have hattrs : (call f xs).headAttributes attrs = (call f []).headAttributes attrs :=
    headAttributes_node attrs 0 f xs
  rw [arrange, hattrs]
  dsimp only
  rw [← isFlat, ← isOrderless]
  cases isFlat attrs f <;> cases isOrderless attrs f <;> simp [flatten_call, sortArgs_call]

theorem normalForm_node (i : Nat) (f : Term) (xs : List Term) :
    normalForm attrs (.node i f xs) =
      arrange attrs (call (normalForm attrs f) (xs.map (normalForm attrs))) := by
  rw [normalForm, normalForms_eq_map]

/-- The normal form without identities. -/
def canonical (t : Term) : Term := (normalForm attrs t).strip

theorem normalForm_beq_iff (s t : Term) :
    (normalForm attrs s == normalForm attrs t) = true ↔ canonical attrs s = canonical attrs t :=
  beq_iff_strip _ _

/-- The attributes of calls are those of calls in normal form. -/
theorem headAttributes_normalForm (f : Term) :
    (call (normalForm attrs f) []).headAttributes attrs = (call f []).headAttributes attrs := by
  cases f with
  | node i g xs =>
      rw [normalForm_node, arrange_call]
      rfl
  | _ => rfl

theorem headAttributes_canonical (f : Term) :
    (call (canonical attrs f) []).headAttributes attrs = (call f []).headAttributes attrs := by
  rw [← headAttributes_normalForm attrs f,
    ← headAttributes_strip attrs (call (normalForm attrs f) [])]
  rfl

/-- What terms contribute to a call of a head, in normal form. -/
def contributions (f : Term) (xs : List Term) : List Term :=
  let ys := xs.map (canonical attrs)
  if isFlat attrs f then leavesAll (canonical attrs f) ys else ys

/-- The normal form of a call is made of what its arguments contribute. -/
theorem canonical_node (i : Nat) (f : Term) (xs : List Term) :
    canonical attrs (.node i f xs) =
      call (canonical attrs f) (if isOrderless attrs f then sort (contributions attrs f xs)
        else contributions attrs f xs) := by
  have hmap : xs.map (canonical attrs) = (xs.map (normalForm attrs)).map strip := by
    rw [List.map_map]
    rfl
  rw [canonical, normalForm_node, arrange_call, isFlat, isOrderless, headAttributes_normalForm,
    ← isFlat, ← isOrderless, strip_call, contributions, canonical, hmap]
  cases isFlat attrs f <;> cases isOrderless attrs f <;>
    simp only [Bool.false_eq_true, if_true, if_false, leavesAll_strip, sort_map_strip]

/-- A term and the term without identities have one normal form. -/
theorem canonical_strip : ∀ t : Term, canonical attrs t.strip = canonical attrs t
  | .node i f xs => by
      have hargs : (xs.map strip).map (canonical attrs) = xs.map (canonical attrs) := by
        rw [List.map_map]
        exact List.map_congr_left fun x hx => canonical_strip x
      have hattrs : (call f.strip []).headAttributes attrs = (call f []).headAttributes attrs :=
        headAttributes_strip attrs (call f [])
      rw [strip, stripAll_eq_map, canonical_node, canonical_node, contributions, contributions,
        isFlat, isOrderless, hattrs, hargs, canonical_strip f]
      rfl
  | .text s => by simp [canonical, strip, normalForm]
  | .host o => rfl
  | .magic _ | .int _ | .float _ | .symbol _ => rfl

theorem canonical_congr {s t : Term} (h : s.strip = t.strip) :
    canonical attrs s = canonical attrs t := by
  rw [← canonical_strip, h, canonical_strip]

theorem map_canonical_congr {xs ys : List Term} (h : xs.map strip = ys.map strip) :
    xs.map (canonical attrs) = ys.map (canonical attrs) := by
  have hstrip : ∀ zs : List Term,
      zs.map (canonical attrs) = (zs.map strip).map (canonical attrs) := by
    intro zs
    rw [List.map_map]
    exact List.map_congr_left fun z _ => (canonical_strip attrs z).symm
  rw [hstrip, h, ← hstrip]

/-- The normal form of a run is a run, and that of another term is not. -/
theorem isMarker_canonical (t : Term) : (canonical attrs t).isMarker = t.isMarker := by
  cases t with
  | node i f xs =>
      rw [canonical_node, call, isMarker_node, isMarker_node i f xs]
      cases f with
      | node j g ys =>
          rw [canonical_node]
          rfl
      | _ => rfl
  | _ => rfl

/-! ## argument lists -/

/-- Whether calls of a head on two argument lists have one normal form, wherever the lists stand
among other arguments. -/
def EquivalentArgs (f : Term) (xs ys : List Term) : Prop :=
  if isOrderless attrs f then (contributions attrs f xs).Perm (contributions attrs f ys)
  else contributions attrs f xs = contributions attrs f ys

variable {attrs} {f : Term} {xs ys zs xs' ys' : List Term}

theorem contributions_append (xs ys : List Term) :
    contributions attrs f (xs ++ ys) = contributions attrs f xs ++ contributions attrs f ys := by
  simp only [contributions, List.map_append]
  split
  · exact leavesAll_append _ _ _
  · rfl

theorem contributions_map_strip (xs : List Term) :
    (contributions attrs f xs).map strip = contributions attrs f xs := by
  have hcanonical : ∀ t, (canonical attrs t).strip = canonical attrs t := fun t => strip_strip _
  have hmap : (xs.map (canonical attrs)).map strip = xs.map (canonical attrs) := by
    rw [List.map_map]
    exact List.map_congr_left fun x _ => hcanonical x
  unfold contributions
  dsimp only
  split
  · rw [← leavesAll_strip, hcanonical, hmap]
  · exact hmap

theorem sort_contributions (h : (contributions attrs f xs).Perm (contributions attrs f ys)) :
    sort (contributions attrs f xs) = sort (contributions attrs f ys) := by
  rw [← contributions_map_strip xs, ← contributions_map_strip ys] at h ⊢
  exact sort_eq_of_perm h

/-- Arguments with equal normal forms contribute the same. -/
theorem equivalentArgs_of_map_eq (h : xs.map (canonical attrs) = ys.map (canonical attrs)) :
    EquivalentArgs attrs f xs ys := by
  have heq : contributions attrs f xs = contributions attrs f ys := by
    simp only [contributions, h]
  unfold EquivalentArgs
  split
  · rw [heq]
  · exact heq

namespace EquivalentArgs

theorem trans (h : EquivalentArgs attrs f xs ys) (h' : EquivalentArgs attrs f ys zs) :
    EquivalentArgs attrs f xs zs := by
  unfold EquivalentArgs at *
  split at h
  · rw [if_pos ‹_›] at h' ⊢
    exact h.trans h'
  · rw [if_neg ‹_›] at h' ⊢
    exact h.trans h'

theorem append (h : EquivalentArgs attrs f xs ys) (h' : EquivalentArgs attrs f xs' ys') :
    EquivalentArgs attrs f (xs ++ xs') (ys ++ ys') := by
  unfold EquivalentArgs at *
  rw [contributions_append, contributions_append]
  split at h
  · rw [if_pos ‹_›] at h' ⊢
    exact h.append h'
  · rw [if_neg ‹_›] at h' ⊢
    rw [h, h']

end EquivalentArgs

/-- For an orderless head the order of arguments does not count. -/
theorem equivalentArgs_of_perm (horderless : isOrderless attrs f = true) (h : xs.Perm ys) :
    EquivalentArgs attrs f xs ys := by
  rw [EquivalentArgs, if_pos horderless, contributions, contributions]
  split
  · exact leavesAll_perm _ (h.map _)
  · exact h.map _

/-- For a flat head arguments may be grouped in a call of that head. -/
theorem equivalentArgs_group (hflat : isFlat attrs f = true) (i : Nat) (xs : List Term) :
    EquivalentArgs attrs f [.node i f xs] xs := by
  have hidem : leavesAll (canonical attrs f) (contributions attrs f xs) =
      contributions attrs f xs := by
    rw [contributions, if_pos hflat, leavesAll_leavesAll]
  have hgroup : contributions attrs f [.node i f xs] =
      leavesAll (canonical attrs f) (if isOrderless attrs f then sort (contributions attrs f xs)
        else contributions attrs f xs) := by
    rw [contributions, if_pos hflat, List.map_singleton, canonical_node, leavesAll, leavesAll,
      List.append_nil, call, leaves, beq_self_eq_true, if_pos rfl]
  unfold EquivalentArgs
  rw [hgroup]
  split
  · have hsorted := leavesAll_perm (canonical attrs f) (sort_perm (contributions attrs f xs))
    rwa [hidem] at hsorted
  · exact hidem

/-- Calls of equal heads on equivalent argument lists have one normal form. -/
theorem canonical_call_congr {i j : Nat} {g : Term} (hfg : canonical attrs g = canonical attrs f)
    (h : EquivalentArgs attrs f xs ys) :
    canonical attrs (.node i g xs) = canonical attrs (.node j f ys) := by
  have hattrs : (call g []).headAttributes attrs = (call f []).headAttributes attrs := by
    rw [← headAttributes_canonical, hfg, headAttributes_canonical]
  have hcontributions : contributions attrs g xs = contributions attrs f xs := by
    rw [contributions, contributions, isFlat, isFlat, hattrs, hfg]
  rw [canonical_node, canonical_node, hfg, isOrderless, hattrs, ← isOrderless, hcontributions]
  unfold EquivalentArgs at h
  split at h
  · next horderless =>
      rw [if_pos horderless, if_pos horderless, sort_contributions h]
  · next hordered => rw [if_neg hordered, if_neg hordered, h]

end Canonical

end Termwise.Term
