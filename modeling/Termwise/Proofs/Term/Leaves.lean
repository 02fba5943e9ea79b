import Mathlib.Data.Multiset.MapFold
import Termwise.Proofs.Term.NormalForm

/-!
# Termwise.Proofs.Term.Leaves

Flattening and sorting a call, as a canonical form for its leaves.  The leaves of a call are
its arguments, nested calls of the same head replaced by their own leaves; how they are
nested and in which order they stand is what flattening and sorting forget, and nothing else:

* `exists_sortArgs_flatten` — the result is a call of the same head on its leaves in order;
* `sortArgs_flatten_canonical` — two calls have equal results exactly if they have the same
  leaves, each as often, and doing it again changes nothing.
-/

namespace Termwise.Term

variable {f g : Term} {xs ys : List Term}

/-! ## leaves -/

mutual

/-- The leaves that an argument gives a call of a head: its own leaves if it is a call of that
head, and otherwise itself. -/
def argumentLeaves (head : Term) : Term → Multiset Term
  | .node id f args => if f == head then callLeaves head args else {.node id f args}
  | t => {t}

/-- The leaves of a call of a head, from its arguments. -/
def callLeaves (head : Term) : List Term → Multiset Term
  | [] => 0
  | t :: ts => argumentLeaves head t + callLeaves head ts

end

mutual

/-- What an argument contributes when a call is flattened are its leaves. -/
theorem coe_leaves (head : Term) : ∀ t : Term,
    (leaves head t : Multiset Term) = argumentLeaves head t
  | .node i f xs => by
      rw [leaves, argumentLeaves, ← coe_leavesAll head xs]
      split <;> rfl
  | .magic _ | .int _ | .float _ | .text _ | .symbol _ | .host _ => rfl

theorem coe_leavesAll (head : Term) : ∀ ts : List Term,
    (leavesAll head ts : Multiset Term) = callLeaves head ts
  | [] => rfl
  | t :: ts => by
      rw [leavesAll, callLeaves, ← Multiset.coe_add, coe_leaves head t, coe_leavesAll head ts]

end

/-- Calls have the same leaves, identities apart, exactly if flattening makes their arguments the
same up to their order. -/
theorem map_strip_callLeaves_eq_iff : (callLeaves f xs).map strip = (callLeaves g ys).map strip ↔
    ((leavesAll f xs).map strip).Perm ((leavesAll g ys).map strip) := by
  rw [← coe_leavesAll, ← coe_leavesAll, Multiset.map_coe, Multiset.map_coe, Multiset.coe_eq_coe]

/-! ## flattening and sorting -/

theorem exists_flatten (i : Nat) (f : Term) (xs : List Term) :
    ∃ k, flatten (.node i f xs) = .node k f (leavesAll f xs) := by
  by_cases h : xs.any (isCallOf f) = true
  · exact ⟨0, if_pos h⟩
  · have hnone : ∀ x ∈ xs, isCallOf f x = false := by simpa using h
    exact ⟨i, (if_neg h).trans (by rw [leavesAll_of_not_isCallOf hnone])⟩

theorem exists_sortArgs (i : Nat) (f : Term) (xs : List Term) :
    ∃ k, sortArgs (.node i f xs) = .node k f (sort xs) := by
  by_cases h : isSorted xs = true
  · have hsort : sort xs = xs := List.mergeSort_of_pairwise (pairwise_of_isSorted h)
    exact ⟨i, (if_pos h).trans (by rw [hsort])⟩
  · exact ⟨0, if_neg h⟩

/-- A call, flattened and sorted, is a call of the same head on its leaves in ascending order. -/
theorem exists_sortArgs_flatten (i : Nat) (f : Term) (xs : List Term) :
    ∃ k, sortArgs (flatten (.node i f xs)) = .node k f (sort (leavesAll f xs)) := by
  obtain ⟨k, hflatten⟩ := exists_flatten i f xs
  rw [hflatten]
  exact exists_sortArgs k f (leavesAll f xs)

/-- A call without nested calls of its head is flat already. -/
theorem flatten_of_not_isCallOf (i : Nat) (h : ∀ x ∈ xs, isCallOf f x = false) :
    flatten (.node i f xs) = .node i f xs := by
  have hany : xs.any (isCallOf f) = false := by simpa using h
  exact if_neg (by simp [args, key, hany])

theorem isSorted_of_pairwise : ∀ {ts : List Term}, (ts.Pairwise fun a b => le a b = true) →
    isSorted ts = true
  | [], _ | [_], _ => rfl
  | a :: b :: rest, h => by
      obtain ⟨ha, hrest⟩ := List.pairwise_cons.mp h
      rw [isSorted, ha b List.mem_cons_self, isSorted_of_pairwise hrest]
      rfl

/-- Equal results come from the same leaves. -/
theorem node_sort_beq_iff (hfg : (f == g) = true) (i j : Nat) (xs ys : List Term) :
    (node i f (sort xs) == node j g (sort ys)) = true ↔
      (xs.map strip).Perm (ys.map strip) := by
  have hhead : f.strip = g.strip := (beq_iff_strip f g).mp hfg
  rw [beq_iff_strip, strip, strip, stripAll_eq_map, stripAll_eq_map, ← sort_map_strip,
    ← sort_map_strip]
  constructor
  · intro h
    have hsort : sort (xs.map strip) = sort (ys.map strip) := (Term.node.inj h).2.2
    exact (sort_perm _).symm.trans (hsort ▸ sort_perm _)
  · intro h
    rw [hhead, sort_eq_of_perm h]

/-- Flattening and sorting give two calls of one head equal results exactly if the calls have the
same leaves, each of them as often.  The result has exactly these leaves as arguments, in ascending
order and none of them a call of the head, and comes back unchanged when flattened and sorted
again. -/
theorem sortArgs_flatten_canonical (hfg : (f == g) = true) (i j : Nat) (xs ys : List Term) :
    ((sortArgs (flatten (.node i f xs)) == sortArgs (flatten (.node j g ys))) = true ↔
        (callLeaves f xs).map strip = (callLeaves g ys).map strip) ∧
      (∃ k zs, sortArgs (flatten (.node i f xs)) = .node k f zs ∧
        (zs : Multiset Term) = callLeaves f xs ∧ (zs.Pairwise fun a b => le a b = true) ∧
        ∀ z ∈ zs, isCallOf f z = false) ∧
      sortArgs (flatten (sortArgs (flatten (.node i f xs)))) =
        sortArgs (flatten (.node i f xs)) := by
  obtain ⟨k, hresult⟩ := exists_sortArgs_flatten i f xs
  obtain ⟨k', hresult'⟩ := exists_sortArgs_flatten j g ys
  have hnone : ∀ z ∈ sort (leavesAll f xs), isCallOf f z = false := fun z hz =>
    isCallOf_of_mem_leavesAll f xs z ((sort_perm _).mem_iff.mp hz)
  rw [hresult, hresult']
  refine ⟨?_, ⟨k, _, rfl, ?_, pairwise_sort _, hnone⟩, ?_⟩
  · rw [node_sort_beq_iff hfg, map_strip_callLeaves_eq_iff]
  · rw [← coe_leavesAll, Multiset.coe_eq_coe]
    exact sort_perm _
  · rw [flatten_of_not_isCallOf k hnone]
    exact if_pos (isSorted_of_pairwise (pairwise_sort _))

/-- `{{2, "a"}, 1}` and `{1, {{2}}, "a"}` come to the same. -/
theorem sortArgs_flatten_lists :
    (sortArgs (flatten (.app .list [.app .list [.int 2, .ofString "a"], .int 1])) ==
      sortArgs (flatten (.app .list [.int 1, .app .list [.app .list [.int 2]],
        .ofString "a"]))) = true := by
  obtain ⟨hiff, -⟩ := sortArgs_flatten_canonical (f := .symbol .list) (g := .symbol .list) rfl 0 0
    [.app .list [.int 2, .ofString "a"], .int 1]
    [.int 1, .app .list [.app .list [.int 2]], .ofString "a"]
  refine hiff.mpr (congrArg (Multiset.map strip) ?_)
  rw [← coe_leavesAll, ← coe_leavesAll, Multiset.coe_eq_coe]
  exact (List.perm_append_comm : ([.int 2, .ofString "a"] ++ [.int 1] : List Term).Perm _)

end Termwise.Term
