import Termwise.Eval.Step
import Termwise.Proofs.Pattern.Likeness
import Termwise.Proofs.Term.NormalForm

/-!
# Termwise.Proofs.Eval.Arrangement

Normal forms of calls.

* Calls that correspond in two runs still do when sequences are dissolved in both, when both are
  flattened, sorted or threaded over lists (`like_spliced`, `like_rearranged`, `like_rows`).
* For an orderless symbol the order of the arguments makes no difference
  (`strip_rearranged_of_perm`).
-/

namespace Termwise

namespace Evaluator

/-- A call with its sequences dissolved, unless the attributes of its head hold them. -/
def spliced (attrs : Attributes) (call : Term) : Term :=
  if attrs.has .sequenceHold || attrs.has .holdAllComplete then call else call.spliceSequences

/-- A call flattened and sorted as the attributes of its head say. -/
def rearranged (attrs : Attributes) (call : Term) : Term :=
  let call := if attrs.has .flat then call.flatten else call
  if attrs.has .orderless then call.sortArgs else call

theorem normalize_eq (attrs : Attributes) (call : Term) : normalize attrs call = (do
    match ← if attrs.has .listable then (spliced attrs call).threadListable else pure none with
    | some threaded => return .rewritten threaded
    | none => return .done (rearranged attrs (spliced attrs call))) := rfl

theorem run_normalize {attrs : Attributes} (h : attrs.has .listable = false) (call : Term)
    (k : Kernel) :
    (normalize attrs call).run k = (.ok (.done (rearranged attrs (spliced attrs call))), k) := by
  rw [normalize_eq, h]
  rfl

end Evaluator

namespace Likeness

variable {W : Type} [Preorder W] {L : Likeness W} {w w' : W} {t t' f f' : Term} {xs ys : List Term}

theorem hasHead_eq (h : L.Like w t t') (s : Symbol) : t.hasHead s = t'.hasHead s := by
  cases t with
  | node i f xs =>
      obtain ⟨j, g, ys, rfl, hhead, -⟩ := exists_node h
      exact isSymbol_eq hhead s
  | _ =>
      have hstrip := L.strip_eq h
      cases t' with
      | node => simp [Term.strip] at hstrip
      | _ => rfl

theorem All.any_congr {q q' : Term → Bool} (hq : ∀ {t t'}, L.Like w t t' → q t = q' t')
    (h : L.All w xs ys) : xs.any q = ys.any q' := by
  induction h with
  | nil => rfl
  | cons h _ ih => rw [List.any_cons, List.any_cons, hq h, ih]

theorem All.flatMap {q q' : Term → List Term} (hq : ∀ {t t'}, L.Like w t t' → L.All w (q t) (q' t'))
    (h : L.All w xs ys) : L.All w (xs.flatMap q) (ys.flatMap q') := by
  induction h with
  | nil => exact .nil
  | cons h _ ih =>
      rw [List.flatMap_cons, List.flatMap_cons]
      exact (hq h).append ih

theorem All.map {q q' : Term → Term} (hq : ∀ {t t'}, L.Like w t t' → L.Like w (q t) (q' t'))
    (h : L.All w xs ys) : L.All w (xs.map q) (ys.map q') := by
  induction h with
  | nil => exact .nil
  | cons h _ ih => exact .cons (hq h) ih

theorem All.getD (h : L.All w xs ys) (i : Nat) (hd : L.Like w t t') :
    L.Like w (xs.getD i t) (ys.getD i t') := by
  induction h generalizing i with
  | nil => exact hd
  | cons hx _ ih =>
      cases i with
      | zero => exact hx
      | succ i => exact ih i

theorem All.filterMap_eq {α : Type} {q : Term → Option α}
    (hq : ∀ {t t'}, L.Like w t t' → q t = q t') (h : L.All w xs ys) : xs.filterMap q = ys.filterMap q := by
  induction h with
  | nil => rfl
  | cons h _ ih => rw [List.filterMap_cons, List.filterMap_cons, hq h, ih]

/-! ## sequences -/

theorem all_items (h : L.Like w t t') : L.All w t.items t'.items := by
  cases t with
  | node i f xs =>
      obtain ⟨j, g, ys, rfl, hhead, hargs⟩ := exists_node h
      exact .cons hhead hargs
  | _ =>
      have hstrip := L.strip_eq h
      cases t' with
      | node => simp [Term.strip] at hstrip
      | _ => exact .nil

theorem like_ofItems (h : L.All w xs ys) : L.Like w (.ofItems xs) (.ofItems ys) := by
  cases h with
  | nil => exact L.call (L.magic w .null) .nil
  | cons hhead hargs => exact L.call hhead hargs

theorem like_spliceSequences (h : L.Like w t t') :
    L.Like w t.spliceSequences t'.spliceSequences := by
  have hhead : ∀ {a a'}, L.Like w a a' → a.hasHead .sequence = a'.hasHead .sequence :=
    fun ha => hasHead_eq ha .sequence
  unfold Term.spliceSequences
  rw [(all_args h).any_congr hhead]
  split
  · refine like_ofItems ((all_items h).flatMap fun ha => ?_)
    rw [hhead ha]
    split
    · exact all_args ha
    · exact .cons ha .nil
  · exact h

/-! ## flat heads -/

theorem isCallOf_eq (hf : L.Like w f f') (h : L.Like w t t') :
    Term.isCallOf f t = Term.isCallOf f' t' := by
  cases t with
  | node i g xs =>
      obtain ⟨j, g', ys, rfl, hhead, -⟩ := exists_node h
      exact beq_congr hhead hf
  | _ =>
      have hstrip := L.strip_eq h
      cases t' with
      | node => simp [Term.strip] at hstrip
      | _ => rfl

mutual

theorem all_leaves (hf : L.Like w f f') : ∀ {t t' : Term}, L.Like w t t' →
    L.All w (Term.leaves f t) (Term.leaves f' t')
  | .node i g xs, t', h => by
      obtain ⟨j, g', ys, rfl, hhead, hargs⟩ := exists_node h
      rw [Term.leaves, Term.leaves, beq_congr hhead hf]
      split
      · exact all_leavesAll hf hargs
      · exact .cons h .nil
  | .magic _, t', h | .int _, t', h | .float _, t', h | .text _, t', h | .symbol _, t', h
  | .host _, t', h => by
      have hstrip := L.strip_eq h
      cases t' with
      | node => simp [Term.strip] at hstrip
      | _ => exact .cons h .nil

theorem all_leavesAll (hf : L.Like w f f') : ∀ {xs ys : List Term}, L.All w xs ys →
    L.All w (Term.leavesAll f xs) (Term.leavesAll f' ys)
  | [], _, h => by
      cases h
      exact .nil
  | t :: ts, _, h => by
      cases h with
      | cons ht hts => exact (all_leaves hf ht).append (all_leavesAll hf hts)

end

theorem like_flatten (h : L.Like w t t') : L.Like w t.flatten t'.flatten := by
  have hkey := like_key h
  unfold Term.flatten
  rw [(all_args h).any_congr fun ha => isCallOf_eq hkey ha]
  split
  · exact L.call hkey (all_leavesAll hkey (all_args h))
  · exact h

/-! ## orderless heads -/

theorem le_eq {u u' : Term} (h : L.Like w t t') (hu : L.Like w u u') : t.le u = t'.le u' := by
  rw [Term.le, Term.le, Term.compare_congr (L.strip_eq h) (L.strip_eq hu)]

theorem All.isSorted_eq (h : L.All w xs ys) : Term.isSorted xs = Term.isSorted ys := by
  induction h with
  | nil => rfl
  | cons hx hrest ih =>
      cases hrest with
      | nil => rfl
      | cons hy hrest => rw [Term.isSorted, Term.isSorted, le_eq hx hy, ih]

/-- Sorting moves the items of corresponding lists alike. -/
theorem All.sort (h : L.All w xs ys) : L.All w (Term.sort xs) (Term.sort ys) := by
  -- sort the pairs, by the first of each or by the second
  obtain ⟨pairs, hpairs, rfl, rfl⟩ : ∃ pairs : List (Term × Term),
      (∀ p ∈ pairs, L.Like w p.1 p.2) ∧ pairs.map Prod.fst = xs ∧ pairs.map Prod.snd = ys := by
    induction h with
    | nil => exact ⟨[], nofun, rfl, rfl⟩
    | cons hx _ ih =>
        obtain ⟨pairs, hpairs, rfl, rfl⟩ := ih
        exact ⟨(_, _) :: pairs, List.forall_mem_cons.mpr ⟨hx, hpairs⟩, rfl, rfl⟩
  let sorted := pairs.mergeSort fun p q => p.1.le q.1
  have hfst : sorted.map Prod.fst = Term.sort (pairs.map Prod.fst) :=
    List.map_mergeSort fun _ _ _ _ => rfl
  have hsnd : sorted.map Prod.snd = Term.sort (pairs.map Prod.snd) :=
    List.map_mergeSort fun p hp q hq => le_eq (hpairs p hp) (hpairs q hq)
  rw [← hfst, ← hsnd]
  refine List.forall₂_map_left_iff.mpr (List.forall₂_map_right_iff.mpr ?_)
  exact List.forall₂_same.mpr fun p hp => hpairs p (List.mem_mergeSort.mp hp)

theorem like_sortArgs (h : L.Like w t t') : L.Like w t.sortArgs t'.sortArgs := by
  unfold Term.sortArgs
  rw [(all_args h).isSorted_eq]
  split
  · exact h
  · exact L.call (like_key h) (all_args h).sort

/-! ## attributes -/

open Evaluator

theorem like_spliced (attrs : Attributes) (h : L.Like w t t') :
    L.Like w (spliced attrs t) (spliced attrs t') := by
  unfold spliced
  split
  · exact h
  · exact like_spliceSequences h

theorem like_rearranged (attrs : Attributes) (h : L.Like w t t') :
    L.Like w (rearranged attrs t) (rearranged attrs t') := by
  have hflat : L.Like w (if attrs.has .flat then t.flatten else t)
      (if attrs.has .flat then t'.flatten else t') := by
    split
    · exact like_flatten h
    · exact h
  unfold rearranged
  dsimp only
  split
  · exact like_sortArgs hflat
  · exact hflat

/-! ## listable heads -/

theorem All.listLengths_eq (h : L.All w xs ys) : Term.listLengths xs = Term.listLengths ys := by
  unfold Term.listLengths
  induction h with
  | nil => rfl
  | cons hx _ ih =>
      rw [List.filter_cons, List.filter_cons, hasHead_eq hx]
      split
      · rw [List.map_cons, List.map_cons, ih, (all_args hx).length_eq]
      · exact ih

theorem like_row (h : L.Like w t t') (i : Nat) : L.Like w (t.row i) (t'.row i) := by
  refine L.call (like_key h) ((all_args h).map fun ha => ?_)
  rw [hasHead_eq ha]
  split
  · exact (all_args ha).getD i (L.magic w .null)
  · exact ha

theorem like_rows (h : L.Like w t t') (n : Nat) :
    L.Like w (.list ((List.range n).map t.row)) (.list ((List.range n).map t'.row)) := by
  refine app .list ?_
  induction List.range n with
  | nil => exact .nil
  | cons i is ih => exact .cons (like_row h i) ih

end Likeness

/-! ## orderless symbols -/

namespace Evaluator

/-- What an argument contributes to a call that dissolves sequences. -/
def spliceItems (a : Term) : List Term := if a.hasHead .sequence then a.args else [a]

theorem spliceSequences_call (s : Symbol) (xs : List Term) :
    (Term.call (.symbol s) xs).spliceSequences =
      .call (.symbol s) (xs.flatMap spliceItems) := by
  unfold Term.spliceSequences
  split
  · rfl
  · rename_i hnone
    have hsingle : ∀ x ∈ xs, spliceItems x = [x] := fun x hx => by
      have hhead : x.hasHead .sequence = false := by
        simpa using List.any_eq_false.mp (Bool.eq_false_iff.mpr hnone) x hx
      rw [spliceItems, hhead]
      rfl
    rw [List.flatMap_congr hsingle, List.flatMap_singleton']

theorem spliceItems_strip (a : Term) : spliceItems a.strip = (spliceItems a).map Term.strip := by
  have hhead : a.strip.hasHead .sequence = a.hasHead .sequence := by
    cases a with
    | node i f xs => exact Term.isSymbol_strip f _
    | _ => rfl
  rw [spliceItems, spliceItems, hhead, Term.args_strip]
  split <;> rfl

theorem flatMap_spliceItems_perm {xs ys : List Term}
    (h : (xs.map Term.strip).Perm (ys.map Term.strip)) :
    ((xs.flatMap spliceItems).map Term.strip).Perm ((ys.flatMap spliceItems).map Term.strip) := by
  have hmap : ∀ zs : List Term, (zs.flatMap spliceItems).map Term.strip =
      (zs.map Term.strip).flatMap spliceItems := fun zs => by
    rw [List.map_flatMap, List.flatMap_map]
    exact List.flatMap_congr fun z _ => (spliceItems_strip z).symm
  rw [hmap, hmap]
  exact h.flatMap_right _

theorem exists_spliced_call (attrs : Attributes) (s : Symbol) {xs ys : List Term}
    (h : (xs.map Term.strip).Perm (ys.map Term.strip)) :
    ∃ xs' ys', spliced attrs (.call (.symbol s) xs) = .call (.symbol s) xs' ∧
      spliced attrs (.call (.symbol s) ys) = .call (.symbol s) ys' ∧
      (xs'.map Term.strip).Perm (ys'.map Term.strip) := by
  unfold spliced
  split
  · exact ⟨xs, ys, rfl, rfl, h⟩
  · exact ⟨_, _, spliceSequences_call s xs, spliceSequences_call s ys, flatMap_spliceItems_perm h⟩

/-- Calls of an orderless symbol on the same arguments in any order have one normal form. -/
theorem strip_rearranged_of_perm {attrs : Attributes} (horderless : attrs.has .orderless = true)
    (s : Symbol) {xs ys : List Term} (h : (xs.map Term.strip).Perm (ys.map Term.strip)) :
    (rearranged attrs (spliced attrs (.call (.symbol s) xs))).strip =
      (rearranged attrs (spliced attrs (.call (.symbol s) ys))).strip := by
  have hsorted : ∀ {xs ys : List Term}, (xs.map Term.strip).Perm (ys.map Term.strip) →
      (Term.sortArgs (.call (.symbol s) xs)).strip =
        (Term.sortArgs (.call (.symbol s) ys)).strip := fun {xs ys} h => by
    rw [Term.sortArgs_call, Term.sortArgs_call, Term.strip_call, Term.strip_call,
      ← Term.sort_map_strip, ← Term.sort_map_strip, Term.sort_eq_of_perm h]
  obtain ⟨xs', ys', hxs, hys, hperm⟩ := exists_spliced_call attrs s h
  rw [hxs, hys]
  unfold rearranged
  dsimp only
  rw [if_pos horderless, if_pos horderless]
  split
  · rw [Term.flatten_call, Term.flatten_call]
    refine hsorted ?_
    have hleaves := Term.leavesAll_perm (Term.strip (.symbol s)) hperm
    rwa [Term.leavesAll_strip, Term.leavesAll_strip] at hleaves
  · exact hsorted hperm

end Evaluator

end Termwise
