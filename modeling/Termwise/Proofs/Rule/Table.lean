import Termwise.Proofs.Rule.History

/-!
# Termwise.Proofs.Rule.Table

What a dispatch table lists for a subject: the pattern rules whose dispatch key is that
of the subject and those without one, in list order (`candidates_makeTable`).  The table
is a list of groups of positions; a lookup merges the group of the key with the positions
of the rules without a key.

A table may be kept while attributes change.  In every history it is the one that some
earlier attributes make of the rules the list has now, and as long as the structure
epoch stands still nothing has become flat or orderless since (`Reached.tableFits`).
-/

namespace Termwise

namespace DispatchTable

/-! ## groups -/

/-- The positions in the group of a key. -/
def group (groups : List (Term × List Nat)) (key : Term) : List Nat :=
  ((groups.find? (·.1 == key)).map (·.2)).getD []

/-- One more position counts for the keys equal to its own. -/
theorem group_addKey (k key : Term) (i : Nat) (groups : List (Term × List Nat)) :
    group (addKey k i groups) key = group groups key ++ if k == key then [i] else [] := by
  induction groups with
  | nil =>
      cases h : k == key <;> simp [addKey, group, h]
  | cons g rest ih =>
      obtain ⟨k', is⟩ := g
      rw [addKey]
      simp only [group] at ih ⊢
      by_cases hk' : (k' == k) = true
      · have hsame : (k' == key) = (k == key) :=
          Term.beq_congr ((Term.beq_iff_strip _ _).mp hk') rfl
        rw [if_pos hk']
        cases h : k == key <;> simp [hsame, h]
      · rw [if_neg hk']
        cases h : k' == key with
        | true =>
            have hne : (k == key) = false := by
              rw [Bool.eq_false_iff]
              intro hkey
              exact hk' (Term.beq_trans h (by rwa [Term.beq_symm]))
            simp [h, hne]
        | false => simpa [h] using ih

/-! ## positions -/

/-- The positions of the members of a list that pass a test, the first one being at a given
position. -/
def positions {α : Type} (p : α → Bool) (n : Nat) : List α → List Nat
  | [] => []
  | x :: xs => if p x then n :: positions p (n + 1) xs else positions p (n + 1) xs

variable {α : Type} {p q : α → Bool}

theorem le_of_mem_positions {xs : List α} {n i : Nat} (h : i ∈ positions p n xs) : n ≤ i := by
  induction xs generalizing n with
  | nil => cases h
  | cons x xs ih =>
      rw [positions] at h
      split at h
      · rcases List.mem_cons.mp h with rfl | h
        · exact Nat.le_refl _
        · exact Nat.le_of_succ_le (ih h)
      · exact Nat.le_of_succ_le (ih h)

theorem merge_cons_left {i : Nat} {is js : List Nat} (h : ∀ j ∈ js, i ≤ j) :
    merge (i :: is) js = i :: merge is js := by
  cases js with
  | nil => rfl
  | cons j js =>
      have hnone : ¬j < i := Nat.not_lt.mpr (h j List.mem_cons_self)
      simp [merge, hnone]

theorem merge_cons_right {j : Nat} {is js : List Nat} (h : ∀ i ∈ is, j < i) :
    merge is (j :: js) = j :: merge is js := by
  cases is with
  | nil => rfl
  | cons i is => simp [merge, h i List.mem_cons_self]

/-- The positions of members that pass one of two tests that exclude each other. -/
theorem merge_positions (hpq : ∀ x, p x = true → q x = false) (n : Nat) (xs : List α) :
    merge (positions p n xs) (positions q n xs) = positions (fun x => p x || q x) n xs := by
  induction xs generalizing n with
  | nil => simp [positions, merge]
  | cons x xs ih =>
      have hlater : ∀ (r : α → Bool) (i : Nat), i ∈ positions r (n + 1) xs → n < i :=
        fun r i h => le_of_mem_positions h
      simp only [positions]
      by_cases hp : p x = true
      · rw [if_pos hp, if_neg (by simp [hpq x hp]), if_pos (by simp [hp]),
          merge_cons_left fun j hj => Nat.le_of_lt (hlater q j hj), ih]
      · by_cases hq : q x = true
        · rw [if_neg hp, if_pos hq, if_pos (by simp [hq]), merge_cons_right (hlater p), ih]
        · rw [if_neg hp, if_neg hq, if_neg (by simp [hp, hq]), ih]

/-- The members at the positions of those that pass a test. -/
theorem filterMap_positions (before xs : List α) :
    (positions p before.length xs).filterMap ((before ++ xs)[·]?) = xs.filter p := by
  induction xs generalizing before with
  | nil => rfl
  | cons x xs ih =>
      have hnext := ih (before ++ [x])
      simp only [List.length_append, List.length_singleton, List.append_assoc,
        List.singleton_append] at hnext
      rw [positions]
      cases hp : p x with
      | true => simp [hp, hnext]
      | false => simp [hp, hnext]

theorem positions_eq_map (n : Nat) (xs : List α) :
    ((xs.zipIdx n).filter fun x => p x.1).map (·.2) = positions p n xs := by
  induction xs generalizing n with
  | nil => rfl
  | cons x xs ih =>
      rw [List.zipIdx_cons, positions, ← ih]
      cases hp : p x <;> simp [hp]

end DispatchTable

namespace Rule

/-- Whether the dispatch key of a rule lets it apply to a subject with a given key. -/
def mayMatch (r : Rule) (key : Term) : Bool :=
  match r.dispatch with
  | some k => k == key
  | none => true

end Rule

namespace RuleList

open DispatchTable

variable {l : RuleList}

theorem group_makeTable (l : RuleList) (attrs : Symbol → Attributes) (epoch : Nat) (key : Term) :
    group (l.makeTable attrs epoch).byKey key =
      positions (fun r : Rule => r.dispatch.any (· == key)) 0 l.patterns := by
  have hfold : ∀ (n : Nat) (rs : List Rule) (groups : List (Term × List Nat)),
      group ((rs.zipIdx n).foldl (fun groups r =>
        match r.1.dispatch with
        | some key => addKey key r.2 groups
        | none => groups) groups) key =
      group groups key ++ positions (fun r : Rule => r.dispatch.any (· == key)) n rs := by
    intro n rs
    induction rs generalizing n with
    | nil => simp [positions]
    | cons r rs ih =>
        intro groups
        rw [List.zipIdx_cons, List.foldl_cons, ih, positions]
        cases hdispatch : r.dispatch with
        | none => simp
        | some k =>
            simp only [group_addKey, Option.any_some]
            by_cases hk : (k == key) = true <;> simp [hk]
  exact hfold 0 l.patterns []

/-- The pattern rules that a dispatch table lists for a key, in list order. -/
theorem candidates_makeTable (l : RuleList) (attrs : Symbol → Attributes) (epoch : Nat)
    (key : Term) :
    ((l.makeTable attrs epoch).candidates key).filterMap (l.patterns[·]?) =
      l.patterns.filter (·.mayMatch key) := by
  have hany : (l.makeTable attrs epoch).anyKey =
      positions (fun r : Rule => r.dispatch.isNone) 0 l.patterns :=
    positions_eq_map (p := fun r : Rule => r.dispatch.isNone) 0 l.patterns
  have hcandidates : (l.makeTable attrs epoch).candidates key =
      positions (fun r : Rule => r.dispatch.any (· == key) || r.dispatch.isNone) 0 l.patterns := by
    rw [← merge_positions (fun r hr => by cases h : r.dispatch <;> simp_all) 0 l.patterns,
      ← group_makeTable l attrs epoch key, ← hany]
    rfl
  have hmay : (fun r : Rule => r.dispatch.any (· == key) || r.dispatch.isNone) =
      (·.mayMatch key) := by
    funext r
    cases h : r.dispatch <;> simp [Rule.mayMatch, h]
  rw [hcandidates, hmay]
  exact filterMap_positions [] l.patterns

theorem flatMap_addKey (key : Term) (i : Nat) (groups : List (Term × List Nat)) :
    ((DispatchTable.addKey key i groups).flatMap (·.2)).Perm (i :: groups.flatMap (·.2)) := by
  induction groups with
  | nil => exact .refl _
  | cons g rest ih =>
      obtain ⟨k, is⟩ := g
      rw [DispatchTable.addKey]
      split
      · simp only [List.flatMap_cons, List.append_assoc]
        exact List.perm_middle
      · simp only [List.flatMap_cons]
        exact (ih.append_left is).trans List.perm_middle

/-- A dispatch table has every pattern rule, and has it once. -/
theorem positions_makeTable (l : RuleList) (attrs : Symbol → Attributes) (epoch : Nat) :
    ((l.makeTable attrs epoch).byKey.flatMap (·.2) ++ (l.makeTable attrs epoch).anyKey).Perm
      (List.range l.patterns.length) := by
  have hfold : ∀ (rs : List (Rule × Nat)) (groups : List (Term × List Nat)),
      ((rs.foldl (fun groups r =>
        match r.1.dispatch with
        | some key => DispatchTable.addKey key r.2 groups
        | none => groups) groups).flatMap (·.2)).Perm
      (groups.flatMap (·.2) ++ (rs.filter fun r => !r.1.dispatch.isNone).map (·.2)) := by
    intro rs
    induction rs with
    | nil => simp
    | cons r rs ih =>
        intro groups
        rw [List.foldl_cons]
        refine (ih _).trans ?_
        cases hdispatch : r.1.dispatch with
        | none => simp [hdispatch]
        | some key =>
            simp only [hdispatch, Option.isNone_some, Bool.not_false, List.filter_cons_of_pos,
              List.map_cons]
            refine ((flatMap_addKey key r.2 groups).append_right _).trans ?_
            exact List.perm_middle.symm
  have hall := List.perm_append_comm.trans
    (List.filter_append_perm (fun r : Rule × Nat => r.1.dispatch.isNone) l.patterns.zipIdx)
  refine ((hfold l.patterns.zipIdx []).append_right _).trans ?_
  have hmap := hall.map (·.2)
  rw [List.map_append, List.zipIdx_map_snd, ← List.range_eq_range'] at hmap
  exact hmap

/-- A constant rule that is read again as a pattern rule. -/
def reread (attrs : Symbol → Attributes) (r : Rule) : Rule := .make attrs r.lhs r.rhs r.kind

/-- What a dispatch table lists for a key: first the constant rules that are none any more. -/
theorem candidates_of_table {t : DispatchTable} {attrs : Symbol → Attributes} {subject : Term}
    (htable : l.table = some t) (ht : t = l.makeTable attrs t.epoch) :
    l.candidates subject =
      (l.literals.filter fun r => !r.lhs.isLiteral attrs).map (reread attrs) ++
        l.patterns.filter (·.mayMatch subject.key) := by
  rw [candidates, htable]
  dsimp only
  rw [ht, candidates_makeTable]
  rfl

/-! ## tables in histories -/

/-- The dispatch table of the list, if it has one, was made of the rules that it has now; while the
structure epoch stands still, nothing has become flat or orderless since. -/
def TableFits (k : Kernel) (l : RuleList) : Prop :=
  ∀ t, l.table = some t → t.epoch ≤ k.structureEpoch ∧
    ∃ attrs, t = l.makeTable attrs t.epoch ∧
      (t.epoch = k.structureEpoch →
        ∀ s : Symbol, s.opensMatch k.attributes = true → s.opensMatch attrs = true)

theorem tableFits_of_none {k : Kernel} (h : l.table = none) : l.TableFits k := by
  intro t ht
  rw [h] at ht
  cases ht

theorem TableFits.edited {k k' : Kernel} (h : l.TableFits k) (hk : k.Edited k') :
    l.TableFits k' := by
  intro t ht
  obtain ⟨hle, attrs, hmade, hopens⟩ := h t ht
  refine ⟨Nat.le_trans hle hk.epoch, attrs, hmade, fun heq s hs => ?_⟩
  have hepoch := hk.epoch
  exact hopens (by omega) s (hk.opens (by omega) s hs)

theorem TableFits.remove {k : Kernel} (h : l.TableFits k) (attrs : Symbol → Attributes)
    (lhs : Term) : (l.remove attrs lhs).1.TableFits k := by
  rw [RuleList.remove]
  exact iteInduction (motive := fun x : RuleList × Bool => x.1.TableFits k) (fun _ => h)
    fun _ => tableFits_of_none rfl

/-- A list ready for a lookup has a fitting table. -/
theorem TableFits.ready {k : Kernel} (h : l.TableFits k) (subject : Term) :
    (l.ready k.attributes k.structureEpoch subject).TableFits k := by
  have hnew : ({ l with table := some (l.makeTable k.attributes k.structureEpoch) } :
      RuleList).TableFits k := by
    intro t ht
    cases ht
    exact ⟨Nat.le_refl _, k.attributes, rfl, fun _ _ => id⟩
  unfold RuleList.ready RuleList.prepared
  split
  · split
    · split
      · exact h
      · exact hnew
    · exact hnew
  · exact h

/-- A list that needs a table for a lookup has one for the present epoch when it is ready. -/
theorem exists_table_of_needsTable (attrs : Symbol → Attributes) (epoch : Nat) {subject : Term}
    (h : l.needsTable subject = true) :
    ∃ t, (l.ready attrs epoch subject).table = some t ∧ t.epoch = epoch := by
  rw [RuleList.ready, if_pos h, prepared]
  split
  · rename_i t ht
    by_cases hepoch : t.epoch = epoch
    · rw [if_pos hepoch]
      exact ⟨t, ht, hepoch⟩
    · rw [if_neg hepoch]
      exact ⟨_, rfl, rfl⟩
  · exact ⟨_, rfl, rfl⟩

end RuleList

/-- The table of a list fits in every history. -/
theorem Reached.tableFits {k : Kernel} {l : RuleList} (h : Reached k l) : l.TableFits k := by
  induction h with
  | new config => exact RuleList.tableFits_of_none rfl
  | kernel hchange _ ih => exact ih.edited hchange.edited
  | @insert k l r hr _ ih =>
      refine RuleList.tableFits_of_none ?_
      cases hliteral : r.literal with
      | true => rw [RuleList.insert_literal l hliteral]; rfl
      | false => rw [RuleList.insert_pattern l hliteral]; rfl
  | remove lhs _ ih => exact ih.remove _ lhs
  | clear _ ih => exact RuleList.tableFits_of_none rfl
  | lookup subject _ ih => exact ih.ready subject

end Termwise
