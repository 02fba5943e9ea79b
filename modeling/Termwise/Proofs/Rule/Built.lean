import Termwise.Proofs.Rule.Table

/-!
# Termwise.Proofs.Rule.Built

Rule lists that are built while the attributes of symbols stand still (`RuleList.Built`).  All
their rules read as they did when they were made, their pattern rules are sorted by their
walks, and their dispatch tables have nothing to read again (`RuleList.Fresh`); so a lookup
without a constant rule goes through the pattern rules that the key of the subject lets
apply, in their order (`Fresh.candidates_ready`).

What the order of walks is for: a rule is put behind all others with its walk.
-/

namespace Termwise

/-! ## the order of walks -/

namespace SpecificityKey

theorem compare_swap (a b : SpecificityKey) : compare a b = (compare b a).swap := by
  induction a generalizing b with
  | nil => cases b <;> rfl
  | cons x xs ih =>
      cases b with
      | nil => rfl
      | cons y ys =>
          rw [compare, compare, Ordering.swap_then, ← ih ys, ← Std.OrientedOrd.eq_swap]

theorem chain_compare (a b c : SpecificityKey) :
    Chain (compare a b) (compare b c) (compare a c) := by
  induction a generalizing b c with
  | nil => cases b <;> cases c <;> constructor <;> simp [compare]
  | cons x xs ih =>
      cases b with
      | nil => cases c <;> constructor <;> simp [compare]
      | cons y ys =>
          cases c with
          | nil => constructor <;> simp [compare]
          | cons z zs => exact (Chain.of_compare x y z).andThen fun _ _ => ih ys zs

theorem compare_self (a : SpecificityKey) : compare a a = .eq := by
  induction a with
  | nil => rfl
  | cons x xs ih => rw [compare, ih, Std.ReflOrd.compare_self, Ordering.then_eq]

/-- Walks that no order tells apart are one walk. -/
theorem compare_eq_iff (a b : SpecificityKey) : compare a b = .eq ↔ a = b := by
  induction a generalizing b with
  | nil => cases b <;> simp [compare]
  | cons x xs ih =>
      cases b with
      | nil => simp [compare]
      | cons y ys =>
          rw [compare, Ordering.then_eq_eq, ih, Nat.compare_eq_eq, List.cons.injEq]

end SpecificityKey

namespace RuleList

variable {attrs : Symbol → Attributes} {l : RuleList} {r : Rule} {rs before after : List Rule}

/-! ## sorted rules -/

/-- No rule comes behind one that is less specific. -/
def Sorted (rs : List Rule) : Prop :=
  rs.Pairwise fun r s => SpecificityKey.compare r.key s.key ≠ .gt

/-- A rule is put behind all rules that are at least as specific. -/
theorem insertPattern_append (h : ∀ s ∈ before, SpecificityKey.compare s.key r.key ≠ .gt) :
    insertPattern r (before ++ after) = before ++ insertPattern r after := by
  induction before with
  | nil => rfl
  | cons s before ih =>
      obtain ⟨hs, hbefore⟩ := List.forall_mem_cons.mp h
      rw [List.cons_append, insertPattern, if_pos (bne_iff_ne.mpr hs), ih hbefore, List.cons_append]

theorem sorted_insertPattern (h : Sorted rs) : Sorted (insertPattern r rs) := by
  induction rs with
  | nil => exact List.pairwise_singleton _ _
  | cons s rest ih =>
      obtain ⟨hs, hrest⟩ := List.pairwise_cons.mp h
      rw [insertPattern]
      split
      · rename_i hle
        refine List.pairwise_cons.mpr ⟨fun x hx => ?_, ih hrest⟩
        obtain ⟨before, after, rfl, hsplit⟩ := insertPattern_split r rest
        rw [hsplit] at hx
        rcases mem_split hx with rfl | hx
        · exact bne_iff_ne.mp hle
        · exact hs x hx
      · rename_i hgt
        have hrs : SpecificityKey.compare r.key s.key ≠ .gt := by
          rw [SpecificityKey.compare_swap]
          cases hc : SpecificityKey.compare s.key r.key <;> simp_all
        refine List.pairwise_cons.mpr ⟨fun x hx => ?_, h⟩
        rcases List.mem_cons.mp hx with rfl | hx
        · exact hrs
        · exact (SpecificityKey.chain_compare _ _ _).ne_gt hrs (hs x hx)

/-- A rule with the same walk may take the place of another. -/
theorem Sorted.replace {s : Rule} (h : Sorted (before ++ s :: after)) (hkey : s.key = r.key) :
    Sorted (before ++ r :: after) := by
  have hmap : ∀ rs : List Rule, Sorted rs ↔ (rs.map Rule.key).Pairwise fun a b =>
      SpecificityKey.compare a b ≠ .gt := fun rs => by rw [Sorted, List.pairwise_map]
  rw [hmap, List.map_append, List.map_cons] at h ⊢
  rwa [← hkey]

theorem sorted_addPattern (h : Sorted rs) : Sorted (addPattern r rs) := by
  rcases addPattern_cases r rs with hinsert | ⟨before, s, after, rfl, hreplace, -, -, hsame⟩
  · exact hinsert ▸ sorted_insertPattern h
  · exact hreplace ▸ h.replace (Rule.sameLhs_iff.mp hsame).1

/-! ## histories with fixed attributes -/

/-- A rule list that a history leads to in which symbols have the given attributes all along. -/
inductive Built (attrs : Symbol → Attributes) : RuleList → Prop
  | empty : Built attrs .empty
  /-- A rule is added. -/
  | insert {l : RuleList} (lhs rhs : Term) (kind : RuleKind) :
      Built attrs l → Built attrs (l.insert (.make attrs lhs rhs kind))
  /-- The rules with a left-hand side are removed. -/
  | remove {l : RuleList} (lhs : Term) : Built attrs l → Built attrs (l.remove attrs lhs).1
  /-- All rules are removed. -/
  | clear {l : RuleList} : Built attrs l → Built attrs l.clear
  /-- The list is copied. -/
  | copy {l : RuleList} : Built attrs l → Built attrs l.copy
  /-- A subject is looked up, in some structure epoch. -/
  | lookup {l : RuleList} (epoch : Nat) (subject : Term) :
      Built attrs l → Built attrs (l.ready attrs epoch subject)

/-- What a list is like whose rules and table were made under the given attributes. -/
structure Fresh (attrs : Symbol → Attributes) (l : RuleList) : Prop where
  tidy : l.Tidy
  reads : ∀ r ∈ l.rules, r.Reads attrs
  sorted : Sorted l.patterns
  table : ∀ t, l.table = some t → t = l.makeTable attrs t.epoch

theorem Fresh.insert (h : l.Fresh attrs) (hr : r.Reads attrs) : (l.insert r).Fresh attrs where
  tidy := h.tidy.insert ⟨attrs, hr⟩
  reads x hx := by
    obtain ⟨before, after, hsplit, hmem⟩ := insert_split l r
    rw [hsplit] at hx
    rcases mem_split hx with rfl | hx
    · exact hr
    · exact h.reads x (hmem x hx)
  sorted := by
    cases hliteral : r.literal with
    | true => exact insert_literal l hliteral ▸ h.sorted
    | false => exact insert_pattern l hliteral ▸ sorted_addPattern h.sorted
  table t ht := by
    cases hliteral : r.literal with
    | true =>
        rw [insert_literal l hliteral] at ht
        cases ht
    | false =>
        rw [insert_pattern l hliteral] at ht
        cases ht

theorem Fresh.remove (h : l.Fresh attrs) (lhs : Term) : (l.remove attrs lhs).1.Fresh attrs where
  tidy := h.tidy.remove attrs lhs
  reads x hx := by
    obtain ⟨hliterals, hpatterns⟩ := rules_remove l attrs lhs
    rw [rules, hliterals, hpatterns, List.mem_append, List.mem_filter, List.mem_filter] at hx
    exact h.reads x (List.mem_append.mpr (hx.imp And.left And.left))
  sorted := (rules_remove l attrs lhs).2 ▸ h.sorted.filter _
  table t := by
    rw [RuleList.remove]
    refine iteInduction (motive := fun x : RuleList × Bool => x.1.table = some t →
      t = x.1.makeTable attrs t.epoch) (fun _ => h.table t) fun _ ht => ?_
    cases ht

/-- Looking something up makes a table under the present attributes at most. -/
theorem Fresh.ready (h : l.Fresh attrs) (epoch : Nat) (subject : Term) :
    (l.ready attrs epoch subject).Fresh attrs := by
  have hnew : ({ l with table := some (l.makeTable attrs epoch) } : RuleList).Fresh attrs :=
    ⟨h.tidy.congr rfl rfl, h.reads, h.sorted, fun t ht => by cases ht; rfl⟩
  unfold RuleList.ready RuleList.prepared
  split
  · split
    · split
      · exact h
      · exact hnew
    · exact hnew
  · exact h

theorem Built.fresh (h : l.Built attrs) : l.Fresh attrs := by
  induction h with
  | empty => exact ⟨tidy_empty, nofun, List.Pairwise.nil, nofun⟩
  | insert lhs rhs kind _ ih => exact ih.insert (Rule.reads_make attrs lhs rhs kind)
  | remove lhs _ ih => exact ih.remove lhs
  | clear _ ih => exact ⟨tidy_clear _, nofun, List.Pairwise.nil, nofun⟩
  | copy _ ih => exact ⟨ih.tidy.congr rfl rfl, ih.reads, ih.sorted, nofun⟩
  | lookup epoch subject _ ih => exact ih.ready epoch subject

/-! ## lookups -/

/-- No constant rule has to be read again. -/
theorem Fresh.isLiteral (h : l.Fresh attrs) (hr : r ∈ l.literals) :
    r.lhs.isLiteral attrs = true := by
  have hliteral := h.tidy.literal r hr
  rw [(h.reads r (List.mem_append_left _ hr)).literal, Bool.and_eq_true] at hliteral
  exact hliteral.2

theorem Fresh.demoted_eq_nil (h : l.Fresh attrs) :
    (l.literals.filter fun r => !r.lhs.isLiteral attrs) = [] :=
  List.filter_eq_nil_iff.mpr fun r hr => by simp [h.isLiteral hr]

/-- Without a constant rule for the subject, a lookup tries the pattern rules that the key of the
subject lets apply. -/
theorem Fresh.candidates_ready (h : l.Fresh attrs) (epoch : Nat) {subject : Term}
    (hconstant : l.constant? subject = none) :
    (l.ready attrs epoch subject).candidates subject =
      l.patterns.filter (·.mayMatch subject.key) := by
  obtain ⟨hliterals, hpatterns⟩ := l.rules_ready attrs epoch subject
  cases htable : (l.ready attrs epoch subject).table with
  | some t =>
      rw [candidates_of_table htable ((h.ready epoch subject).table t htable), hliterals, hpatterns,
        h.demoted_eq_nil]
      rfl
  | none =>
      -- a list without a table was not in need of one, and has no rules
      have hneeds : l.needsTable subject = false := Bool.eq_false_iff.mpr fun hneeds => by
        obtain ⟨t, ht, -⟩ := exists_table_of_needsTable attrs epoch hneeds
        rw [htable] at ht
        cases ht
      have hempty : l.patterns = [] := by
        simp only [needsTable, hconstant, Option.isNone_none, Bool.true_and, Bool.not_eq_false',
          isEmpty, Bool.and_eq_true, List.isEmpty_iff] at hneeds
        exact hneeds.2
      rw [candidates, htable, hpatterns, hempty]
      rfl

end RuleList

end Termwise
