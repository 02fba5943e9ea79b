import Termwise.Proofs.Pattern.Renaming
import Termwise.Proofs.Term.Order
import Termwise.Rule.List

/-!
# Termwise.Proofs.Rule.Tidy

What every change of a rule list preserves (`RuleList.Tidy`):

1. every rule was made from its two sides, under some attributes;
2. the constant rules come in strictly ascending order of their left-hand sides;
3. no two unconditional rules have one left-hand side, as `Rule.sameLhs` has it:
   equal walks, and terms that agree up to a renaming of pattern names.

The third holds across the two parts of a list as well: a pattern rule whose
left-hand side equals that of a constant rule was read under other attributes, and
has another walk.
-/

namespace Termwise

namespace Rule

/-! ## rules as they are made -/

/-- The rule is what its two sides make under some attributes. -/
def Reads (attrs : Symbol → Attributes) (r : Rule) : Prop := r = make attrs r.lhs r.rhs r.kind

/-- The rule is what its two sides make under some attributes. -/
def Made (r : Rule) : Prop := ∃ attrs, r.Reads attrs

variable {attrs : Symbol → Attributes} {r s u : Rule}

theorem reads_make (attrs : Symbol → Attributes) (lhs rhs : Term) (kind : RuleKind) :
    (make attrs lhs rhs kind).Reads attrs := rfl

theorem made_make (attrs : Symbol → Attributes) (lhs rhs : Term) (kind : RuleKind) :
    (make attrs lhs rhs kind).Made := ⟨attrs, rfl⟩

theorem Reads.key (h : r.Reads attrs) : r.key = r.lhs.specificityKey attrs := by rw [h]; rfl

theorem Reads.dispatch (h : r.Reads attrs) :
    r.dispatch = (Pattern.ofTerm r.lhs).dispatchKey attrs := by rw [h]; rfl

theorem Reads.literal (h : r.Reads attrs) :
    r.literal = (!isConditional r.rhs && r.lhs.isLiteral attrs) := by rw [h]; rfl

theorem Reads.names (h : r.Reads attrs) : r.names = r.lhs.patternNames := by rw [h]; rfl

theorem Reads.conditional (h : r.Reads attrs) : r.conditional = isConditional r.rhs := by rw [h]; rfl

/-! ## one left-hand side -/

theorem sameLhs_iff : r.sameLhs s = true ↔
    r.key = s.key ∧ Term.alphaEqual r.names s.names r.lhs s.lhs = true := by
  simp [sameLhs]

theorem sameLhs_symm (h : r.sameLhs s = true) : s.sameLhs r = true := by
  rw [sameLhs_iff] at *
  exact ⟨h.1.symm, Term.alphaEqual_symm _ _ _ _ h.2⟩

theorem sameLhs_trans (h : r.sameLhs s = true) (h' : s.sameLhs u = true) :
    r.sameLhs u = true := by
  rw [sameLhs_iff] at *
  exact ⟨h.1.trans h'.1, Term.alphaEqual_trans _ _ _ _ _ _ h.2 h'.2⟩

/-- A rule of one left-hand side with a constant rule, not conditional itself, is a constant rule
too. -/
theorem literal_of_sameLhs (hr : r.Made) (hs : s.Made) (hliteral : r.literal = true)
    (hconditional : s.conditional = false) (h : r.sameLhs s = true) : s.literal = true := by
  obtain ⟨a, hr⟩ := hr
  obtain ⟨a', hs⟩ := hs
  have hrl : r.lhs.isLiteral a = true := by
    rw [hr.literal, Bool.and_eq_true] at hliteral
    exact hliteral.2
  rw [sameLhs_iff, hr.names, hs.names, hr.key, hs.key] at h
  obtain ⟨hkey, halpha⟩ := h
  rw [Term.patternNames_of_isLiteral hrl] at halpha
  have hequal := Term.beq_of_alphaEqual_nil _ _ _ halpha
  have hsl : s.lhs.isLiteral a = true := by rwa [← Term.isLiteral_congr hequal]
  rw [(Term.specificityKey_eq_constant_iff hrl).mpr hrl] at hkey
  rw [hs.literal, ← hs.conditional, hconditional,
    (Term.specificityKey_eq_constant_iff hsl).mp hkey.symm]
  rfl

/-- Two rules do not stand in each other's way: one of them carries a test, or they have different
left-hand sides. -/
def Apart (r s : Rule) : Prop :=
  r.conditional = false → s.conditional = false → r.sameLhs s = false

theorem Apart.symm (h : r.Apart s) : s.Apart r := by
  intro hs hr
  rw [Bool.eq_false_iff]
  intro hsame
  have hback := sameLhs_symm hsame
  rw [h hr hs] at hback
  exact Bool.noConfusion hback

/-- A rule with the left-hand side of another one stands apart from what that one stands apart
from. -/
theorem Apart.congr (hs : s.conditional = false) (hsame : s.sameLhs r = true) (h : s.Apart u) :
    r.Apart u := by
  intro _ hu
  rw [Bool.eq_false_iff]
  intro hr
  have hsu := sameLhs_trans hsame hr
  rw [h hs hu] at hsu
  exact Bool.noConfusion hsu

end Rule

namespace RuleList

/-! ## tidy lists -/

/-- What every change of a list preserves. -/
structure Tidy (l : RuleList) : Prop where
  /-- Every rule was made from its two sides. -/
  made : ∀ r ∈ l.rules, r.Made
  /-- The constant rules have constant left-hand sides. -/
  literal : ∀ r ∈ l.literals, r.literal = true
  /-- The pattern rules have not, or carry a test. -/
  pattern : ∀ r ∈ l.patterns, r.literal = false
  /-- The constant rules come in the order of their left-hand sides, none of them twice. -/
  ascending : l.literals.Pairwise fun r s => r.lhs.compare s.lhs = .lt
  /-- No two unconditional pattern rules have one left-hand side. -/
  apart : l.patterns.Pairwise Rule.Apart

theorem tidy_empty : empty.Tidy := by
  constructor <;> simp [empty, rules]

/-- Being tidy is about the rules alone. -/
theorem Tidy.congr {l l' : RuleList} (h : l.Tidy) (hliterals : l'.literals = l.literals)
    (hpatterns : l'.patterns = l.patterns) : l'.Tidy := by
  obtain ⟨literals, patterns, _, _⟩ := l'
  cases hliterals
  cases hpatterns
  exact ⟨h.made, h.literal, h.pattern, h.ascending, h.apart⟩

/-! ## constant rules -/

variable {r x : Rule} {rs : List Rule}

/-- The rule that was put among constant rules, with others around it that were there before. -/
theorem insertLiteral_split (r : Rule) (rs : List Rule) :
    ∃ before after, insertLiteral r rs = before ++ r :: after ∧ ∀ x ∈ before ++ after, x ∈ rs := by
  induction rs with
  | nil => exact ⟨[], [], rfl, fun x hx => hx⟩
  | cons s rest ih =>
      rw [insertLiteral]
      split
      · exact ⟨[], rest, rfl, fun x hx => List.mem_cons_of_mem _ hx⟩
      · split
        · exact ⟨[], s :: rest, rfl, fun x hx => hx⟩
        · obtain ⟨before, after, hsplit, hmem⟩ := ih
          refine ⟨s :: before, after, by rw [hsplit, List.cons_append], fun x hx => ?_⟩
          rcases List.mem_cons.mp hx with rfl | hx
          · exact List.mem_cons_self
          · exact List.mem_cons_of_mem _ (hmem x hx)

/-- A member of a list around a rule is the rule or one of those around it. -/
theorem mem_split {before after : List Rule} (h : x ∈ before ++ r :: after) :
    x = r ∨ x ∈ before ++ after := by
  simp only [List.mem_append, List.mem_cons] at h ⊢
  rcases h with h | h | h
  · exact .inr (.inl h)
  · exact .inl h
  · exact .inr (.inr h)

theorem mem_insertLiteral (h : x ∈ insertLiteral r rs) : x = r ∨ x ∈ rs := by
  obtain ⟨before, after, hsplit, hmem⟩ := insertLiteral_split r rs
  rw [hsplit] at h
  exact (mem_split h).imp_right (hmem x)

/-- A rule put among constant rules in ascending order leaves them in ascending order. -/
theorem ascending_insertLiteral (h : rs.Pairwise fun r s => r.lhs.compare s.lhs = .lt) :
    (insertLiteral r rs).Pairwise fun r s => r.lhs.compare s.lhs = .lt := by
  induction rs with
  | nil => simp [insertLiteral]
  | cons s rest ih =>
      obtain ⟨hs, hrest⟩ := List.pairwise_cons.mp h
      rw [insertLiteral]
      by_cases heq : (s.lhs == r.lhs) = true
      · rw [if_pos heq]
        refine List.pairwise_cons.mpr ⟨fun x hx => ?_, hrest⟩
        rw [← Term.compare_congr_left ((Term.beq_iff_strip _ _).mp heq)]
        exact hs x hx
      rw [if_neg heq]
      by_cases hlt : (r.lhs.compare s.lhs == .lt) = true
      · rw [if_pos hlt]
        have hrs : r.lhs.compare s.lhs = .lt := beq_iff_eq.mp hlt
        refine List.pairwise_cons.mpr ⟨fun x hx => ?_, h⟩
        rcases List.mem_cons.mp hx with rfl | hx
        · exact hrs
        · exact (Term.chain_compare _ _ _).lt_lt hrs (hs x hx)
      · rw [if_neg hlt]
        have hsr : s.lhs.compare r.lhs = .lt := by
          rw [Term.beq_iff_strip, ← Term.compare_eq_iff] at heq
          rw [Term.compare_swap r.lhs s.lhs] at hlt
          cases hc : s.lhs.compare r.lhs <;> simp_all
        refine List.pairwise_cons.mpr ⟨fun x hx => ?_, ih hrest⟩
        rcases mem_insertLiteral hx with rfl | hx
        · exact hsr
        · exact hs x hx

/-! ## pattern rules -/

theorem insertPattern_split (r : Rule) (rs : List Rule) :
    ∃ before after, rs = before ++ after ∧ insertPattern r rs = before ++ r :: after := by
  induction rs with
  | nil => exact ⟨[], [], rfl, rfl⟩
  | cons s rest ih =>
      rw [insertPattern]
      split
      · obtain ⟨before, after, rfl, hsplit⟩ := ih
        exact ⟨s :: before, after, rfl, by rw [hsplit, List.cons_append]⟩
      · exact ⟨[], s :: rest, rfl, rfl⟩

/-- Without a rule to replace, every unconditional one has another left-hand side. -/
theorem sameLhs_eq_false_of_replacePattern? (h : replacePattern? r rs = none) :
    ∀ s ∈ rs, s.conditional = false → s.sameLhs r = false := by
  induction rs with
  | nil => simp
  | cons t rest ih =>
      rw [replacePattern?] at h
      split at h
      · cases h
      · rename_i ht
        intro s hs hconditional
        rcases List.mem_cons.mp hs with rfl | hs
        · simpa [hconditional] using ht
        · exact ih (Option.map_eq_none_iff.mp h) s hs hconditional

/-- A rule takes the place of one unconditional rule with the same left-hand side. -/
theorem replacePattern?_eq_some {rs' : List Rule} (h : replacePattern? r rs = some rs') :
    ∃ before s after, rs = before ++ s :: after ∧ rs' = before ++ r :: after ∧
      s.conditional = false ∧ s.sameLhs r = true := by
  induction rs generalizing rs' with
  | nil => cases h
  | cons t rest ih =>
      rw [replacePattern?] at h
      split at h
      · rename_i ht
        cases h
        simp only [Bool.and_eq_true, Bool.not_eq_true'] at ht
        exact ⟨[], t, rest, rfl, rfl, ht⟩
      · obtain ⟨rest', hrest, rfl⟩ := Option.map_eq_some_iff.mp h
        obtain ⟨before, s, after, rfl, rfl, hs⟩ := ih hrest
        exact ⟨t :: before, s, after, rfl, rfl, hs⟩

theorem apart_replacePattern? {rs' : List Rule} (h : replacePattern? r rs = some rs')
    (hrs : rs.Pairwise Rule.Apart) : rs'.Pairwise Rule.Apart := by
  obtain ⟨before, s, after, rfl, rfl, hs, hsame⟩ := replacePattern?_eq_some h
  simp only [List.pairwise_append, List.pairwise_cons, List.mem_cons] at hrs ⊢
  obtain ⟨hbefore, ⟨hafter, hrest⟩, hcross⟩ := hrs
  refine ⟨hbefore, ⟨fun x hx => ?_, hrest⟩, fun x hx y hy => ?_⟩
  · exact Rule.Apart.congr hs hsame (hafter x hx)
  · rcases hy with rfl | hy
    · exact (Rule.Apart.congr hs hsame (hcross x hx s (.inl rfl)).symm).symm
    · exact hcross x hx y (.inr hy)

/-- A rule that replaces none stands apart from all. -/
theorem apart_insertPattern (hr : r.conditional = false → replacePattern? r rs = none)
    (hrs : rs.Pairwise Rule.Apart) : (insertPattern r rs).Pairwise Rule.Apart := by
  obtain ⟨before, after, hrs', hsplit⟩ := insertPattern_split r rs
  rw [hsplit, List.perm_middle.pairwise_iff fun h => h.symm, ← hrs', List.pairwise_cons]
  refine ⟨fun s hs => Rule.Apart.symm fun hsc hrc => ?_, hrs⟩
  exact sameLhs_eq_false_of_replacePattern? (hr hrc) s hs hsc

/-- The pattern rules after one was added. -/
def addPattern (r : Rule) (rs : List Rule) : List Rule :=
  (if r.conditional then none else replacePattern? r rs).getD (insertPattern r rs)

/-- A rule added to pattern rules is put in its place, or, when it carries no test, in the place of
one with the same left-hand side that carries none. -/
theorem addPattern_cases (r : Rule) (rs : List Rule) : addPattern r rs = insertPattern r rs ∨
    ∃ before s after, rs = before ++ s :: after ∧ addPattern r rs = before ++ r :: after ∧
      r.conditional = false ∧ s.conditional = false ∧ s.sameLhs r = true := by
  rw [addPattern]
  cases hr : r.conditional with
  | true => exact .inl rfl
  | false =>
      cases hreplace : replacePattern? r rs with
      | none => exact .inl rfl
      | some rs' =>
          obtain ⟨before, s, after, hrs, rfl, hs, hsame⟩ := replacePattern?_eq_some hreplace
          exact .inr ⟨before, s, after, hrs, rfl, rfl, hs, hsame⟩

/-- The rule that was added to pattern rules, with others around it that were there before. -/
theorem addPattern_split (r : Rule) (rs : List Rule) :
    ∃ before after, addPattern r rs = before ++ r :: after ∧ ∀ x ∈ before ++ after, x ∈ rs := by
  rcases addPattern_cases r rs with hinsert | ⟨before, s, after, rfl, hreplace, -⟩
  · obtain ⟨before, after, rfl, hsplit⟩ := insertPattern_split r rs
    exact ⟨before, after, hinsert.trans hsplit, fun x hx => hx⟩
  · refine ⟨before, after, hreplace, fun x hx => ?_⟩
    exact List.mem_append.mpr ((List.mem_append.mp hx).imp_right (List.mem_cons_of_mem _))

theorem mem_addPattern (h : x ∈ addPattern r rs) : x = r ∨ x ∈ rs := by
  obtain ⟨before, after, hsplit, hmem⟩ := addPattern_split r rs
  rw [hsplit] at h
  exact (mem_split h).imp_right (hmem x)

theorem apart_addPattern (h : rs.Pairwise Rule.Apart) : (addPattern r rs).Pairwise Rule.Apart := by
  rw [addPattern]
  by_cases hr : r.conditional = true
  · rw [if_pos hr]
    exact apart_insertPattern (fun hf => by simp [hr] at hf) h
  rw [if_neg hr]
  cases hrep : replacePattern? r rs with
  | none => exact apart_insertPattern (fun _ => hrep) h
  | some rs' => exact apart_replacePattern? hrep h

/-! ## changes -/

variable {l : RuleList}

theorem insert_literal (l : RuleList) (h : r.literal = true) :
    l.insert r = { l.touch with literals := insertLiteral r l.literals } := by
  rw [insert]
  exact if_pos h

theorem insert_pattern (l : RuleList) (h : r.literal = false) :
    l.insert r = { l.touch with patterns := addPattern r l.patterns } := by
  rw [insert]
  exact if_neg (by simp [h])

/-- The rule that was added to a list, with others around it that were there before. -/
theorem insert_split (l : RuleList) (r : Rule) :
    ∃ before after, (l.insert r).rules = before ++ r :: after ∧
      ∀ x ∈ before ++ after, x ∈ l.rules := by
  cases h : r.literal with
  | true =>
      obtain ⟨before, after, hsplit, hmem⟩ := insertLiteral_split r l.literals
      refine ⟨before, after ++ l.patterns, ?_, fun x hx => ?_⟩
      · rw [insert_literal l h, rules, hsplit]
        simp [touch]
      · rw [← List.append_assoc, List.mem_append] at hx
        exact List.mem_append.mpr (hx.imp_left (hmem x))
  | false =>
      obtain ⟨before, after, hsplit, hmem⟩ := addPattern_split r l.patterns
      refine ⟨l.literals ++ before, after, ?_, fun x hx => ?_⟩
      · rw [insert_pattern l h, rules, hsplit]
        simp [touch]
      · rw [List.append_assoc, List.mem_append] at hx
        exact List.mem_append.mpr (hx.imp_right (hmem x))

theorem mem_insertLiteral_or (hx : x ∈ rs) :
    x ∈ insertLiteral r rs ∨ (x.lhs == r.lhs) = true := by
  induction rs with
  | nil => cases hx
  | cons s rest ih =>
      rw [insertLiteral]
      rcases List.mem_cons.mp hx with rfl | hx'
      · split
        · exact .inr ‹_›
        · split
          · exact .inl (List.mem_cons_of_mem _ List.mem_cons_self)
          · exact .inl List.mem_cons_self
      · split
        · exact .inl (List.mem_cons_of_mem _ hx')
        · split
          · exact .inl (List.mem_cons_of_mem _ hx)
          · exact (ih hx').imp_left (List.mem_cons_of_mem _)

theorem mem_insertPattern (hx : x ∈ rs) : x ∈ insertPattern r rs := by
  obtain ⟨before, after, rfl, hsplit⟩ := insertPattern_split r rs
  rw [hsplit]
  exact List.mem_append.mpr ((List.mem_append.mp hx).imp_right (List.mem_cons_of_mem _))

theorem mem_addPattern_or (hx : x ∈ rs) : x ∈ addPattern r rs ∨ x.sameLhs r = true := by
  rcases addPattern_cases r rs with hinsert | ⟨before, s, after, rfl, hreplace, -, -, hsame⟩
  · exact .inl (hinsert ▸ mem_insertPattern hx)
  · rw [hreplace]
    rcases mem_split hx with rfl | hx
    · exact .inr hsame
    · exact .inl (List.mem_append.mpr
        ((List.mem_append.mp hx).imp_right (List.mem_cons_of_mem _)))

/-- A rule that gives way to a new one has the same left-hand side, as `Rule.sameLhs` has it or as
a constant. -/
theorem mem_insert_or (hx : x ∈ l.rules) :
    x ∈ (l.insert r).rules ∨ x.sameLhs r = true ∨ (x.lhs == r.lhs) = true := by
  have hmem := List.mem_append.mp hx
  cases h : r.literal with
  | true =>
      rw [insert_literal l h]
      rcases hmem with hx | hx
      · exact (mem_insertLiteral_or hx).imp (List.mem_append_left _) .inr
      · exact .inl (List.mem_append_right _ hx)
  | false =>
      rw [insert_pattern l h]
      rcases hmem with hx | hx
      · exact .inl (List.mem_append_left _ hx)
      · exact (mem_addPattern_or hx).imp (List.mem_append_right _) .inl

/-- Adding a rule keeps a list tidy. -/
theorem Tidy.insert (h : l.Tidy) (hr : r.Made) : (l.insert r).Tidy := by
  cases hliteral : r.literal with
  | true =>
      rw [insert_literal l hliteral]
      constructor
      case made =>
        intro x hx
        rcases List.mem_append.mp hx with hx | hx
        · rcases mem_insertLiteral hx with rfl | hx
          · exact hr
          · exact h.made x (List.mem_append_left _ hx)
        · exact h.made x (List.mem_append_right _ hx)
      case literal =>
        intro x hx
        rcases mem_insertLiteral hx with rfl | hx
        · exact hliteral
        · exact h.literal x hx
      case pattern => exact h.pattern
      case ascending => exact ascending_insertLiteral h.ascending
      case apart => exact h.apart
  | false =>
      rw [insert_pattern l hliteral]
      constructor
      case made =>
        intro x hx
        rcases List.mem_append.mp hx with hx | hx
        · exact h.made x (List.mem_append_left _ hx)
        · rcases mem_addPattern hx with rfl | hx
          · exact hr
          · exact h.made x (List.mem_append_right _ hx)
      case literal => exact h.literal
      case pattern =>
        intro x hx
        rcases mem_addPattern hx with rfl | hx
        · exact hliteral
        · exact h.pattern x hx
      case ascending => exact h.ascending
      case apart => exact apart_addPattern h.apart

/-- A list with rules left out of either part. -/
theorem Tidy.filter (h : l.Tidy) (p q : Rule → Bool) (generation : Nat)
    (table : Option DispatchTable) :
    (RuleList.mk (l.literals.filter p) (l.patterns.filter q) generation table).Tidy where
  made x hx := by
    rcases List.mem_append.mp hx with hx | hx
    · exact h.made x (List.mem_append_left _ (List.mem_filter.mp hx).1)
    · exact h.made x (List.mem_append_right _ (List.mem_filter.mp hx).1)
  literal x hx := h.literal x (List.mem_filter.mp hx).1
  pattern x hx := h.pattern x (List.mem_filter.mp hx).1
  ascending := h.ascending.filter p
  apart := h.apart.filter q

/-- What is left after the rules with a left-hand side were removed. -/
theorem rules_remove (l : RuleList) (attrs : Symbol → Attributes) (lhs : Term) :
    (l.remove attrs lhs).1.literals = l.literals.filter (fun r => !(r.lhs == lhs)) ∧
      (l.remove attrs lhs).1.patterns = l.patterns.filter fun r =>
        !(r.key == lhs.specificityKey attrs &&
          Term.alphaEqual r.names lhs.patternNames r.lhs lhs) := by
  have hl := List.length_filter_le (fun r : Rule => !(r.lhs == lhs)) l.literals
  have hp := List.length_filter_le (fun r : Rule => !(r.key == lhs.specificityKey attrs &&
    Term.alphaEqual r.names lhs.patternNames r.lhs lhs)) l.patterns
  rw [remove]
  dsimp only [size]
  refine iteInduction (motive := fun x : RuleList × Bool => x.1.literals = _ ∧ x.1.patterns = _)
    (fun hsize => ?_) fun _ => ⟨rfl, rfl⟩
  have hall := List.length_filter_eq_length_iff.mp (Nat.le_antisymm hl (by omega))
  have hall' := List.length_filter_eq_length_iff.mp (Nat.le_antisymm hp (by omega))
  exact ⟨(List.filter_eq_self.mpr hall).symm, (List.filter_eq_self.mpr hall').symm⟩

/-- Removing the rules with a left-hand side keeps a list tidy. -/
theorem Tidy.remove (h : l.Tidy) (attrs : Symbol → Attributes) (lhs : Term) :
    (l.remove attrs lhs).1.Tidy := by
  obtain ⟨hliterals, hpatterns⟩ := rules_remove l attrs lhs
  have hfilter := h.filter (fun r => !(r.lhs == lhs)) (fun r =>
    !(r.key == lhs.specificityKey attrs && Term.alphaEqual r.names lhs.patternNames r.lhs lhs))
    (l.remove attrs lhs).1.generation (l.remove attrs lhs).1.table
  rwa [← hliterals, ← hpatterns] at hfilter

theorem tidy_clear (l : RuleList) : l.clear.Tidy := by
  constructor <;> simp [clear, rules]

/-! ## what tidy lists are like -/

theorem Tidy.names_of_literal (h : l.Tidy) (hr : r ∈ l.literals) : r.names = [] := by
  obtain ⟨attrs, hreads⟩ := h.made r (List.mem_append_left _ hr)
  have hliteral := h.literal r hr
  rw [hreads.literal, Bool.and_eq_true] at hliteral
  rw [hreads.names, Term.patternNames_of_isLiteral hliteral.2]

/-- No two unconditional rules of a tidy list have one left-hand side. -/
theorem Tidy.apart_rules (h : l.Tidy) : l.rules.Pairwise Rule.Apart := by
  refine List.pairwise_append.mpr ⟨?_, h.apart, fun r hr s hs _ hsc => ?_⟩
  · refine h.ascending.imp_of_mem fun {r s} hr hs hlt _ _ => ?_
    rw [Bool.eq_false_iff]
    intro hsame
    rw [Rule.sameLhs_iff, h.names_of_literal hr] at hsame
    have hequal := Term.beq_of_alphaEqual_nil _ _ _ hsame.2
    rw [(Term.compare_eq_iff _ _).mpr ((Term.beq_iff_strip _ _).mp hequal)] at hlt
    cases hlt
  · rw [Bool.eq_false_iff]
    intro hsame
    have hliteral := Rule.literal_of_sameLhs (h.made r (List.mem_append_left _ hr))
      (h.made s (List.mem_append_right _ hs)) (h.literal r hr) hsc hsame
    rw [h.pattern s hs] at hliteral
    cases hliteral

/-- After the rules with a left-hand side were removed, every rule left that agrees with it up to a
renaming of pattern names has another walk. -/
theorem Tidy.key_ne_of_mem_remove (h : l.Tidy) {attrs : Symbol → Attributes} {lhs : Term}
    (hr : r ∈ (l.remove attrs lhs).1.rules)
    (halpha : Term.alphaEqual r.names lhs.patternNames r.lhs lhs = true) :
    r.key ≠ lhs.specificityKey attrs := by
  obtain ⟨hliterals, hpatterns⟩ := rules_remove l attrs lhs
  intro hkey
  rw [rules, hliterals, hpatterns, List.mem_append, List.mem_filter, List.mem_filter] at hr
  rcases hr with ⟨hr, hne⟩ | ⟨-, hne⟩
  · rw [h.names_of_literal hr] at halpha
    rw [Term.beq_of_alphaEqual_nil _ _ _ halpha] at hne
    cases hne
  · rw [hkey, halpha, beq_self_eq_true] at hne
    cases hne

end RuleList

end Termwise
