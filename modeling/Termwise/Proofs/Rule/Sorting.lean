import Mathlib.Data.List.Nodup
import Termwise.Proofs.Rule.Built

/-!
# Termwise.Proofs.Rule.Sorting

Rules in order of specificity, those with one walk in the order in which they came
(`RuleList.bySpecificity`).  A stable sort is known by what it does to the rules of each
walk: it leaves them as they are (`eq_of_sorted`).  So a rule that is put behind all of
its walk, in the place of another one of its walk, or left out, is so in the order of
walks as it is in the order of insertion (`bySpecificity_supersede`,
`bySpecificity_filter`).
-/

namespace Termwise

/-! ## rules that give way -/

namespace Rule

variable {attrs : Symbol → Attributes} {lhs : Term} {r s : Rule}

/-- Whether a rule gives way to a new one: neither carries a test, and they have one left-hand
side. -/
def givesWay (s r : Rule) : Bool := !r.conditional && !s.conditional && s.sameLhs r

/-- Whether the rule has a left-hand side, up to a renaming of pattern names. -/
def hasLhs (attrs : Symbol → Attributes) (lhs : Term) (r : Rule) : Bool :=
  r.key == lhs.specificityKey attrs && Term.alphaEqual r.names lhs.patternNames r.lhs lhs

theorem givesWay_iff :
    s.givesWay r = true ↔ r.conditional = false ∧ s.conditional = false ∧ s.sameLhs r = true := by
  simp [givesWay, and_assoc]

theorem key_eq_of_givesWay (h : s.givesWay r = true) : s.key = r.key :=
  (sameLhs_iff.mp (givesWay_iff.mp h).2.2).1

/-- A rule gives way to one of its own part of a list only. -/
theorem literal_eq_of_givesWay (hs : s.Made) (hr : r.Made) (h : s.givesWay r = true) :
    s.literal = r.literal := by
  obtain ⟨hrc, hsc, hsame⟩ := givesWay_iff.mp h
  rw [Bool.eq_iff_iff]
  exact ⟨fun hliteral => literal_of_sameLhs hs hr hliteral hrc hsame,
    fun hliteral => literal_of_sameLhs hr hs hliteral hsc (sameLhs_symm hsame)⟩

/-- What a constant rule is like. -/
theorem Reads.of_literal (h : r.Reads attrs) (hliteral : r.literal = true) :
    r.conditional = false ∧ r.lhs.isLiteral attrs = true ∧ r.names = [] ∧
      r.key = .leaf .constant := by
  rw [h.literal, Bool.and_eq_true, Bool.not_eq_true', ← h.conditional] at hliteral
  exact ⟨hliteral.1, hliteral.2, by rw [h.names, Term.patternNames_of_isLiteral hliteral.2],
    by rw [h.key, (Term.specificityKey_eq_constant_iff hliteral.2).mpr hliteral.2]⟩

/-- A constant rule has the left-hand sides that are equal to its own. -/
theorem hasLhs_of_literal (h : r.Reads attrs) (hliteral : r.literal = true) (lhs : Term) :
    r.hasLhs attrs lhs = (r.lhs == lhs) := by
  obtain ⟨-, hconstant, hnames, hkey⟩ := h.of_literal hliteral
  rw [hasLhs, hnames, hkey, Bool.eq_iff_iff, Bool.and_eq_true, beq_iff_eq]
  refine ⟨fun ⟨_, halpha⟩ => Term.beq_of_alphaEqual_nil _ _ _ halpha, fun hequal => ?_⟩
  have hlhs : lhs.isLiteral attrs = true := by rwa [← Term.isLiteral_congr hequal]
  rw [Term.patternNames_of_isLiteral hlhs]
  exact ⟨((Term.specificityKey_eq_constant_iff hlhs).mpr hlhs).symm,
    (Term.alphaEqual_nil _ _).trans hequal⟩

/-- A constant rule gives way to one with an equal left-hand side. -/
theorem givesWay_of_literal (hs : s.Reads attrs) (hr : r.Reads attrs) (hsl : s.literal = true)
    (hrl : r.literal = true) : s.givesWay r = (s.lhs == r.lhs) := by
  have hsame : s.sameLhs r = s.hasLhs attrs r.lhs := by rw [sameLhs, hasLhs, hr.key, hr.names]
  rw [givesWay, (hs.of_literal hsl).1, (hr.of_literal hrl).1, hsame, hasLhs_of_literal hs hsl]
  rfl

end Rule

namespace RuleList

variable {attrs : Symbol → Attributes} {l : RuleList} {r s : Rule} {rs log : List Rule}
  {p : Rule → Bool}

/-! ## stable sorting -/

/-- Whether a rule is at least as specific as another one. -/
def asSpecific (r s : Rule) : Bool := SpecificityKey.compare r.key s.key != .gt

theorem asSpecific_trans (r s u : Rule) (hrs : asSpecific r s = true)
    (hsu : asSpecific s u = true) : asSpecific r u = true := by
  rw [asSpecific, bne_iff_ne] at *
  exact (SpecificityKey.chain_compare _ _ _).ne_gt hrs hsu

theorem asSpecific_total (r s : Rule) : (asSpecific r s || asSpecific s r) = true := by
  rw [asSpecific, asSpecific, SpecificityKey.compare_swap s.key]
  cases SpecificityKey.compare r.key s.key <;> rfl

/-- Rules that are at least as specific as one another have one walk. -/
theorem key_eq_of_asSpecific (hrs : asSpecific r s = true) (hsr : asSpecific s r = true) :
    r.key = s.key := by
  rw [asSpecific, bne_iff_ne] at hrs hsr
  rw [SpecificityKey.compare_swap] at hsr
  rw [← SpecificityKey.compare_eq_iff]
  cases hc : SpecificityKey.compare r.key s.key <;> simp_all

theorem sorted_iff : Sorted rs ↔ rs.Pairwise fun r s => asSpecific r s = true := by
  simp only [Sorted, asSpecific, bne_iff_ne]

/-- Rules in the order of their walks, those with one walk in the order in which they came. -/
def bySpecificity (rs : List Rule) : List Rule := rs.mergeSort asSpecific

theorem bySpecificity_perm (rs : List Rule) : (bySpecificity rs).Perm rs :=
  List.mergeSort_perm rs asSpecific

theorem sorted_bySpecificity (rs : List Rule) : Sorted (bySpecificity rs) :=
  sorted_iff.mpr (List.pairwise_mergeSort asSpecific_trans asSpecific_total rs)

/-- Sorting leaves the rules of each walk as they are. -/
theorem filter_bySpecificity (key : SpecificityKey) (rs : List Rule) :
    (bySpecificity rs).filter (·.key == key) = rs.filter (·.key == key) := by
  have hperm := (bySpecificity_perm rs).filter (·.key == key)
  have hsorted : (rs.filter (·.key == key)).Pairwise fun r s => asSpecific r s = true := by
    refine List.pairwise_filter.mpr (List.pairwise_of_forall fun r s hr hs => ?_)
    rw [asSpecific, beq_iff_eq.mp hr, beq_iff_eq.mp hs, SpecificityKey.compare_self]
    rfl
  have hsub := (List.sublist_mergeSort asSpecific_trans asSpecific_total hsorted
    List.filter_sublist).filter fun r : Rule => r.key == key
  rw [List.filter_filter, funext fun r => Bool.and_self _] at hsub
  exact (hsub.eq_of_length hperm.length_eq.symm).symm

/-- Sorted rules are known by the rules of each walk, in order. -/
theorem eq_of_sorted {rs rs' : List Rule} (h : Sorted rs) (h' : Sorted rs')
    (hfilter : ∀ key, rs.filter (·.key == key) = rs'.filter (·.key == key)) : rs = rs' := by
  induction rs generalizing rs' with
  | nil =>
      cases rs' with
      | nil => rfl
      | cons s rs' => simpa using hfilter s.key
  | cons r rs ih =>
      cases rs' with
      | nil => simpa using hfilter r.key
      | cons s rs' =>
          -- each of the two first rules is in the other list as well, so they have one walk
          have hfirst : ∀ {r s : Rule} {rs rs' : List Rule}, Sorted (r :: rs) →
              (r :: rs).filter (·.key == s.key) = (s :: rs').filter (·.key == s.key) →
              asSpecific r s = true := by
            intro r s rs rs' hsorted hsame
            have hs : s ∈ (r :: rs).filter (·.key == s.key) := by rw [hsame]; simp
            rcases List.mem_cons.mp (List.mem_filter.mp hs).1 with rfl | hs
            · simp [asSpecific, SpecificityKey.compare_self]
            · exact (List.pairwise_cons.mp (sorted_iff.mp hsorted)).1 s hs
          have hkey : r.key = s.key :=
            key_eq_of_asSpecific (hfirst h (hfilter s.key)) (hfirst h' (hfilter r.key).symm)
          have hhead := hfilter r.key
          rw [List.filter_cons_of_pos (by simp), List.filter_cons_of_pos (by simp [hkey])] at hhead
          obtain ⟨rfl, -⟩ := List.cons.inj hhead
          rw [ih h.of_cons h'.of_cons fun key => ?_]
          have hall := hfilter key
          by_cases hr : (r.key == key) = true
          · rw [List.filter_cons_of_pos (by exact hr), List.filter_cons_of_pos (by exact hr)] at hall
            exact (List.cons.inj hall).2
          · rwa [List.filter_cons_of_neg (by exact hr), List.filter_cons_of_neg (by exact hr)] at hall

theorem filter_comm (p q : Rule → Bool) (rs : List Rule) :
    (rs.filter p).filter q = (rs.filter q).filter p := by
  rw [List.filter_filter, List.filter_filter, funext fun r : Rule => Bool.and_comm _ _]

theorem bySpecificity_filter (p : Rule → Bool) (rs : List Rule) :
    bySpecificity (rs.filter p) = (bySpecificity rs).filter p := by
  refine eq_of_sorted (sorted_bySpecificity _) ((sorted_bySpecificity rs).filter p) fun key => ?_
  rw [filter_bySpecificity, filter_comm, filter_comm p, filter_bySpecificity]

/-- Sorting rules with different walks gives one order, whatever order they came in. -/
theorem bySpecificity_eq_of_perm {rs rs' : List Rule} (h : rs.Perm rs')
    (hkeys : rs.Pairwise fun r s => r.key ≠ s.key) : bySpecificity rs = bySpecificity rs' := by
  refine ((bySpecificity_perm rs).trans (h.trans (bySpecificity_perm rs').symm)).eq_of_pairwise
    (fun r s hr hs hrs hsr => ?_) (sorted_iff.mp (sorted_bySpecificity rs))
    (sorted_iff.mp (sorted_bySpecificity rs'))
  have hmem := (bySpecificity_perm rs).mem_iff.mp hr
  have hmem' := h.mem_iff.mpr ((bySpecificity_perm rs').mem_iff.mp hs)
  exact List.inj_on_of_nodup_map (List.pairwise_map.mpr hkeys) hmem hmem'
    (key_eq_of_asSpecific hrs hsr)

/-! ## what is left of a history -/

/-- Put a new rule in the place of one that gives way to it, or else behind all others. -/
def supersede (r : Rule) : List Rule → List Rule
  | [] => [r]
  | s :: rest => if s.givesWay r then r :: rest else s :: supersede r rest

theorem supersede_eq_append (h : ∀ s ∈ rs, s.givesWay r = false) : supersede r rs = rs ++ [r] := by
  induction rs with
  | nil => rfl
  | cons s rest ih =>
      obtain ⟨hs, hrest⟩ := List.forall_mem_cons.mp h
      rw [supersede, hs, if_neg Bool.false_ne_true, ih hrest, List.cons_append]

/-- What gives way is of the same sort as what it gives way to, so a new rule takes a place among
the rules of its sort. -/
theorem filter_supersede (h : ∀ s ∈ rs, s.givesWay r = true → p s = p r) :
    (supersede r rs).filter p = if p r then supersede r (rs.filter p) else rs.filter p := by
  induction rs with
  | nil => cases hr : p r <;> simp [supersede, hr]
  | cons s rest ih =>
      obtain ⟨hs, hrest⟩ := List.forall_mem_cons.mp h
      rw [supersede]
      cases hway : s.givesWay r with
      | true =>
          have hsort := hs hway
          cases hr : p r <;> simp [supersede, hsort, hr, hway]
      | false =>
          rw [if_neg Bool.false_ne_true, List.filter_cons, ih hrest, List.filter_cons]
          cases hr : p r <;> cases hps : p s <;> simp [supersede, hway]

theorem supersede_perm (h : rs.Pairwise fun s u => s.givesWay r = true → u.givesWay r = false) :
    (supersede r rs).Perm (r :: rs.filter fun s => !s.givesWay r) := by
  induction rs with
  | nil => exact .refl _
  | cons s rest ih =>
      obtain ⟨hs, hrest⟩ := List.pairwise_cons.mp h
      rw [supersede]
      cases hway : s.givesWay r with
      | true =>
          have hkept : rest.filter (fun s => !s.givesWay r) = rest :=
            List.filter_eq_self.mpr fun u hu => by rw [hs u hu hway]; rfl
          rw [if_pos rfl, List.filter_cons_of_neg (by simp [hway]), hkept]
      | false =>
          rw [if_neg Bool.false_ne_true, List.filter_cons_of_pos (by simp [hway])]
          exact ((ih hrest).cons s).trans (.swap r s _)

/-! ## pattern rules -/

/-- A rule is put between those that are at least as specific and the others. -/
theorem exists_insertPattern_split (r : Rule) (h : Sorted rs) : ∃ before after,
    rs = before ++ after ∧ insertPattern r rs = before ++ r :: after ∧
      (∀ s ∈ before, asSpecific s r = true) ∧ ∀ s ∈ after, asSpecific s r = false := by
  induction rs with
  | nil => exact ⟨[], [], rfl, rfl, nofun, nofun⟩
  | cons s rest ih =>
      obtain ⟨hs, hrest⟩ := List.pairwise_cons.mp (sorted_iff.mp h)
      have hcons : insertPattern r (s :: rest) =
          if asSpecific s r then s :: insertPattern r rest else r :: s :: rest := rfl
      rw [hcons]
      by_cases hle : asSpecific s r = true
      · obtain ⟨before, after, rfl, hsplit, hbefore, hafter⟩ := ih h.of_cons
        refine ⟨s :: before, after, rfl, ?_, List.forall_mem_cons.mpr ⟨hle, hbefore⟩, hafter⟩
        rw [if_pos hle, hsplit, List.cons_append]
      · refine ⟨[], s :: rest, rfl, if_neg hle, nofun, fun u hu => ?_⟩
        rw [Bool.eq_false_iff]
        rcases List.mem_cons.mp hu with rfl | hu
        · exact hle
        · exact fun hur => hle (asSpecific_trans _ _ _ (hs u hu) hur)

theorem filter_insertPattern (h : Sorted rs) (key : SpecificityKey) :
    (insertPattern r rs).filter (·.key == key) =
      rs.filter (·.key == key) ++ if r.key = key then [r] else [] := by
  obtain ⟨before, after, rfl, hsplit, -, hafter⟩ := exists_insertPattern_split r h
  rw [hsplit, List.filter_append, List.filter_append]
  by_cases hkey : r.key = key
  · have hnone : after.filter (·.key == key) = [] := by
      refine List.filter_eq_nil_iff.mpr fun s hs hskey => ?_
      have hle := hafter s hs
      rw [asSpecific, hkey, beq_iff_eq.mp hskey, SpecificityKey.compare_self] at hle
      cases hle
    rw [if_pos hkey, List.filter_cons_of_pos (by simp [hkey]), hnone, List.append_nil]
  · rw [if_neg hkey, List.filter_cons_of_neg (by simpa using hkey), List.append_nil]

theorem replacePattern?_eq (hr : r.conditional = false) (rs : List Rule) :
    replacePattern? r rs =
      if rs.any (·.givesWay r) then some (supersede r rs) else none := by
  induction rs with
  | nil => rfl
  | cons s rest ih =>
      have hway : (!s.conditional && s.sameLhs r) = s.givesWay r := by simp [Rule.givesWay, hr]
      rw [replacePattern?, hway, ih, List.any_cons, supersede]
      cases s.givesWay r with
      | true => rfl
      | false => cases rest.any (·.givesWay r) <;> rfl

/-- A rule added to pattern rules takes the place of one that gives way to it, or is put among
them. -/
theorem addPattern_eq (r : Rule) (rs : List Rule) :
    addPattern r rs =
      if rs.any (·.givesWay r) then supersede r rs else insertPattern r rs := by
  cases hr : r.conditional with
  | true =>
      have hnone : rs.any (·.givesWay r) = false := by simp [Rule.givesWay, hr]
      rw [addPattern, hr, hnone]
      rfl
  | false =>
      rw [addPattern, hr, if_neg Bool.false_ne_true, replacePattern?_eq hr]
      cases rs.any (·.givesWay r) <;> rfl

/-- Among the rules of each walk, adding one to sorted rules is the same as adding it to the
history. -/
theorem filter_addPattern (h : Sorted rs) (key : SpecificityKey) :
    (addPattern r rs).filter (·.key == key) =
      if r.key = key then supersede r (rs.filter (·.key == key)) else rs.filter (·.key == key) := by
  rw [addPattern_eq]
  cases hany : rs.any (·.givesWay r) with
  | true =>
      rw [if_pos rfl, filter_supersede fun s _ hway => by rw [Rule.key_eq_of_givesWay hway]]
      simp only [beq_iff_eq]
  | false =>
      have hnone : ∀ s ∈ rs, s.givesWay r = false := fun s hs => by
        rw [Bool.eq_false_iff]
        exact fun hway => Bool.eq_false_iff.mp hany (List.any_eq_true.mpr ⟨s, hs, hway⟩)
      rw [if_neg Bool.false_ne_true, filter_insertPattern h,
        supersede_eq_append fun s hs => hnone s (List.mem_filter.mp hs).1]
      split <;> simp

/-- Adding a rule to a history adds it to the sorted rules. -/
theorem bySpecificity_supersede (r : Rule) (rs : List Rule) :
    bySpecificity (supersede r rs) = addPattern r (bySpecificity rs) := by
  refine eq_of_sorted (sorted_bySpecificity _) (sorted_addPattern (sorted_bySpecificity rs))
    fun key => ?_
  rw [filter_bySpecificity, filter_addPattern (sorted_bySpecificity rs), filter_bySpecificity,
    filter_supersede fun s _ hway => by rw [Rule.key_eq_of_givesWay hway]]
  simp only [beq_iff_eq]

/-! ## constant rules -/

/-- Among constant rules in ascending order, a new one takes the place of the one with an equal
left-hand side. -/
theorem insertLiteral_perm (h : rs.Pairwise fun r s => r.lhs.compare s.lhs = .lt) :
    (insertLiteral r rs).Perm (r :: rs.filter fun s => !(s.lhs == r.lhs)) := by
  induction rs with
  | nil => exact .refl _
  | cons s rest ih =>
      obtain ⟨hs, hrest⟩ := List.pairwise_cons.mp h
      -- nothing behind a rule whose left-hand side is not less than the new one has the new one
      have hgreater : r.lhs.compare s.lhs ≠ .gt → ∀ u ∈ rest, (!(u.lhs == r.lhs)) = true := by
        intro hle u hu
        rw [Bool.not_eq_true', Bool.eq_false_iff]
        intro hequal
        have hlt := hs u hu
        rw [Term.compare_congr rfl ((Term.beq_iff_strip _ _).mp hequal)] at hlt
        rw [Term.compare_swap, hlt] at hle
        exact hle rfl
      rw [insertLiteral]
      by_cases heq : (s.lhs == r.lhs) = true
      · have hle : r.lhs.compare s.lhs ≠ .gt := by
          rw [(Term.compare_eq_iff _ _).mpr ((Term.beq_iff_strip _ _).mp heq).symm]
          decide
        rw [if_pos heq, List.filter_cons_of_neg (by simp [heq]),
          List.filter_eq_self.mpr (hgreater hle)]
      · rw [if_neg heq, List.filter_cons_of_pos (by simp [heq])]
        by_cases hlt : (r.lhs.compare s.lhs == .lt) = true
        · have hle : r.lhs.compare s.lhs ≠ .gt := by rw [beq_iff_eq.mp hlt]; decide
          rw [if_pos hlt, List.filter_eq_self.mpr (hgreater hle)]
        · rw [if_neg hlt]
          exact ((ih hrest).cons s).trans (.swap r s _)

theorem find?_insertLiteral (r : Rule) (rs : List Rule) (t : Term) :
    (insertLiteral r rs).find? (·.lhs == t) =
      if r.lhs == t then some r else rs.find? (·.lhs == t) := by
  induction rs with
  | nil => cases h : r.lhs == t <;> simp [insertLiteral, h]
  | cons s rest ih =>
      rw [insertLiteral]
      by_cases heq : (s.lhs == r.lhs) = true
      · have hsame : (s.lhs == t) = (r.lhs == t) := Term.beq_congr ((Term.beq_iff_strip _ _).mp heq) rfl
        rw [if_pos heq]
        cases h : r.lhs == t <;> simp [hsame, h]
      · rw [if_neg heq]
        by_cases hlt : (r.lhs.compare s.lhs == .lt) = true
        · rw [if_pos hlt]
          cases h : r.lhs == t <;> simp [h]
        · rw [if_neg hlt, List.find?_cons, ih, List.find?_cons]
          cases h : r.lhs == t with
          | false => rfl
          | true =>
              have hst : (s.lhs == t) = false := by
                rw [Bool.eq_false_iff]
                exact fun hst => heq (Term.beq_trans hst (by rwa [Term.beq_symm]))
              simp [hst]

end RuleList

end Termwise
