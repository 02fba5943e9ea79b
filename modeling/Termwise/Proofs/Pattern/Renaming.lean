import Termwise.Pattern.Specificity
import Termwise.Proofs.Pattern.Every
import Termwise.Proofs.Term.Ordinary
import Termwise.Proofs.Term.Strip

/-!
# Termwise.Proofs.Pattern.Renaming

Terms that agree up to a renaming of their pattern names:

* `alphaEqual_symm`, `alphaEqual_trans` — agreement goes both ways and composes;
* `strip_eq_of_alphaEqual` — a term without names agrees with equal terms only;
* a literal term has no names (`patternNames_of_isLiteral`), and its walk tells whether
  it still is literal (`specificityKey_eq_constant_iff`).
-/

namespace Termwise.Term

theorem beq_symm (a b : Term) : (a == b) = (b == a) := by
  rw [Bool.eq_iff_iff, beq_iff_strip, beq_iff_strip, eq_comm]

theorem beq_trans {a b c : Term} (hab : (a == b) = true) (hbc : (b == c) = true) :
    (a == c) = true := by
  rw [beq_iff_strip] at *
  exact hab.trans hbc

/-! ## agreement -/

section

variable (names names' names'' : NameCounts)

/-- Symbols agree when they are the names of one place, or equal and no names. -/
theorem alphaEqual_symbol (x y : Symbol) :
    alphaEqual names names' (.symbol x) (.symbol y) = true ↔
      names.position? x = names'.position? y ∧ (names.position? x = none → x = y) := by
  simp only [alphaEqual]
  cases names.position? x <;> cases names'.position? y <;> simp

mutual

theorem alphaEqual_symm : ∀ a b : Term, alphaEqual names names' a b = true →
    alphaEqual names' names b a = true
  | .symbol x, .symbol y, h => by
      rw [alphaEqual_symbol] at *
      exact ⟨h.1.symm, fun hy => (h.2 (h.1.trans hy)).symm⟩
  | .node _ f xs, .node _ g ys, h => by
      simp only [alphaEqual, Bool.and_eq_true] at *
      exact ⟨alphaEqual_symm f g h.1, alphaEqualAll_symm xs ys h.2⟩
  | .magic _, .magic _, h | .int _, .int _, h | .float _, .float _, h | .text _, .text _, h
  | .host _, .host _, h => (beq_symm _ _).trans h

theorem alphaEqualAll_symm : ∀ as bs : List Term, alphaEqualAll names names' as bs = true →
    alphaEqualAll names' names bs as = true
  | [], [], _ => rfl
  | a :: as, b :: bs, h => by
      simp only [alphaEqualAll, Bool.and_eq_true] at *
      exact ⟨alphaEqual_symm a b h.1, alphaEqualAll_symm as bs h.2⟩

end

mutual

theorem alphaEqual_trans : ∀ a b c : Term, alphaEqual names names' a b = true →
    alphaEqual names' names'' b c = true → alphaEqual names names'' a c = true
  | .symbol x, .symbol y, .symbol z, h, h' => by
      rw [alphaEqual_symbol] at *
      exact ⟨h.1.trans h'.1, fun hx => (h.2 hx).trans (h'.2 (h.1.symm.trans hx))⟩
  | .node _ f xs, .node _ g ys, .node _ e zs, h, h' => by
      simp only [alphaEqual, Bool.and_eq_true] at *
      exact ⟨alphaEqual_trans f g e h.1 h'.1, alphaEqualAll_trans xs ys zs h.2 h'.2⟩
  | .magic _, .magic _, .magic _, h, h' | .int _, .int _, .int _, h, h'
  | .float _, .float _, .float _, h, h' | .text _, .text _, .text _, h, h'
  | .host _, .host _, .host _, h, h' => beq_trans h h'

theorem alphaEqualAll_trans : ∀ as bs cs : List Term, alphaEqualAll names names' as bs = true →
    alphaEqualAll names' names'' bs cs = true → alphaEqualAll names names'' as cs = true
  | [], [], [], _, _ => rfl
  | a :: as, b :: bs, c :: cs, h, h' => by
      simp only [alphaEqualAll, Bool.and_eq_true] at *
      exact ⟨alphaEqual_trans a b c h.1 h'.1, alphaEqualAll_trans as bs cs h.2 h'.2⟩

end

variable {names names'}

/-- A symbol that is no name agrees with itself only. -/
theorem eq_of_alphaEqual_symbol {s : Symbol} {t : Term} (hs : names.position? s = none)
    (h : alphaEqual names names' (.symbol s) t = true) : t = .symbol s := by
  cases t with
  | symbol s' =>
      rw [alphaEqual_symbol] at h
      rw [h.2 hs]
  | _ => cases h

/-- A term that is a name is one of some names. -/
def AllowedName (names : NameCounts) (allowed : Symbol → Prop) : Term → Prop
  | .symbol s => names.position? s = none ∨ allowed s
  | _ => True

/-- Every name in a term is one of some names. -/
def NamesOnly (names : NameCounts) (allowed : Symbol → Prop) (t : Term) : Prop :=
  t.Every (AllowedName names allowed)

/-- A term has no names in it. -/
def Nameless (names : NameCounts) (t : Term) : Prop := t.NamesOnly names fun _ => False

mutual

/-- A term without names agrees with equal terms only. -/
theorem strip_eq_of_alphaEqual : ∀ {a b : Term}, a.Nameless names →
    alphaEqual names names' a b = true → a.strip = b.strip
  | .symbol s, _, ha, h => by rw [eq_of_alphaEqual_symbol (ha.resolve_right id) h]
  | .node i f xs, .node j g ys, ha, h => by
      simp only [alphaEqual, Bool.and_eq_true] at h
      rw [strip, strip, strip_eq_of_alphaEqual ha.2.1 h.1, stripAll_eq_of_alphaEqual ha.2.2 h.2]
  | .magic _, b, _, h | .int _, b, _, h | .float _, b, _, h | .text _, b, _, h
  | .host _, b, _, h => by
      cases b with
      | symbol | node => cases h
      | _ => exact (beq_iff_strip _ _).mp h

theorem stripAll_eq_of_alphaEqual : ∀ {as bs : List Term},
    AllEvery (AllowedName names fun _ => False) as →
    alphaEqualAll names names' as bs = true → stripAll as = stripAll bs
  | [], [], _, _ => rfl
  | a :: as, b :: bs, ha, h => by
      simp only [alphaEqualAll, Bool.and_eq_true] at h
      rw [stripAll, stripAll, strip_eq_of_alphaEqual ha.1 h.1, stripAll_eq_of_alphaEqual ha.2 h.2]

end

/-- Where there are no names, only equal terms agree. -/
theorem beq_of_alphaEqual_nil (names : NameCounts) (a b : Term) (h : alphaEqual [] names a b = true) :
    (a == b) = true := by
  have hnameless : ∀ t : Term, t.Nameless [] :=
    every_of_forall fun t => by cases t <;> first | exact .inl rfl | exact trivial
  exact (beq_iff_strip a b).mpr (strip_eq_of_alphaEqual (hnameless a) h)

end

mutual

theorem alphaEqual_nil : ∀ a b : Term, alphaEqual [] [] a b = equal a b
  | .symbol _, b => by cases b <;> rfl
  | .node _ f xs, b => by
      cases b with
      | node _ g ys => rw [alphaEqual, equal, alphaEqual_nil f g, alphaEqualAll_nil xs ys]
      | _ => rfl
  | .magic _, b | .int _, b | .float _, b | .text _, b | .host _, b => by cases b <;> rfl

theorem alphaEqualAll_nil : ∀ as bs : List Term, alphaEqualAll [] [] as bs = equalAll as bs
  | [], bs => by cases bs <;> rfl
  | a :: as, bs => by
      cases bs with
      | nil => rfl
      | cons b bs => rw [alphaEqualAll, equalAll, alphaEqual_nil a b, alphaEqualAll_nil as bs]

end

/-! ## literal terms -/

section

variable {attrs attrs' : Symbol → Attributes}

/-- A call that is no named pattern adds the names of its parts. -/
theorem addNames_node (names : NameCounts) (i : Nat) {f : Term} (xs : List Term)
    (h : ¬ ∃ name p, f = .symbol .pattern ∧ xs = [.symbol name, p]) :
    (node i f xs).addNames names = addAllNames (f.addNames names) xs := by
  by_cases hshape : ∃ s name p, f = .symbol s ∧ xs = [.symbol name, p]
  · obtain ⟨s, name, p, rfl, rfl⟩ := hshape
    have hs : s ≠ .pattern := fun hs => h ⟨name, p, by rw [hs], rfl⟩
    simp [hs, addAllNames, addNames]
  · rw [addNames]
    rintro s name p rfl rfl
    exact hshape ⟨s, name, p, rfl, rfl⟩

/-- The parts of a literal call are literal. -/
theorem isLiteral_parts {i : Nat} {f : Term} {xs : List Term}
    (h : (node i f xs).isLiteral attrs = true) :
    f.isLiteral attrs = true ∧ areLiteral attrs xs = true := by
  cases f <;> simp_all [isLiteral]

mutual

/-- A literal term is no pattern with names. -/
theorem addNames_of_isLiteral (names : NameCounts) : ∀ t : Term, t.isLiteral attrs = true →
    t.addNames names = names
  | .node i f xs, h => by
      obtain ⟨hf, hxs⟩ := isLiteral_parts h
      have hshape : ¬ ∃ name p, f = .symbol .pattern ∧ xs = [.symbol name, p] := by
        rintro ⟨name, p, rfl, rfl⟩
        cases h
      rw [addNames_node names i xs hshape, addNames_of_isLiteral names f hf,
        addAllNames_of_areLiteral names xs hxs]
  | .symbol _, _ | .magic _, _ | .int _, _ | .float _, _ | .text _, _ | .host _, _ => rfl

theorem addAllNames_of_areLiteral (names : NameCounts) : ∀ ts : List Term,
    areLiteral attrs ts = true → addAllNames names ts = names
  | [], _ => rfl
  | t :: ts, h => by
      simp only [areLiteral, Bool.and_eq_true] at h
      rw [addAllNames, addNames_of_isLiteral names t h.1, addAllNames_of_areLiteral names ts h.2]

end

theorem patternNames_of_isLiteral {t : Term} (h : t.isLiteral attrs = true) : t.patternNames = [] :=
  addNames_of_isLiteral [] t h

mutual

theorem isLiteral_strip : ∀ t : Term, t.strip.isLiteral attrs = t.isLiteral attrs
  | .node _ (.symbol _) xs => by simp only [strip, isLiteral, areLiteral_stripAll xs]
  | .node _ (.node i f ys) xs => by
      have h := isLiteral_strip (.node i f ys)
      rw [strip] at h
      simp only [strip, isLiteral, h, areLiteral_stripAll xs]
  | .node _ (.magic _) xs | .node _ (.int _) xs | .node _ (.float _) xs | .node _ (.text _) xs
  | .node _ (.host _) xs => by simp only [strip, isLiteral, areLiteral_stripAll xs]
  | .symbol _ | .magic _ | .int _ | .float _ | .text _ | .host _ => rfl

theorem areLiteral_stripAll : ∀ ts : List Term, areLiteral attrs (stripAll ts) = areLiteral attrs ts
  | [] => rfl
  | t :: ts => by simp only [stripAll, areLiteral, isLiteral_strip t, areLiteral_stripAll ts]

end

theorem isLiteral_congr {a b : Term} (h : (a == b) = true) :
    a.isLiteral attrs = b.isLiteral attrs := by
  rw [← isLiteral_strip a, (beq_iff_strip a b).mp h, isLiteral_strip]

/-- A call that is literal under some attributes is no pattern syntax. -/
theorem ofTerm_node_of_isLiteral {i : Nat} {f : Term} {xs : List Term}
    (h : (node i f xs).isLiteral attrs = true) :
    Pattern.ofTerm (.node i f xs) =
      .call (.node i f xs) (Pattern.ofTerm f) (xs.map Pattern.ofTerm) := by
  obtain ⟨s, p, rfl, hform, -⟩ | hcall := Pattern.ofTerm_node i f xs
  · have hs : s.isPatternHead = false := by
      simp only [isLiteral, Symbol.opensMatch, Bool.and_eq_true, Bool.not_eq_true',
        Bool.or_eq_false_iff] at h
      exact h.1.1.1
    rw [Pattern.form?_eq_none hs] at hform
    cases hform
  · exact hcall

/-- The walk of a literal term is that of a constant; once it is literal no more, it is not. -/
theorem specificityKey_eq_constant_iff {t : Term} (h : t.isLiteral attrs = true) :
    t.specificityKey attrs' = .leaf .constant ↔ t.isLiteral attrs' = true := by
  cases t with
  | node i f xs =>
      rw [specificityKey, ofTerm_node_of_isLiteral h, Pattern.specificityKey]
      by_cases h' : (node i f xs).isLiteral attrs' = true
      · simp [h']
      · simp [h', SpecificityKey.node, SpecificityKey.leaf, NodeClass.code]
  | _ => simp [specificityKey, Pattern.ofTerm, Pattern.specificityKey, isLiteral]

end

end Termwise.Term
