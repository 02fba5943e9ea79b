import Termwise.Proofs.Pattern.RenamedKey
import Termwise.Proofs.Rule.History

/-!
# Termwise.Proofs.Rule.Unique

How many unconditional rules a list holds for one left-hand side (`RuleList.OnePerLhs`):
one, an unconditional rule just added being the one, and none after a removal.

That is so in every history if two rules have one left-hand side as `Rule.sameLhs` has
it: they agree up to a renaming of pattern names, and the walks they had when they were
made are equal.  Walks do not count as long as the rules of a list read as they did when
they were made, and no name is a symbol of the evaluator or flat or orderless.  But
after a symbol has become flat a list can hold a constant rule and a pattern rule for
one and the same left-hand side (`two_rules_of_flat_list`).
-/

namespace Termwise

namespace Rule

/-- Two rules have left-hand sides that agree up to a renaming of pattern names. -/
def agreesWith (r s : Rule) : Bool := Term.alphaEqual r.names s.names r.lhs s.lhs

/-- The rule reads as when it was made, and its names are names of nothing else. -/
structure Steady (attrs : Symbol → Attributes) (r : Rule) : Prop where
  reads : r.Reads attrs
  inert : r.names.Inert attrs

variable {attrs : Symbol → Attributes} {r s : Rule}

/-- Steady rules that agree have one walk. -/
theorem Steady.key_eq (hr : r.Steady attrs) (hs : s.Steady attrs) (h : r.agreesWith s = true) :
    r.key = s.key := by
  have hri := hr.inert
  have hsi := hs.inert
  rw [hr.reads.names] at hri
  rw [hs.reads.names] at hsi
  rw [agreesWith, hr.reads.names, hs.reads.names] at h
  rw [hr.reads.key, hs.reads.key, Term.specificityKey_of_alphaEqual hri hsi h]

/-- Steady rules that stand apart do not agree. -/
theorem Steady.agreesWith_eq_false (hr : r.Steady attrs) (hs : s.Steady attrs) (h : r.Apart s)
    (hrc : r.conditional = false) (hsc : s.conditional = false) : r.agreesWith s = false := by
  rw [Bool.eq_false_iff]
  intro hagrees
  have hsame := sameLhs_iff.mpr ⟨hr.key_eq hs hagrees, hagrees⟩
  rw [h hrc hsc] at hsame
  cases hsame

end Rule

namespace RuleList

variable {l : RuleList} {r : Rule}

/-- A rule just added stands apart from all others. -/
theorem Tidy.apart_insert (h : l.Tidy) (hr : r.Made) {before after : List Rule}
    (hsplit : (l.insert r).rules = before ++ r :: after) : ∀ s ∈ before ++ after, s.Apart r := by
  have hapart := (h.insert hr).apart_rules
  rw [hsplit, List.perm_middle.pairwise_iff fun h => h.symm, List.pairwise_cons] at hapart
  exact fun s hs => (hapart.1 s hs).symm

/-- The list holds one unconditional rule for a left-hand side, where `same` tells which rules have
one left-hand side, and rules are such that `fit` holds of them. -/
structure OnePerLhs (attrs : Symbol → Attributes) (same : Rule → Rule → Bool) (fit : Rule → Prop)
    (l : RuleList) : Prop where
  /-- No two unconditional rules have one left-hand side. -/
  apart : l.rules.Pairwise fun r s =>
    r.conditional = false → s.conditional = false → same r s = false
  /-- After an unconditional rule was added, no other unconditional one has its left-hand side. -/
  insert : ∀ r : Rule, fit r → r.conditional = false →
    ∃ before after, (l.insert r).rules = before ++ r :: after ∧
      ∀ s ∈ before ++ after, s.conditional = false → same s r = false
  /-- After a left-hand side was removed, no rule has it. -/
  remove : ∀ lhs rhs kind, fit (.make attrs lhs rhs kind) →
    ∀ r ∈ (l.remove attrs lhs).1.rules, same r (.make attrs lhs rhs kind) = false

/-- A tidy list holds one rule for a left-hand side with its walk. -/
theorem Tidy.onePerWalk (h : l.Tidy) (attrs : Symbol → Attributes) :
    l.OnePerLhs attrs Rule.sameLhs Rule.Made where
  apart := h.apart_rules
  insert r hr hrc := by
    obtain ⟨before, after, hsplit, -⟩ := insert_split l r
    exact ⟨before, after, hsplit, fun s hs hsc => h.apart_insert hr hsplit s hs hsc hrc⟩
  remove lhs rhs kind _ r hr := by
    rw [Bool.eq_false_iff]
    intro hsame
    obtain ⟨hkey, halpha⟩ := Rule.sameLhs_iff.mp hsame
    exact h.key_ne_of_mem_remove hr halpha hkey

/-- A tidy list of steady rules holds one rule for a left-hand side. -/
theorem Tidy.onePerLhs_of_steady (h : l.Tidy) {attrs : Symbol → Attributes}
    (hsteady : ∀ r ∈ l.rules, r.Steady attrs) :
    l.OnePerLhs attrs Rule.agreesWith (Rule.Steady attrs) where
  apart := h.apart_rules.imp_of_mem fun hr hs hapart hrc hsc =>
    (hsteady _ hr).agreesWith_eq_false (hsteady _ hs) hapart hrc hsc
  insert r hr hrc := by
    obtain ⟨before, after, hsplit, hmem⟩ := insert_split l r
    refine ⟨before, after, hsplit, fun s hs hsc => ?_⟩
    have hapart := h.apart_insert ⟨attrs, hr.reads⟩ hsplit s hs
    exact (hsteady s (hmem s hs)).agreesWith_eq_false hr hapart hsc hrc
  remove lhs rhs kind hfit r hr := by
    rw [Bool.eq_false_iff]
    intro hagrees
    have hold : r ∈ l.rules := by
      obtain ⟨hliterals, hpatterns⟩ := rules_remove l attrs lhs
      rw [rules, hliterals, hpatterns] at hr
      exact List.mem_append.mpr ((List.mem_append.mp hr).imp (fun h => (List.mem_filter.mp h).1)
        fun h => (List.mem_filter.mp h).1)
    exact h.key_ne_of_mem_remove hr hagrees ((hsteady r hold).key_eq hfit hagrees)

end RuleList

/-! ## histories -/

/-- Every list of a history, in a kernel or beside it, holds one unconditional rule for a left-hand
side with its walk; while its rules are steady, for a left-hand side up to a renaming of names. -/
theorem Reached.onePerLhs {k : Kernel} {l list : RuleList} (h : Reached k l)
    (hlist : list = l ∨ k.HasRules list) :
    list.OnePerLhs k.attributes Rule.sameLhs Rule.Made ∧
      ((∀ r ∈ list.rules, r.Steady k.attributes) →
        list.OnePerLhs k.attributes Rule.agreesWith (Rule.Steady k.attributes)) := by
  have htidy : list.Tidy := by
    rcases hlist with rfl | hlist
    · exact h.tidy.2
    · exact h.tidy.1 list hlist
  exact ⟨htidy.onePerWalk k.attributes, htidy.onePerLhs_of_steady⟩

/-- The rule that gives a list with one named argument a value. -/
def listRule (name : Symbol) (value : Int64) : Rule :=
  .make (Kernel.new {}).attributes (.app .list [.app .pattern [.symbol name, .app .blank []]])
    (.int value) .delayed

theorem steady_listRule {name : Symbol} (h : name.Inert (Kernel.new {}).attributes) (value : Int64) :
    (listRule name value).Steady (Kernel.new {}).attributes := by
  refine ⟨rfl, fun x hx => ?_⟩
  obtain rfl : x = name := List.mem_singleton.mp hx
  exact h

/-- After `{x_} :> 1` and `{y_} :> 2`, no other rule is there for the second left-hand side. -/
theorem onePerLhs_renamed_list : ∃ before after,
    ((RuleList.empty.insert (listRule ⟨40, "x"⟩ 1)).insert (listRule ⟨41, "y"⟩ 2)).rules =
        before ++ listRule ⟨41, "y"⟩ 2 :: after ∧
      ∀ s ∈ before ++ after, s.conditional = false →
        s.agreesWith (listRule ⟨41, "y"⟩ 2) = false := by
  have hx : Symbol.Inert (Kernel.new {}).attributes ⟨40, "x"⟩ := ⟨by rfl, by decide⟩
  have hy : Symbol.Inert (Kernel.new {}).attributes ⟨41, "y"⟩ := ⟨by rfl, by decide⟩
  have hreached : Reached (.new {}) (RuleList.empty.insert (listRule ⟨40, "x"⟩ 1)) :=
    .insert _ ⟨_, rfl⟩ (.new {})
  have hsteady : ∀ r ∈ (RuleList.empty.insert (listRule ⟨40, "x"⟩ 1)).rules,
      r.Steady (Kernel.new {}).attributes := by
    intro r hr
    obtain rfl : r = listRule ⟨40, "x"⟩ 1 := List.mem_singleton.mp hr
    exact steady_listRule hx 1
  exact (hreached.onePerLhs (.inl rfl)).2 hsteady |>.insert _ (steady_listRule hy 2) rfl

/-- The rule that gives the list of one a value, made under some attributes. -/
def constantRule (attrs : Symbol → Attributes) (value : Int64) : Rule :=
  .make attrs (.app .list [.int 1]) (.int value) .delayed

/-- `{1} :> 1` is made, `List` becomes flat, `{1} :> 2` is added.  The second rule is no constant
rule and joins the first one, which goes on to answer for `{1}`. -/
theorem two_rules_of_flat_list : ∃ k r s, Reached k ((RuleList.empty.insert r).insert s) ∧
    s.Reads k.attributes ∧ r.conditional = false ∧ s.conditional = false ∧
    r.agreesWith s = true ∧ ((RuleList.empty.insert r).insert s).rules = [r, s] ∧
    s.rhs = .int 2 ∧
    ((RuleList.empty.insert r).insert s).constant? (.app .list [.int 1]) = some (.int 1) := by
  have hreached : Reached ((Kernel.new {}).storeAttributes .list (.ofList [.flat]))
      (RuleList.empty.insert (constantRule (Kernel.new {}).attributes 1)) :=
    .kernel (.setAttributes .list (.ofList [.flat]) _ rfl) (.insert _ ⟨_, rfl⟩ (.new {}))
  exact ⟨_, _, constantRule ((Kernel.new {}).storeAttributes .list (.ofList [.flat])).attributes 2,
    .insert _ ⟨_, rfl⟩ hreached, rfl, rfl, rfl, rfl, rfl, rfl, rfl⟩

end Termwise
