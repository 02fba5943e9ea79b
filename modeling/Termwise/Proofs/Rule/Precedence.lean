import Mathlib.Data.List.Perm.Subperm
import Termwise.Proofs.Rule.Built
import Termwise.Proofs.Rule.Interchange
import Termwise.Proofs.Rule.Unique

/-!
# Termwise.Proofs.Rule.Precedence

What becomes of a rule when another one with the same left-hand side is added, and one of the
two carries a test.  Both are in the list then, and as long as the new one is not a constant
rule, every subject that was answered by the old one still is, with the same result
(`RuleList.Built.insert_conditional`).

The old rule keeps its place in the order, and what comes before it is what came before
it, but for a rule without a test that gave way to the new one.  That one applies
to the subjects that the new one applies to.

A constant rule overtakes the pattern rules, though, and a constant left-hand side with a test
makes a pattern rule: after `{1} :> 1 /; True` has been joined by `{1} :> 2`, the newer rule
answers for `{1}` (`constant_overtakes`).
-/

namespace Termwise

open Correspondence Likeness

/-- At its place there is the rule, or a new one that it gave way to, neither of which carries a
test. -/
def Rule.Becomes (r s s' : Rule) : Prop :=
  s' = s ∨ s' = r ∧ r.conditional = false ∧ s.conditional = false ∧ s.sameLhs r = true

/-- Rules with the same left-hand side, made under the same attributes, may apply to the same
subjects by their dispatch keys. -/
theorem Rule.Placed.mayMatch_eq {attrs : Symbol → Attributes} {r s : Rule} (hplaced : r.Placed)
    (hr : r.Reads attrs) (hs : s.Reads attrs) (h : s.sameLhs r = true) (key : Term) :
    s.mayMatch key = r.mayMatch key := by
  have hdispatch := (hplaced.renames ⟨attrs, hr⟩ (sameLhs_symm h)).rel_dispatchKey attrs
  rw [← hr.dispatch, ← hs.dispatch] at hdispatch
  rw [mayMatch, mayMatch]
  generalize r.dispatch = o, s.dispatch = o' at hdispatch
  cases hdispatch with
  | some hkey => exact Term.beq_congr hkey.symm rfl
  | none => rfl

/-- Constant rules carry no test. -/
theorem Rule.Made.conditional_of_literal {r : Rule} (h : r.Made) (hliteral : r.literal = true) :
    r.conditional = false := by
  obtain ⟨attrs, hreads⟩ := h
  rw [hreads.literal, Bool.and_eq_true, Bool.not_eq_true', ← hreads.conditional] at hliteral
  exact hliteral.1

namespace RuleList

variable {attrs : Symbol → Attributes} {l : RuleList} {q r s : Rule} {subject : Term}
  {before after : List Rule}

/-! ## both rules are kept -/

theorem subperm_of_mem (h : q ∈ before ++ after) : [q, r].Subperm (before ++ r :: after) := by
  have hcons : [r, q].Subperm (r :: (before ++ after)) :=
    (List.subperm_cons r).mpr (List.singleton_subperm_iff.mpr h)
  exact (List.Perm.swap r q []).subperm.trans (hcons.trans List.perm_middle.symm.subperm)

/-- Two rules with one left-hand side, one of which carries a test, are both kept. -/
theorem Tidy.insert_subperm (h : l.Tidy) (hq : q ∈ l.rules) (hr : r.Made)
    (hcond : q.conditional = true ∨ r.conditional = true) :
    [q, r].Subperm (l.insert r).rules := by
  cases hliteral : r.literal with
  | true =>
      -- a constant rule carries no test, so the old one does, and is no constant rule
      have hqc : q.conditional = true :=
        hcond.resolve_right (by simp [hr.conditional_of_literal hliteral])
      have hq : q ∈ l.patterns := (List.mem_append.mp hq).resolve_left fun hq => by
        have hmade := h.made q (List.mem_append_left _ hq)
        rw [hmade.conditional_of_literal (h.literal q hq)] at hqc
        cases hqc
      obtain ⟨before, after, hsplit, -⟩ := insertLiteral_split r l.literals
      have hrules : (l.insert r).rules = before ++ r :: (after ++ l.patterns) := by
        rw [insert_literal l hliteral, rules, hsplit, List.append_assoc, List.cons_append]
        rfl
      rw [hrules]
      exact subperm_of_mem (List.mem_append_right _ (List.mem_append_right _ hq))
  | false =>
      have hrules : (l.insert r).rules = l.literals ++ addPattern r l.patterns := by
        rw [insert_pattern l hliteral]
        rfl
      rw [hrules]
      rcases addPattern_cases r l.patterns with
        hinsert | ⟨before, s, after, hsplit, hreplace, hrc, hsc, -⟩
      · obtain ⟨before, after, hsplit, hplace⟩ := insertPattern_split r l.patterns
        rw [hinsert, hplace, ← List.append_assoc]
        rw [rules, hsplit, ← List.append_assoc] at hq
        exact subperm_of_mem hq
      · have hne : q ≠ s := by
          rintro rfl
          simp [hrc, hsc] at hcond
        rw [hreplace, ← List.append_assoc]
        rw [rules, hsplit, ← List.append_assoc] at hq
        exact subperm_of_mem ((mem_split hq).resolve_left hne)

/-! ## the place of the old rule -/

theorem forall₂_becomes_refl (r : Rule) (rs : List Rule) : List.Forall₂ r.Becomes rs rs :=
  List.forall₂_same.mpr fun _ _ => .inl rfl

/-- Among sorted pattern rules, a rule keeps its place when one with the same left-hand side is
added, and so do those before it, unless one gives way. -/
theorem exists_addPattern_split (hsorted : Sorted (before ++ q :: after)) (hkey : q.key = r.key)
    (hcond : q.conditional = true ∨ r.conditional = true) :
    ∃ before' after', addPattern r (before ++ q :: after) = before' ++ q :: after' ∧
      List.Forall₂ r.Becomes before before' := by
  have hsame := forall₂_becomes_refl r
  rcases addPattern_cases r (before ++ q :: after) with
    hinsert | ⟨front, s, back, hsplit, hreplace, hr, hs, hlhs⟩
  · have hle : ∀ s ∈ before ++ [q], SpecificityKey.compare s.key r.key ≠ .gt := by
      rw [← hkey]
      intro s hs
      rcases List.mem_append.mp hs with hs | hs
      · exact (List.pairwise_append.mp hsorted).2.2 s hs q List.mem_cons_self
      · rw [List.mem_singleton.mp hs, SpecificityKey.compare_self]
        exact nofun
    have hplace : insertPattern r ((before ++ [q]) ++ after) =
        (before ++ [q]) ++ insertPattern r after := insertPattern_append hle
    rw [List.append_assoc, List.append_assoc] at hplace
    exact ⟨before, _, hinsert.trans hplace, hsame before⟩
  · have hne : q ≠ s := by
      rintro rfl
      simp [hr, hs] at hcond
    have hbecomes : r.Becomes s r := .inr ⟨rfl, hr, hs, hlhs⟩
    rcases List.append_eq_append_iff.mp hsplit with ⟨mid, rfl, hback⟩ | ⟨mid, rfl, hback⟩
    · cases mid with
      | nil => exact absurd (List.cons.inj hback).1 hne
      | cons q' mid =>
          obtain ⟨rfl, rfl⟩ := List.cons.inj hback
          exact ⟨before, mid ++ r :: back, by rw [hreplace]; simp, hsame before⟩
    · cases mid with
      | nil => exact absurd (List.cons.inj hback).1.symm hne
      | cons s' mid =>
          obtain ⟨rfl, rfl⟩ := List.cons.inj hback
          refine ⟨front ++ r :: mid, after, by rw [hreplace]; simp, ?_⟩
          exact List.rel_append (hsame front) (.cons hbecomes (hsame mid))

/-! ## lookups -/

/-- The rules that a lookup of a subject tries, in order: a constant rule alone, or else the
candidates. -/
def tried (l : RuleList) (subject : Term) : List Rule :=
  match l.literals.find? (·.lhs == subject) with
  | some r => [r]
  | none => l.candidates subject

/-- A lookup gives what the first of the rules gives that applies. -/
theorem find?_eq_tried {m : Type → Type} [Monad m] [LawfulMonad m]
    (h : ∀ r ∈ l.literals, r.literal = true) (f : Term → Term → Term → m (Option Term))
    (subject : Term) : l.find? (fun r => r.applyWith f subject) subject =
      (l.tried subject).findSomeM? fun r => r.applyWith f subject := by
  unfold find? constant? tried
  cases hfind : l.literals.find? (·.lhs == subject) with
  | none => rfl
  | some r =>
      have hliteral := h r (List.mem_of_find?_eq_some hfind)
      have hlhs := List.find?_some hfind
      simp [Rule.applyWith, hliteral, hlhs]

theorem Fresh.tried_ready (h : l.Fresh attrs) (epoch : Nat) (subject : Term) :
    (l.ready attrs epoch subject).tried subject =
      match l.literals.find? (·.lhs == subject) with
      | some r => [r]
      | none => l.patterns.filter (·.mayMatch subject.key) := by
  rw [tried, (l.rules_ready attrs epoch subject).1]
  cases hfind : l.literals.find? (·.lhs == subject) with
  | some r => rfl
  | none => exact h.candidates_ready epoch (by rw [constant?, hfind]; rfl)

/-- A list around a rule, read off its filtered list around it. -/
theorem exists_split_of_filter {p : Rule → Bool} {rs : List Rule}
    (h : rs.filter p = before ++ q :: after) :
    ∃ front back, rs = front ++ q :: back ∧ p q = true ∧ front.filter p = before := by
  obtain ⟨front, rest, rfl, hfront, hrest⟩ := List.filter_eq_append_iff.mp h
  obtain ⟨skipped, back, rfl, hskipped, hq, -⟩ := List.filter_eq_cons_iff.mp hrest
  refine ⟨front ++ skipped, back, by rw [List.append_assoc], hq, ?_⟩
  rw [List.filter_append, List.filter_eq_nil_iff.mpr hskipped, List.append_nil, hfront]

/-- What a lookup tries before a rule, it tries before the rule as well when one with the same
left-hand side has been added, but for a rule that gave way. -/
theorem Fresh.exists_tried_insert (h : l.Fresh attrs) (hr : r.Reads attrs)
    (hliteral : r.literal = false) (hplaced : r.conditional = false → r.Placed)
    (hsame : q.sameLhs r = true) (hcond : q.conditional = true ∨ r.conditional = true)
    (epoch epoch' : Nat)
    (htried : (l.ready attrs epoch subject).tried subject = before ++ q :: after) :
    ∃ before' after',
      ((l.insert r).ready attrs epoch' subject).tried subject = before' ++ q :: after' ∧
        List.Forall₂ (fun s s' => s ∈ l.patterns ∧ r.Becomes s s') before before' := by
  have hliterals : (l.insert r).literals = l.literals := by rw [insert_pattern l hliteral]; rfl
  have hpatterns : (l.insert r).patterns = addPattern r l.patterns := by
    rw [insert_pattern l hliteral]
  rw [h.tried_ready] at htried
  rw [(h.insert hr).tried_ready, hliterals, hpatterns]
  cases hfind : l.literals.find? (·.lhs == subject) with
  | some x =>
      rw [hfind] at htried
      have hbefore : before = [] := by
        cases before with
        | nil => rfl
        | cons y ys => simp at htried
      subst hbefore
      exact ⟨[], after, htried, .nil⟩
  | none =>
      rw [hfind] at htried
      obtain ⟨front, back, hsplit, hq, rfl⟩ := exists_split_of_filter htried
      obtain ⟨front', back', hadd, hbecomes⟩ :=
        exists_addPattern_split (hsplit ▸ h.sorted) (Rule.sameLhs_iff.mp hsame).1 hcond
      have hplaces : List.Forall₂ (fun s s' => s ∈ l.patterns ∧ r.Becomes s s') front front' := by
        refine (List.forall₂_and_left _ _).mpr ⟨fun s hs => ?_, hbecomes⟩
        exact hsplit ▸ List.mem_append_left _ hs
      refine ⟨front'.filter (·.mayMatch subject.key), back'.filter (·.mayMatch subject.key), ?_, ?_⟩
      · rw [hsplit, hadd, List.filter_append, List.filter_cons, if_pos hq]
      · -- a rule may match the keys that the one it gave way to may match
        refine List.rel_filter (fun s s' ⟨hmem, hs'⟩ => ?_) hplaces
        rcases hs' with rfl | ⟨rfl, hrc, -, hlhs⟩
        · rfl
        · have hreads := h.reads s (List.mem_append_right _ hmem)
          exact Bool.eq_iff_iff.mp ((hplaced hrc).mayMatch_eq hr hreads hlhs _)

end RuleList

/-! ## what a lookup answers -/

namespace Evaluator

variable {c : ContextId} {inv : Kernel → Prop} {asks : Term → Prop} {defaults : Prop}
  {k k' k₁ k₂ : Kernel} {l : RuleList} {q r : Rule} {subject v : Term} {n : Nat}

/-- From a kernel, a lookup comes to a rule of the list, those before it not applying, and gives
what that rule makes of the subject. -/
def AnswersBy (r : Evaluator) (c : ContextId) (l : RuleList) (subject : Term) (k : Kernel)
    (q : Rule) (v : Term) (k₁ : Kernel) : Prop :=
  ∃ before after k', (l.ready k.attributes k.structureEpoch subject).tried subject =
      before ++ q :: after ∧
    (r.firstOf c before subject).run k = (.ok none, k') ∧
    (q.applyWith (r.rewrite c) subject).run k' = (.ok (some v), k₁)

theorem run_firstOf_append {e : Evaluator} {xs ys : List Rule}
    (h : (e.firstOf c xs subject).run k = (.ok none, k')) :
    (e.firstOf c (xs ++ ys) subject).run k = (e.firstOf c ys subject).run k' := by
  induction xs generalizing k with
  | nil => cases h; rfl
  | cons x xs ih =>
      rw [firstOf, List.findSomeM?_cons] at h
      obtain ⟨o, k₁, hx, hrest⟩ := EvalM.run_bind_eq_ok h
      rw [List.cons_append, firstOf, List.findSomeM?_cons, EvalM.run_bind_ok hx]
      cases o with
      | none => exact ih hrest
      | some v => cases hrest

theorem AnswersBy.run_find? {e : Evaluator} (h : e.AnswersBy c l subject k q v k₁)
    (hl : l.Tidy) : (e.find? c l subject).run k = (.ok (some v), k₁) := by
  obtain ⟨before, after, k', htried, hbefore, hq⟩ := h
  have hliterals : ∀ r ∈ (l.ready k.attributes k.structureEpoch subject).literals,
      r.literal = true := by
    rw [(l.rules_ready _ _ subject).1]
    exact hl.literal
  rw [Evaluator.run_find?, RuleList.find?_eq_tried hliterals, htried]
  refine (run_firstOf_append hbefore).trans ?_
  rw [firstOf, List.findSomeM?_cons, EvalM.run_bind_ok hq]
  rfl

/-- What comes before the old rule after the change does not apply if what came before it did
not. -/
theorem Pure.run_before (h : (ofFuel n).Pure c inv asks defaults) {attrs : Symbol → Attributes}
    (hl : l.Fresh attrs) (hr : r.Reads attrs)
    (hasks : ∀ s ∈ r :: l.rules, ∃ names, s.AsksOnly names asks defaults)
    (hliteral : r.literal = false) (hplaced : r.conditional = false → r.Placed)
    {before before' : List Rule}
    (hbefore : List.Forall₂ (fun s s' => s ∈ l.patterns ∧ r.Becomes s s') before before')
    (hk : inv k) (hk₂ : inv k₂)
    (hrun : ((ofFuel (n + 1)).firstOf c before subject).run k = (.ok none, k')) :
    inv k' ∧ ∃ k₂', ((ofFuel (n + 1)).firstOf c before' subject).run k₂ = (.ok none, k₂') ∧
      inv k₂' := by
  have halike : ((Twins.among inv).running 0).Answers () (fun _ _ _ => True)
      ((ofFuel (n + 1)).firstOf c before' subject) ((ofFuel (n + 1)).firstOf c before subject) := by
    refine alike_findSomeM? (lasting_const _) hbefore.flip fun s' _ s ⟨hmem, hbecomes⟩ => ?_
    have hrules : s ∈ l.rules := List.mem_append_right _ hmem
    rcases hbecomes with rfl | ⟨rfl, hrc, hsc, hsame⟩
    · obtain ⟨_, hs⟩ := hasks _ (List.mem_cons_of_mem _ hrules)
      exact alike_results (h.applyWith hs rfl)
    · have hreads := hl.reads s hrules
      obtain ⟨_, hr'⟩ := hasks _ List.mem_cons_self
      rw [Rule.applyWith, Rule.applyWith, hliteral, hl.tidy.pattern s hmem]
      exact h.rewriteWith_unconditional
        ((hplaced hrc).renames ⟨attrs, hr⟩ (Rule.sameLhs_symm hsame)) hr'.lhs
        (hr.conditional ▸ hrc) (hreads.conditional ▸ hsc) rfl
  obtain ⟨⟨⟩, -, ⟨hk₂', hk'⟩, hresult⟩ := halike () k₂ k le_rfl ⟨hk₂, hk⟩
  rw [hrun] at hk' hresult
  refine ⟨hk', _, ?_, hk₂'⟩
  generalize ((ofFuel (n + 1)).firstOf c before' subject).run k₂ = outcome at hresult ⊢
  obtain ⟨result, k₂'⟩ := outcome
  cases hresult with
  | ok ho => cases ho; rfl

/-- A rule that made something of a subject makes the same of it from another kernel. -/
theorem Pure.run_applyWith (h : (ofFuel n).Pure c inv asks defaults) {names : Symbol → Prop}
    (hasks : q.AsksOnly names asks defaults) (hk : inv k) (hk₂ : inv k₂)
    (hrun : (q.applyWith ((ofFuel (n + 1)).rewrite c) subject).run k = (.ok (some v), k')) :
    ∃ v' k₂', (q.applyWith ((ofFuel (n + 1)).rewrite c) subject).run k₂ = (.ok (some v'), k₂') ∧
      v.strip = v'.strip := by
  obtain ⟨⟨⟩, -, -, hresult⟩ := h.applyWith hasks (t := subject) rfl () k k₂ le_rfl ⟨hk, hk₂⟩
  have hresult : bare.Outcomes () bare.Maybe
      ((q.applyWith ((ofFuel (n + 1)).rewrite c) subject).run k).1
      ((q.applyWith ((ofFuel (n + 1)).rewrite c) subject).run k₂).1 := hresult
  rw [hrun] at hresult
  generalize (q.applyWith ((ofFuel (n + 1)).rewrite c) subject).run k₂ = outcome at hresult ⊢
  obtain ⟨result, k₂'⟩ := outcome
  cases hresult with
  | ok ho =>
      cases ho with
      | some hv => exact ⟨_, k₂', rfl, hv⟩

end Evaluator

/-- A rule of a list and a new one with the same left-hand side, one of which carries a test, are
both kept.  Unless the new one is a constant rule, and provided that its left-hand side has its
names in place if it carries no test, lookups that the old rule answered before it answers
after the change as well, with the same result, if what the rules ask for has no side effects. -/
theorem RuleList.Built.insert_conditional {attrs : Symbol → Attributes} {l : RuleList}
    (hl : l.Built attrs) {q r : Rule} (hq : q ∈ l.rules) (hr : r.Reads attrs)
    (hsame : q.sameLhs r = true) (hcond : q.conditional = true ∨ r.conditional = true) :
    [q, r].Subperm (l.insert r).rules ∧
    (r.literal = false → (r.conditional = false → r.Placed) →
      ∀ (c : ContextId) (n : Nat) (inv : Kernel → Prop) (asks : Term → Prop) (defaults : Prop),
      (Evaluator.ofFuel n).Pure c inv asks defaults → (∀ k, inv k → k.attributes = attrs) →
      (∀ s ∈ r :: l.rules, ∃ names, s.AsksOnly names asks defaults) →
      ∀ (subject : Term) (k k₁ k₂ : Kernel) (v : Term), inv k → inv k₂ →
      (Evaluator.ofFuel (n + 1)).AnswersBy c l subject k q v k₁ →
        (((Evaluator.ofFuel (n + 1)).find? c l subject).run k).1 = .ok (some v) ∧
        ∃ v' k₃, (Evaluator.ofFuel (n + 1)).AnswersBy c (l.insert r) subject k₂ q v' k₃ ∧
          (((Evaluator.ofFuel (n + 1)).find? c (l.insert r) subject).run k₂).1 = .ok (some v') ∧
          (v == v') = true) := by
  have hfresh := hl.fresh
  refine ⟨hfresh.tidy.insert_subperm hq ⟨attrs, hr⟩ hcond, ?_⟩
  intro hliteral hplaced c n inv asks defaults h hattrs hasks subject k k₁ k₂ v hk hk₂ hanswers
  refine ⟨by rw [hanswers.run_find? hfresh.tidy], ?_⟩
  obtain ⟨before, after, k', htried, hbefore, hanswer⟩ := hanswers
  rw [hattrs k hk] at htried
  obtain ⟨before', after', htried', hplaces⟩ := hfresh.exists_tried_insert hr hliteral hplaced
    hsame hcond k.structureEpoch k₂.structureEpoch htried
  obtain ⟨hk', k₂', hbefore', hk₂'⟩ :=
    h.run_before hfresh hr hasks hliteral hplaced hplaces hk hk₂ hbefore
  -- the old rule is reached from another kernel, and makes of the subject what it made before
  obtain ⟨_, hqasks⟩ := hasks q (List.mem_cons_of_mem _ hq)
  obtain ⟨v', k₃, hanswer', hv⟩ := h.run_applyWith hqasks hk' hk₂' hanswer
  have hanswers : (Evaluator.ofFuel (n + 1)).AnswersBy c (l.insert r) subject k₂ q v' k₃ :=
    ⟨before', after', k₂', by rw [hattrs k₂ hk₂]; exact htried', hbefore', hanswer'⟩
  refine ⟨v', k₃, hanswers, ?_, (Term.beq_iff_strip _ _).mpr hv⟩
  rw [hanswers.run_find? (hfresh.insert hr).tidy]

/-- The rule `{1} :> rhs`. -/
def listOneRule (rhs : Term) : Rule :=
  .make (Kernel.new {}).attributes (.app .list [.int 1]) rhs .delayed

/-- The rule `{x_} :> value /; True`, for a name `x`. -/
def testedListRule (name : Symbol) (value : Int64) : Rule :=
  .make (Kernel.new {}).attributes
    (.app .list [.app .pattern [.symbol name, .app .blank []]])
    (.app .condition [.int value, .symbol .isTrue]) .delayed

/-- `{x_} :> 1 /; True` goes on to answer for `{5}` after `{y_} :> 2` was added. -/
theorem insert_conditional_list : ∃ v,
    (((Evaluator.ofFuel 2).find? ⟨0⟩
      ((RuleList.empty.insert (testedListRule ⟨40, "x"⟩ 1)).insert (listRule ⟨41, "y"⟩ 2))
      (.app .list [.int 5])).run Evaluator.newKernel).1 = .ok (some v) ∧
    (.int 1 == v) = true := by
  have hbuilt : (RuleList.empty.insert (testedListRule ⟨40, "x"⟩ 1)).Built
      (Kernel.new {}).attributes := .insert _ _ _ .empty
  have hplaced : (listRule ⟨41, "y"⟩ 2).Placed := ⟨.inl rfl, ⟨rfl, rfl, nofun⟩, trivial⟩
  -- the old rule asks for `True`, which its name does not hide, and the new one for nothing
  have hasks : ∀ s ∈ [listRule ⟨41, "y"⟩ 2, testedListRule ⟨40, "x"⟩ 1], ∃ names,
      s.AsksOnly names (fun t => ∃ s, s = .isTrue ∧ t = .symbol s) False := by
    refine List.forall_mem_cons.mpr ⟨?_, List.forall_mem_singleton.mpr ?_⟩
    · refine ⟨(· = ⟨41, "y"⟩), ⟨trivial, trivial, ⟨rfl, trivial⟩, trivial⟩, ?_⟩
      rintro _ _ _ ⟨⟩
    · refine ⟨(· = ⟨40, "x"⟩), ⟨trivial, trivial, ⟨rfl, trivial⟩, trivial⟩, ?_⟩
      rintro _ _ _ ⟨⟩ b hb
      exact ⟨.isTrue, rfl,
        Term.substitute_symbol_of_unbound fun e he => by rw [hb e he]; decide⟩
  have hanswers : (Evaluator.ofFuel 2).AnswersBy ⟨0⟩
      (RuleList.empty.insert (testedListRule ⟨40, "x"⟩ 1)) (.app .list [.int 5])
      Evaluator.newKernel (testedListRule ⟨40, "x"⟩ 1) (.int 1) _ :=
    ⟨[], [], _, rfl, rfl, rfl⟩
  obtain ⟨-, v, -, -, hfind, hv⟩ := (hbuilt.insert_conditional (r := listRule ⟨41, "y"⟩ 2)
    (List.mem_singleton.mpr rfl) rfl rfl (.inl rfl)).2 rfl (fun _ => hplaced) ⟨0⟩ 1 _ _ _
    (Evaluator.pure_of_idle 0 ⟨0⟩ (Kernel.new {}).attributes (· = .isTrue))
    (fun _ h => h.attributes) hasks _ _ _ _ _ resting_newKernel resting_newKernel hanswers
  exact ⟨v, hfind, hv⟩

/-- After `{1} :> 1 /; True` has been joined by `{1} :> 2`, both are in the list, but the newer one
answers for `{1}`. -/
theorem constant_overtakes :
    let q := listOneRule (.app .condition [.int 1, .symbol .isTrue])
    let r := listOneRule (.int 2)
    q.sameLhs r = true ∧ q.conditional = true ∧
    ((RuleList.empty.insert q).insert r).rules = [r, q] ∧
    (((Evaluator.ofFuel 2).find? ⟨0⟩ (RuleList.empty.insert q) (.app .list [.int 1])).run
      Evaluator.newKernel).1 = .ok (some (.int 1)) ∧
    (((Evaluator.ofFuel 2).find? ⟨0⟩ ((RuleList.empty.insert q).insert r)
      (.app .list [.int 1])).run Evaluator.newKernel).1 = .ok (some (.int 2)) :=
  ⟨rfl, rfl, rfl, rfl, rfl⟩

end Termwise
