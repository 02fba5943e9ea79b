import Termwise.Proofs.Eval.Pure
import Termwise.Proofs.Rule.History

/-!
# Termwise.Proofs.Rule.Interchange

What it means that two rules have the same left-hand side (`Rule.sameLhs`).  If the names of the
one occur only where they name a part, and in tests that run when they are bound, the other
matches the same subjects, and so a rule that gives way to a new one leaves no subject uncovered
(`Evaluator.Pure.isMatch_of_sameLhs`).

Renaming goes further than that: it goes through symbols that merely stand for themselves,
and `{y_, y}` takes the place of `{x_, x}` although it does not match `{1, x}`
(`renamed_constant_uncovers`).
-/

namespace Termwise

open Likeness

/-- The left-hand side of a rule has its names in place. -/
def Rule.Placed (r : Rule) : Prop :=
  (Pattern.ofTerm r.lhs).Placed r.lhs.patternNames fun _ => False

theorem Rule.Placed.renames {q s : Rule} (hplaced : q.Placed) (hq : q.Made)
    (h : q.sameLhs s = true) :
    bare.Renames (q.names.naming s.names) (.all bare) () (fun _ => False) (.ofTerm q.lhs)
      (.ofTerm s.lhs) := by
  obtain ⟨attrs, hreads⟩ := hq
  rw [Rule.Placed, ← hreads.names] at hplaced
  exact renames_ofTerm (Rule.sameLhs_iff.mp h).2 hplaced

/-- Of two rules with the same left-hand side, the names of the first in their places and what it
asks for without side effects, both match a subject, or neither, or both fail alike; and a subject
that is matched by a rule which gives way to a new one is matched by that. -/
theorem Evaluator.Pure.isMatch_of_sameLhs {r : Evaluator} {c : ContextId} {inv : Kernel → Prop}
    {asks : Term → Prop} {defaults : Prop} (h : r.Pure c inv asks defaults) {q s : Rule}
    (hq : q.Made) (hplaced : q.Placed) {names : Symbol → Prop}
    (hasks : (Pattern.ofTerm q.lhs).Every (Pattern.AsksOnly names asks defaults)) :
    (q.sameLhs s = true → ∀ (subject : Term) (k k' : Kernel), inv k → inv k' →
      bare.Outcomes () (fun _ => Eq) ((r.isMatch c subject q.lhs).run k).1
        ((r.isMatch c subject s.lhs).run k').1) ∧
    ∀ l : RuleList, q ∈ l.rules → q ∉ (l.insert s).rules → ∀ (subject : Term) (k k' : Kernel),
      inv k → inv k' → ((r.isMatch c subject q.lhs).run k).1 = .ok true →
        ((r.isMatch c subject s.lhs).run k').1 = .ok true := by
  have hsame : q.sameLhs s = true → ∀ (subject : Term) (k k' : Kernel), inv k → inv k' →
      bare.Outcomes () (fun _ => Eq) ((r.isMatch c subject q.lhs).run k).1
        ((r.isMatch c subject s.lhs).run k').1 := fun hsame _ _ _ hk hk' =>
    h.isMatch (hplaced.renames hq hsame) hasks rfl hk hk'
  refine ⟨hsame, fun l hmem hgone subject k k' hk hk' hmatch => ?_⟩
  have halike : bare.Outcomes () (fun _ => Eq) ((r.isMatch c subject q.lhs).run k).1
      ((r.isMatch c subject s.lhs).run k').1 := by
    rcases (RuleList.mem_insert_or hmem).resolve_left hgone with hagree | hequal
    · exact hsame hagree subject k k' hk hk'
    · have hstrip : bare.Like () q.lhs s.lhs := (Term.beq_iff_strip _ _).mp hequal
      exact h.isMatch ((patterns_ofTerm hstrip).renames _) hasks rfl hk hk'
  rw [hmatch] at halike
  generalize ((r.isMatch c subject s.lhs).run k').1 = outcome at halike
  cases halike with
  | ok hv => rw [← hv]

/-- A new kernel with its first context, in which nothing is found for `True`. -/
theorem resting_newKernel : Evaluator.newKernel.Resting ⟨0⟩ (Kernel.new {}).attributes
    (· = .isTrue) where
  quiet := Evaluator.quiet_newKernel
  attributes := rfl
  idle := by
    rintro _ rfl
    exact .inr ⟨rfl, Kernel.rules?_new {} .isTrue .own⟩

/-- The rule `{x_ /; True} :> value`, for a name `x`. -/
def guardedRule (name : Symbol) (value : Int64) : Rule :=
  .make (Kernel.new {}).attributes
    (.app .list [.app .condition [.app .pattern [.symbol name, .app .blank []], .symbol .isTrue]])
    (.int value) .delayed

/-- `{y_ /; True} :> 2` takes the place of `{x_ /; True} :> 1` and matches `{5}` as well. -/
theorem isMatch_of_sameLhs_guarded :
    (((Evaluator.ofFuel 1).isMatch ⟨0⟩ (.app .list [.int 5])
      (guardedRule ⟨41, "y"⟩ 2).lhs).run Evaluator.newKernel).1 = .ok true := by
  have hplaced : (guardedRule ⟨40, "x"⟩ 1).Placed :=
    ⟨.inl rfl, ⟨rfl, ⟨rfl, rfl, nofun⟩, .inl rfl⟩, trivial⟩
  -- the name that the pattern binds is not `True`, so the test stays what it is
  have hasks : (Pattern.ofTerm (guardedRule ⟨40, "x"⟩ 1).lhs).Every
      (Pattern.AsksOnly (· = ⟨40, "x"⟩) (fun t => ∃ s, s = .isTrue ∧ t = .symbol s) False) := by
    refine ⟨trivial, trivial, ⟨fun b hb => ⟨.isTrue, rfl, ?_⟩, rfl, trivial⟩, trivial⟩
    exact Term.substitute_symbol_of_unbound fun e he => by rw [hb e he]; decide
  have hgone : guardedRule ⟨40, "x"⟩ 1 ∉
      ((RuleList.empty.insert (guardedRule ⟨40, "x"⟩ 1)).insert
        (guardedRule ⟨41, "y"⟩ 2)).rules := fun hmem => by
    have hrhs := congrArg Rule.rhs (List.mem_singleton.mp hmem)
    exact absurd (Term.int.inj hrhs) (by decide)
  exact ((Evaluator.pure_of_idle 0 ⟨0⟩ (Kernel.new {}).attributes (· = .isTrue)).isMatch_of_sameLhs
    (q := guardedRule ⟨40, "x"⟩ 1) (s := guardedRule ⟨41, "y"⟩ 2) ⟨_, rfl⟩ hplaced hasks).2
    (RuleList.empty.insert (guardedRule ⟨40, "x"⟩ 1)) (List.mem_singleton.mpr rfl) hgone
    (.app .list [.int 5]) Evaluator.newKernel Evaluator.newKernel resting_newKernel
    resting_newKernel rfl

/-- The rule `{x_, x} :> value`, for a name `x`. -/
def repeatingRule (name : Symbol) (value : Int64) : Rule :=
  .make (Kernel.new {}).attributes
    (.app .list [.app .pattern [.symbol name, .app .blank []], .symbol name]) (.int value) .delayed

/-- `{y_, y} :> 2` takes the place of `{x_, x} :> 1`, which matches `{1, x}`, but does not match
it. -/
theorem renamed_constant_uncovers :
    (repeatingRule ⟨40, "x"⟩ 1).sameLhs (repeatingRule ⟨41, "y"⟩ 2) = true ∧
    ((RuleList.empty.insert (repeatingRule ⟨40, "x"⟩ 1)).insert
      (repeatingRule ⟨41, "y"⟩ 2)).rules = [repeatingRule ⟨41, "y"⟩ 2] ∧
    ((Evaluator.full.isMatch ⟨0⟩ (.app .list [.int 1, .symbol ⟨40, "x"⟩])
      (repeatingRule ⟨40, "x"⟩ 1).lhs).run Evaluator.newKernel).1 = .ok true ∧
    ((Evaluator.full.isMatch ⟨0⟩ (.app .list [.int 1, .symbol ⟨40, "x"⟩])
      (repeatingRule ⟨41, "y"⟩ 2).lhs).run Evaluator.newKernel).1 = .ok false :=
  ⟨rfl, rfl, rfl, rfl⟩

end Termwise
