import Termwise.Proofs.Eval.Match
import Termwise.Proofs.Pattern.Range

/-!
# Termwise.Proofs.Eval.Filling

Before a search in a kernel fills the slots of a call, it compares the number of
arguments with a range that is computed from what is bound so far.  Whatever tests,
defaults and attributes do during the search, and however the search goes on after
the slots, the comparison refuses only calls for which the search would find nothing.
-/

namespace Termwise

/-- Anything may happen. -/
def Outcomes.any : Outcomes := ⟨fun _ => True, fun _ => True, fun _ => True, fun _ _ _ => True⟩

namespace Evaluator

open Pattern

theorem meets_any (r : Evaluator) (c : ContextId) :
    (r.surroundings c).Meets (SearchM.whenDone fun _ => True) .any where
  tick _ _ _ _ _ _ _ := ⟨trivial, trivial⟩
  attributes _ _ _ _ _ _ _ := ⟨trivial, trivial⟩
  share t s k a s' k' _ hrun := by
    cases hrun
    exact ⟨trivial, Term.strip_share t _⟩
  enter _ _ _ _ _ _ _ _ := ⟨trivial, trivial⟩
  evaluate _ _ _ _ _ _ _ _ := ⟨trivial, fun _ => trivial⟩
  default? _ _ _ _ _ _ _ := ⟨trivial, fun _ _ => trivial⟩
  misses _ _ _ _ _ _ _ _ _ _ _ := ⟨trivial, fun _ => trivial⟩

variable {ρ : Type}

/-- When the slots of a call whose head is not flat can be filled with all its arguments, none of
them a run, then their number is in the range that is compared with; so a match is found with the
comparison exactly when it is found without, the same one, and when there is none without, there is
none with it. -/
theorem run_fillWithin_iff_run_fill (r : Evaluator) (c : ContextId) (its : Attributes) (f : Term)
    (ps : List Pattern) (xs : List Term) (b : Bindings) (k : Bindings → SearchM (Option ρ))
    (hflat : its.has .flat = false) (hxs : ∀ x ∈ xs, x.isMarker = false)
    (hlen : xs.length ≤ unbounded) (s : SearchState) (κ : Kernel) :
    (∀ a s' κ', ((fill (r.surroundings c) its f ps xs b k).run s).run κ = (.ok (some a, s'), κ') →
      (totalRange ps b).1 ≤ xs.length ∧ xs.length ≤ (totalRange ps b).2) ∧
    (∀ a s' κ',
      ((fillWithin (r.surroundings c) its f ps xs b k).run s).run κ = (.ok (some a, s'), κ') ↔
        ((fill (r.surroundings c) its f ps xs b k).run s).run κ = (.ok (some a, s'), κ')) ∧
    (∀ s' κ', ((fill (r.surroundings c) its f ps xs b k).run s).run κ = (.ok (none, s'), κ') →
      ∃ s'' κ'',
        ((fillWithin (r.surroundings c) its f ps xs b k).run s).run κ =
          (.ok (none, s''), κ'')) := by
  have hrange : ∀ a s' κ',
      ((fill (r.surroundings c) its f ps xs b k).run s).run κ = (.ok (some a, s'), κ') →
        InRange ps b xs.length := fun a s' κ' hrun =>
    (yields_fill (meets_any r c) hflat hxs hlen (fun _ _ _ _ _ _ _ _ => ⟨trivial, trivial⟩)
      s κ (some a) s' κ' trivial hrun).2 a rfl
  refine ⟨hrange, ?_⟩
  by_cases hin : InRange ps b xs.length
  · rw [fillWithin_of_inRange hin]
    exact ⟨fun _ _ _ => Iff.rfl, fun s' κ' hrun => ⟨s', κ', hrun⟩⟩
  · rw [fillWithin_of_not_inRange hflat hin]
    refine ⟨fun a s' κ' => ⟨fun hrun => ?_, fun hrun => (hin (hrange a s' κ' hrun)).elim⟩,
      fun _ _ _ => ⟨s, κ, rfl⟩⟩
    cases hrun

/-- With `y` bound to the run `2, 3`, the slots `x_, y___, x_` take exactly four arguments; `1, 2,
3, 1` are matched, with the comparison too. -/
theorem run_fillWithin_bound_run :
    ∃ s κ, ((fillWithin (still.surroundings ⟨0⟩) .none (.symbol .list)
        [named ⟨40, "x"⟩ (blank none), named ⟨41, "y"⟩ (blankNullSequence none),
          named ⟨40, "x"⟩ (blank none)]
        [.int 1, .int 2, .int 3, .int 1] ⟨[(⟨41, "y"⟩, .marker [.int 2, .int 3])]⟩
        fun b => pure (some b)).run {}).run newKernel =
          (.ok (some ⟨[(⟨41, "y"⟩, .marker [.int 2, .int 3]), (⟨40, "x"⟩, .int 1)]⟩, s), κ) ∧
      totalRange [named ⟨40, "x"⟩ (blank none), named ⟨41, "y"⟩ (blankNullSequence none),
        named ⟨40, "x"⟩ (blank none)] ⟨[(⟨41, "y"⟩, .marker [.int 2, .int 3])]⟩ = (4, 4) :=
  ⟨_, _, ((run_fillWithin_iff_run_fill still ⟨0⟩ .none (.symbol .list) _
    [.int 1, .int 2, .int 3, .int 1] _ _ rfl (by decide) (by decide) {} newKernel).2.1 _ _ _).mpr
      rfl, rfl⟩

end Evaluator

end Termwise
