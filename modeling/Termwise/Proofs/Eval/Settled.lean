import Termwise.Proofs.Eval.ArgumentOrder
import Termwise.Proofs.Eval.RecollectionRounds

/-!
# Termwise.Proofs.Eval.Settled

Evaluation reaches a fixed point.  Where the reference does not give up, evaluation gives
what it gives, however much is remembered (`Kernel.Faithful.sameOutcome_reference`); and the
result, or a copy of it without a stamp, evaluates to itself
(`Kernel.Faithful.evaluateWith_result`).

The reference gives up on a call whose arguments would be evaluated further in the places to
which dissolving a sequence, flattening or sorting has brought them.  Evaluation does not, and
then remembers a call that is no fixed point (`evaluate_copy_of_held`).
-/

namespace Termwise

open Evaluator

namespace Kernel

/-- In the context evaluation is not interrupted, native code is repeatable, identities stand for
what the ledger says, and what is remembered is a fixed point. -/
structure Faithful (k : Kernel) (c : ContextId) (ledger : List Term) : Prop extends
    k.Repeats c where
  booked : k.Booked c ledger
  fixed : k.RemembersFixed c ledger k

variable {k k' : Kernel} {c : ContextId} {ledger : List Term} {fuel fuel' depth : Nat}
  {w : Ledgers} {t v : Term}

/-- Where nothing is remembered, nothing but fixed points is. -/
theorem remembersFixed_of_unstamped (hunstamped : ∀ i, k.stamps.getD i 0 < k.generation) :
    k.RemembersFixed c ledger k := by
  intro i t _ hstamp _
  have hstale := hunstamped i
  unfold stampGeneration? at hstamp
  split at hstamp
  · cases hstamp
  · have hequal := Option.some.inj hstamp
    omega

theorem Faithful.recalls (hk : k.Faithful c ledger) :
    k.Recalls c (k.depth c) ⟨ledger, ledger⟩ k where
  toStill := (Stands.refl k).toStill
  depth := rfl
  reports := rfl
  booked := hk.booked
  same := rfl
  fixed := hk.fixed

/-- However much a run has remembered so far, evaluation does what the reference does if that does
not give up. -/
theorem Recalls.outcomes_evaluateWith (hk : k.Repeats c) (hk' : k.Recalls c (k.depth c) w k')
    (ht : t.Booked w.first) (hroom : k.depth c + depth ≤ k.config.maxRecursion)
    (hfuel : fuel ≤ fuel') (hout : (k.reference c fuel depth).evaluate t ≠ .error .outOfFuel) :
    ∃ w', w ≤ w' ∧ k.Recalls c (k.depth c) w' ((evaluateWith fuel' c t).run k').2 ∧
      Likeness.structural.Outcomes w' Likeness.structural.Like
        ((evaluateWith fuel' c t).run k').1 ((k.reference c fuel depth).evaluate t) := by
  have hlike : Likeness.structural.Like w t t := ⟨rfl, ht, by rwa [hk'.same]⟩
  exact (follows_ofFuel hk hfuel hroom).evaluate hlike hout w k' le_rfl hk'

theorem Recalls.exists_evaluateWith (hk : k.Repeats c) (hk' : k.Recalls c (k.depth c) w k')
    (ht : t.Booked w.first) (hroom : k.depth c + depth ≤ k.config.maxRecursion)
    (hfuel : fuel ≤ fuel') (hv : (k.reference c fuel depth).evaluate t = .ok v) :
    ∃ u k'' w', (evaluateWith fuel' c t).run k' = (.ok u, k'') ∧ u.strip = v ∧ w ≤ w' ∧
      u.Booked w'.first ∧ k.Recalls c (k.depth c) w' k'' := by
  obtain ⟨w', hw', hk'', hresult⟩ := hk'.outcomes_evaluateWith hk ht hroom hfuel
    (by rw [hv]; exact nofun)
  rw [hv] at hresult
  rcases hrun : (evaluateWith fuel' c t).run k' with ⟨result, k''⟩
  rw [hrun] at hk'' hresult
  cases hresult with
  | ok hlike =>
      refine ⟨_, k'', w', rfl, ?_, hw', hlike.2.1, hk''⟩
      rw [hlike.1, (k.reference_idempotent c fuel depth).strip_eq hv]

/-- Evaluation does what the reference does if that does not give up. -/
theorem Faithful.sameOutcome_reference (hk : k.Faithful c ledger) (ht : t.Booked ledger)
    (hroom : k.depth c + depth ≤ k.config.maxRecursion) (hfuel : fuel ≤ fuel')
    (hout : (k.reference c fuel depth).evaluate t ≠ .error .outOfFuel) :
    SameOutcome ((evaluateWith fuel' c t).run k).1 ((k.reference c fuel depth).evaluate t) ∧
      ((evaluateWith fuel' c t).run k).2.reports = k.reports := by
  obtain ⟨w, -, hk', hresult⟩ := hk.recalls.outcomes_evaluateWith hk.toRepeats ht hroom hfuel hout
  exact ⟨sameOutcome_of_outcomes hresult, hk'.reports⟩

/-- What evaluation gives, and a copy of it without identities, evaluate to an equal term in the
kernel left behind, and no limit is reported: provided evaluation that remembers nothing comes to
a result, without rearranging a call whose arguments would be evaluated further in their new
places. -/
theorem Faithful.evaluateWith_result (hk : k.Faithful c ledger) (ht : t.Booked ledger)
    (hroom : k.depth c + depth ≤ k.config.maxRecursion)
    (hv : (k.reference c fuel depth).evaluate t = .ok v) (hfuel : fuel ≤ fuel') :
    ∃ u k', (evaluateWith fuel' c t).run k = (.ok u, k') ∧ u.strip = v ∧
      k'.reports = k.reports ∧ ∀ u' ∈ [u, u.strip], ∃ u'' k'',
        (evaluateWith fuel' c u').run k' = (.ok u'', k'') ∧ u''.strip = u.strip ∧
          k''.reports = k.reports := by
  have he := k.reference_idempotent c fuel depth
  obtain ⟨u, k', w, hrun, rfl, -, hu, hk'⟩ :=
    hk.recalls.exists_evaluateWith hk.toRepeats ht hroom hfuel hv
  refine ⟨u, k', hrun, rfl, hk'.reports, fun u' hu' => ?_⟩
  have hsame : u'.strip = u.strip ∧ u'.Booked w.first := by
    rcases List.mem_pair.mp hu' with rfl | rfl
    · exact ⟨rfl, hu⟩
    · exact ⟨u.strip_strip, Term.booked_strip u⟩
  have hfixed : (k.reference c fuel depth).evaluate u' = .ok u.strip := by
    rw [← he.evaluate_strip, hsame.1]
    exact he.evaluate_eq hv
  obtain ⟨u'', k'', w', hrun', hstrip, -, -, hk''⟩ :=
    hk'.exists_evaluateWith hk.toRepeats hsame.2 hroom hfuel hfixed
  exact ⟨u'', k'', hrun', hstrip, hk''.reports⟩

/-- Where nothing is defined in a context of its own, and no node has been named, a kernel is
faithful. -/
theorem faithful_of_undefined (hk : k.Structural) (hknown : c.index < k.contexts.size)
    (hquiet : k.Quiet c) (hgeneration : 0 < k.generation) (hstamps : k.stamps = #[0])
    (hbooked : k.Booked c ledger) : k.Faithful c ledger where
  known := hknown
  quiet := hquiet
  generation := hgeneration
  functions s usage f hf := hk s usage (.function f) hf
  booked := hbooked
  fixed := by
    refine remembersFixed_of_unstamped fun i => ?_
    have hzero : k.stamps.getD i 0 = 0 := by
      rw [hstamps]
      cases i <;> rfl
    rwa [hzero]

end Kernel

/-! ## a flat symbol -/

/-- A kernel where `x` is flat. -/
def flatKernel : Kernel :=
  (namedKernel {}).storeAttributes ⟨38, "x"⟩ (Attributes.none.insert .flat)

theorem faithful_flatKernel : flatKernel.Faithful ⟨0⟩ [.int 0] :=
  Kernel.faithful_of_undefined (Kernel.structural_of_all (by decide +kernel)) (by decide +kernel)
    ⟨rfl, rfl⟩ (by decide +kernel) rfl
    (Kernel.booked_of_undefined rfl (by decide +kernel) rfl rfl rfl nofun)

/-- `x(Sequence(2, 1), x(0))`. -/
def nestedCall : Term :=
  .app ⟨38, "x"⟩ [.app .sequence [.int 2, .int 1], .app ⟨38, "x"⟩ [.int 0]]

/-- `x(2, 1, 0)`. -/
def flatCall : Term := .app ⟨38, "x"⟩ [.int 2, .int 1, .int 0]

theorem reference_nestedCall :
    (flatKernel.reference ⟨0⟩ 5 5).evaluate nestedCall = .ok flatCall := by
  have hcheck : ((flatKernel.reference ⟨0⟩ 5 5).evaluate nestedCall).toOption.any
      (· == flatCall) = true := by decide +kernel
  cases hv : (flatKernel.reference ⟨0⟩ 5 5).evaluate nestedCall with
  | ok v =>
      rw [hv] at hcheck
      have hstrip := (Term.beq_iff_strip v flatCall).mp hcheck
      rw [(flatKernel.reference_idempotent ⟨0⟩ 5 5).strip_eq hv] at hstrip
      rw [hstrip]
      rfl
  | error e =>
      rw [hv] at hcheck
      cases hcheck

/-- `x(Sequence(2, 1), x(0))` gives `x(2, 1, 0)`, and that, or a copy of it, evaluates to itself. -/
theorem evaluateWith_result_of_flat : ∃ u k',
    (evaluateWith 5 ⟨0⟩ nestedCall).run flatKernel = (.ok u, k') ∧ u.strip = flatCall ∧
      k'.reports = flatKernel.reports ∧ ∀ u' ∈ [u, u.strip], ∃ u'' k'',
        (evaluateWith 5 ⟨0⟩ u').run k' = (.ok u'', k'') ∧ u''.strip = u.strip ∧
          k''.reports = flatKernel.reports :=
  faithful_flatKernel.evaluateWith_result (Term.booked_strip nestedCall) (by decide +kernel)
    reference_nestedCall le_rfl

end Termwise
