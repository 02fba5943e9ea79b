import Termwise.Proofs.Eval.Settled

/-!
# Termwise.Proofs.Eval.SettledOrder

The order of arguments where results are remembered.  The reference gives the same for two
calls of an orderless symbol on arguments that evaluate to themselves, in whatever order, if
it gives up on neither (`Kernel.reference_perm`).  Evaluation does what the reference does, so
it gives the same as well (`Kernel.Faithful.evaluateWith_reordered`).

A round also ends when it gives back the call it was started on.  That may end evaluation of
one of the two calls, while the other is rewritten to it; but then the next round of that
ends in the same way (`Reference.evaluateRounds_overtaken`).
-/

namespace Termwise

open Evaluator

/-! ## calls of an orderless symbol -/

namespace Callees

variable {e : Callees (Except EvalError)} {k : Kernel} {c : ContextId} {attrs : Attributes}
  {s : Symbol} {i : Nat} {ts xs ys : List Term}

/-- Arguments that evaluate to themselves are left alone. -/
theorem evaluateArgs_of_fixed (hfree : ∀ i, attrs.holds i = false)
    (hfixed : ∀ t ∈ ts, e.evaluate t = .ok t.strip) :
    e.evaluateArgs attrs i ts = .ok (ts.map Term.strip) := by
  have hcomplete : attrs.has .holdAllComplete = false := (Bool.or_eq_false_iff.mp (hfree 0)).1
  induction ts generalizing i with
  | nil => rfl
  | cons t ts ih =>
      obtain ⟨ht, hts⟩ := List.forall_mem_cons.mp hfixed
      have harg : e.evaluateArg attrs i t = .ok t.strip := by
        rw [evaluateArg, hcomplete, hfree i]
        exact ht
      rw [evaluateArgs, harg, Except.bind_ok, ih hts]
      rfl

/-- Where the reference does not give up on arguments, it does not give up on one of them. -/
theorem evaluate_of_evaluateArgs (hfree : ∀ i, attrs.holds i = false)
    (hkeeps : ∀ t ∈ ts, e.evaluate t ≠ .error .outOfFuel → e.evaluate t = .ok t.strip)
    (hout : e.evaluateArgs attrs i ts ≠ .error .outOfFuel) :
    ∀ t ∈ ts, e.evaluate t = .ok t.strip := by
  have hcomplete : attrs.has .holdAllComplete = false := (Bool.or_eq_false_iff.mp (hfree 0)).1
  have harg : ∀ i t, e.evaluateArg attrs i t = e.evaluate t := fun i t => by
    rw [evaluateArg, hcomplete, hfree i]
    rfl
  induction ts generalizing i with
  | nil =>
      intro t ht
      cases ht
  | cons t ts ih =>
      rw [evaluateArgs, harg] at hout
      obtain ⟨ht, hts⟩ := List.forall_mem_cons.mp hkeeps
      have ht := ht fun hgivesUp => hout (by rw [hgivesUp]; rfl)
      rw [ht, Except.bind_ok] at hout
      exact List.forall_mem_cons.mpr
        ⟨ht, ih hts (i := i + 1) fun hgivesUp => hout (by rw [hgivesUp]; rfl)⟩

/-- A round on a call of parts that evaluate to themselves is about its normal form, unless the
reference gives up. -/
theorem Idempotent.evaluateParts_of_fixed (he : e.Idempotent) (hkernel : e.kernel = .ok k)
    (hattrs : (k.attributes s).Sorting) (hhead : e.evaluate (.symbol s) = .ok (.symbol s))
    (hargs : ∀ t ∈ ts, e.evaluate t = .ok t.strip)
    (hout : e.evaluateParts c (.call (.symbol s) (ts.map Term.strip)) ≠ .error .outOfFuel) :
    e.evaluateParts c (.call (.symbol s) (ts.map Term.strip)) =
      e.finishCall c (k.attributes s) (some s)
        (normalCall (k.attributes s) s (ts.map Term.strip)) := by
  have hevaluated : e.evaluateArgs (k.attributes s) 1 (ts.map Term.strip) =
      .ok (ts.map Term.strip) := by
    rw [he.evaluateArgs_strip, evaluateArgs_of_fixed hattrs.free hargs]
  have harranged : arranged (k.attributes s) (.call (.symbol s) (ts.map Term.strip)) =
      .done (normalCall (k.attributes s) s (ts.map Term.strip)) := by
    rw [arranged, hattrs.unthreaded]
    rfl
  have hparts : e.evaluateParts c (.call (.symbol s) (ts.map Term.strip)) =
      e.arrangeCall c (k.attributes s) (.symbol s) (.call (.symbol s) (ts.map Term.strip)) := by
    rw [evaluateParts, Term.call, Term.key, hhead, Except.bind_ok, hkernel, Except.bind_ok]
    dsimp only [symbol?]
    rw [Term.args, hevaluated, Except.bind_ok]
    rfl
  rw [hparts, arrangeCall, harranged] at hout ⊢
  dsimp only at hout ⊢
  split
  · rfl
  · rename_i hunsettled
    rw [if_neg hunsettled] at hout
    exact absurd rfl hout

/-- Where the reference does not give up on a call, it does not give up on its parts. -/
theorem Idempotent.fixed_of_evaluateParts (he : e.Idempotent) (hkernel : e.kernel = .ok k)
    (hattrs : (k.attributes s).Sorting)
    (hkeeps : ∀ t ∈ .symbol s :: ts, e.evaluate t ≠ .error .outOfFuel →
      e.evaluate t = .ok t.strip)
    (hout : e.evaluateParts c (.call (.symbol s) (ts.map Term.strip)) ≠ .error .outOfFuel) :
    e.evaluate (.symbol s) = .ok (.symbol s) ∧ ∀ t ∈ ts, e.evaluate t = .ok t.strip := by
  obtain ⟨hhead, hargs⟩ := List.forall_mem_cons.mp hkeeps
  have hhead : e.evaluate (.symbol s) = .ok (.symbol s) := hhead fun hgivesUp => hout (by
    rw [evaluateParts, Term.call, Term.key, hgivesUp]
    rfl)
  refine ⟨hhead, evaluate_of_evaluateArgs hattrs.free hargs (i := 1) fun hgivesUp => hout ?_⟩
  rw [evaluateParts, Term.call, Term.key, hhead, Except.bind_ok, hkernel, Except.bind_ok]
  dsimp only [symbol?]
  rw [Term.args, he.evaluateArgs_strip, hgivesUp]
  rfl

/-- So the order of the arguments makes no difference. -/
theorem Idempotent.evaluateParts_perm (he : e.Idempotent) (hkernel : e.kernel = .ok k)
    (hattrs : (k.attributes s).Sorting) (hhead : e.evaluate (.symbol s) = .ok (.symbol s))
    (hargs : ∀ t ∈ xs, e.evaluate t = .ok t.strip) (hperm : xs.Perm ys)
    (hout : e.evaluateParts c (.call (.symbol s) (xs.map Term.strip)) ≠ .error .outOfFuel)
    (hout' : e.evaluateParts c (.call (.symbol s) (ys.map Term.strip)) ≠ .error .outOfFuel) :
    e.evaluateParts c (.call (.symbol s) (xs.map Term.strip)) =
      e.evaluateParts c (.call (.symbol s) (ys.map Term.strip)) := by
  rw [he.evaluateParts_of_fixed hkernel hattrs hhead hargs hout,
    he.evaluateParts_of_fixed hkernel hattrs hhead
      (fun t ht => hargs t (hperm.mem_iff.mpr ht)) hout']
  exact he.finishCall_congr c _ _
    (strip_rearranged_of_perm hattrs.orderless s ((hperm.map Term.strip).map Term.strip))

end Callees

/-! ## rounds of the reference -/

namespace Reference

variable {E : Nat → Callees (Except EvalError)} {c : ContextId} {depth left : Nat}
  {t t' next : Term} {failure : EvalError}

theorem evaluateRounds_of_error (h : roundStep E c depth t.strip = .error failure) :
    evaluateRounds E c depth left t = .error failure := by
  cases left <;> rw [evaluateRounds, evaluateRound, h] <;> rfl

theorem evaluateRound_of_rewritten (h : roundStep E c depth t.strip = .ok (.rewritten next)) :
    evaluateRound E c depth t =
      .ok (if next == t.strip then .done next.strip else .rewritten next.strip) := by
  rw [evaluateRound, h]
  rfl

/-- Rounds that stop with a term, and those on a term that is rewritten to it, give the same. -/
theorem evaluateRounds_overtaken (h : roundStep E c depth t.strip = .ok (.rewritten next))
    (h' : roundStep E c depth t'.strip = .ok (.rewritten next))
    (hstops : (next == t.strip) = true) (hgoes : (next == t'.strip) = false)
    (hout : evaluateRounds E c depth left t' ≠ .error .outOfFuel) :
    evaluateRounds E c depth left t = evaluateRounds E c depth left t' := by
  have hround := evaluateRound_of_rewritten h
  have hround' := evaluateRound_of_rewritten h'
  rw [if_pos hstops] at hround
  rw [hgoes] at hround'
  rw [evaluateRounds_of_done hround]
  cases left with
  | zero =>
      rw [evaluateRounds, hround'] at hout
      exact absurd rfl hout
  | succ left =>
      have hsame : next.strip = t.strip := by
        rw [(Term.beq_iff_strip _ _).mp hstops, Term.strip_strip]
      rw [evaluateRounds, hround']
      change .ok next.strip = evaluateRounds E c depth left next.strip
      rw [hsame, evaluateRounds_strip, evaluateRounds_of_done hround, hsame]

/-- Rounds on two terms that take the same first step give the same, unless the reference gives up
on one. -/
theorem evaluateRounds_of_step_eq
    (h : roundStep E c depth t.strip = roundStep E c depth t'.strip)
    (hout : evaluateRounds E c depth left t ≠ .error .outOfFuel)
    (hout' : evaluateRounds E c depth left t' ≠ .error .outOfFuel) :
    evaluateRounds E c depth left t = evaluateRounds E c depth left t' := by
  cases hstep : roundStep E c depth t.strip with
  | error failure =>
      rw [evaluateRounds_of_error hstep, evaluateRounds_of_error (h ▸ hstep)]
  | ok step =>
      have hstep' := h ▸ hstep
      cases step with
      | done v =>
          have hround : ∀ {u : Term}, roundStep E c depth u.strip = .ok (.done v) →
              evaluateRounds E c depth left u = .ok v := fun hu =>
            evaluateRounds_of_done (by rw [evaluateRound, hu]; rfl) left
          rw [hround hstep, hround hstep']
      | rewritten next =>
          cases hstops : next == t.strip <;> cases hstops' : next == t'.strip
          case true.false => exact evaluateRounds_overtaken hstep hstep' hstops hstops' hout'
          case false.true =>
            exact (evaluateRounds_overtaken hstep' hstep hstops' hstops hout).symm
          case true.true =>
            have hround := evaluateRound_of_rewritten hstep
            have hround' := evaluateRound_of_rewritten hstep'
            rw [if_pos hstops] at hround
            rw [if_pos hstops'] at hround'
            rw [evaluateRounds_of_done hround, evaluateRounds_of_done hround']
          case false.false =>
            have hround := evaluateRound_of_rewritten hstep
            have hround' := evaluateRound_of_rewritten hstep'
            rw [hstops] at hround
            rw [hstops'] at hround'
            cases left <;> rw [evaluateRounds, evaluateRounds, hround, hround']

end Reference

namespace Kernel

variable {k : Kernel} {c : ContextId} {ledger : List Term} {fuel fuel' depth : Nat} {s : Symbol}
  {xs ys : List Term}

/-- The reference gives the same for a call of an orderless symbol on arguments that evaluate to
themselves whatever their order, unless it gives up. -/
theorem reference_perm (hattrs : (k.attributes s).Sorting)
    (hkeeps : ∀ t ∈ .symbol s :: xs, (k.reference c fuel depth).evaluate t ≠ .error .outOfFuel →
      (k.reference c fuel depth).evaluate t = .ok t.strip) (hperm : xs.Perm ys)
    (hout : (k.reference c (fuel + 1) (depth + 1)).evaluate (.call (.symbol s) xs) ≠
      .error .outOfFuel)
    (hout' : (k.reference c (fuel + 1) (depth + 1)).evaluate (.call (.symbol s) ys) ≠
      .error .outOfFuel) :
    (k.reference c (fuel + 1) (depth + 1)).evaluate (.call (.symbol s) xs) =
      (k.reference c (fuel + 1) (depth + 1)).evaluate (.call (.symbol s) ys) := by
  have hstep : ∀ zs : List Term, Reference.roundStep (k.reference c fuel) c (depth + 1)
      (Term.call (.symbol s) zs).strip =
        (k.reference c fuel depth).evaluateParts c (.call (.symbol s) (zs.map Term.strip)) :=
    fun zs => by
      rw [Term.strip_call]
      rfl
  have hparts : ∀ {zs : List Term}, (k.reference c (fuel + 1) (depth + 1)).evaluate
      (.call (.symbol s) zs) ≠ .error .outOfFuel →
        (k.reference c fuel depth).evaluateParts c (.call (.symbol s) (zs.map Term.strip)) ≠
          .error .outOfFuel := fun {zs} hout hgivesUp =>
    hout (Reference.evaluateRounds_of_error ((hstep zs).trans hgivesUp))
  have he := k.reference_idempotent c fuel depth
  have hkernel : (k.reference c fuel depth).kernel = .ok k := by cases fuel <;> rfl
  obtain ⟨hhead, hargs⟩ := he.fixed_of_evaluateParts hkernel hattrs hkeeps (hparts hout)
  refine Reference.evaluateRounds_of_step_eq ?_ hout hout'
  rw [hstep, hstep]
  exact he.evaluateParts_perm hkernel hattrs hhead hargs hperm (hparts hout) (hparts hout')

/-! ## evaluation -/

/-- What evaluates to itself inside a call does so in the reference, unless that gives up. -/
theorem Faithful.reference_of_keeps (hk : k.Faithful c ledger) {t : Term} (ht : t.Booked ledger)
    (hkeeps : (ofFuel fuel').Keeps c (k.enter c) t) (hfuel : fuel ≤ fuel')
    (hroom : k.depth c + 1 + depth ≤ k.config.maxRecursion)
    (hout : (k.reference c fuel depth).evaluate t ≠ .error .outOfFuel) :
    (k.reference c fuel depth).evaluate t = .ok t.strip := by
  have hstrip := @Callees.Idempotent.strip_eq _ (k.reference_idempotent c fuel depth)
  obtain ⟨v, k', hrun, hv⟩ := hkeeps
  have hlike : Likeness.structural.Like ⟨ledger, ledger⟩ t t := ⟨rfl, ht, ht⟩
  obtain ⟨w, -, -, hresult⟩ := (follows_ofFuel hk.toRepeats hfuel hroom).evaluate hlike hout _ _
    le_rfl (hk.recalls.enter hk.known)
  rw [hrun] at hresult
  cases hu : (k.reference c fuel depth).evaluate t with
  | error failure =>
      rw [hu] at hresult
      cases hresult
  | ok u =>
      rw [hu] at hresult
      cases hresult with
      | ok hlike => rw [← hstrip hu, ← hlike.1, (Term.beq_iff_strip v t).mp hv]

/-- Calls of an orderless symbol on arguments that evaluate to themselves have the same outcome
whatever the order of the arguments, if evaluation that remembers nothing hits no limit on either
and rearranges no call whose arguments would be evaluated further in their new places. -/
theorem Faithful.evaluateWith_reordered (hk : k.Faithful c ledger)
    (hcalls : k.Calls c ledger fuel' s xs) (hperm : xs.Perm ys) (hfuel : fuel ≤ fuel')
    (hroom : k.depth c + 1 + depth ≤ k.config.maxRecursion)
    (hout : (k.reference c (fuel + 1) (depth + 1)).evaluate (.call (.symbol s) xs) ≠
      .error .outOfFuel)
    (hout' : (k.reference c (fuel + 1) (depth + 1)).evaluate (.call (.symbol s) ys) ≠
      .error .outOfFuel) :
    SameOutcome ((evaluateWith (fuel' + 1) c (.call (.symbol s) xs)).run k).1
      ((evaluateWith (fuel' + 1) c (.call (.symbol s) ys)).run k).1 := by
  have hkeeps : ∀ t ∈ .symbol s :: xs, (k.reference c fuel depth).evaluate t ≠
      .error .outOfFuel → (k.reference c fuel depth).evaluate t = .ok t.strip :=
    List.forall_mem_cons.mpr
      ⟨hk.reference_of_keeps (Term.booked_symbol s) hcalls.head hfuel hroom,
        fun x hx => hk.reference_of_keeps (hcalls.booked x hx) (hcalls.args x hx) hfuel hroom⟩
  have hroom : k.depth c + (depth + 1) ≤ k.config.maxRecursion := by omega
  have hsame := (hk.sameOutcome_reference hcalls.term hroom (Nat.succ_le_succ hfuel) hout).1
  have hsame' := (hk.sameOutcome_reference (hcalls.perm hperm).term hroom
    (Nat.succ_le_succ hfuel) hout').1
  rw [reference_perm hcalls.sorting hkeeps hperm hout hout'] at hsame
  exact hsame.trans hsame'.symm

end Kernel

/-! ## a sorted call -/

/-- A kernel where `x` is orderless. -/
def orderlessKernel : Kernel :=
  (namedKernel {}).storeAttributes ⟨38, "x"⟩ (Attributes.none.insert .orderless)

theorem faithful_orderlessKernel : orderlessKernel.Faithful ⟨0⟩ [.int 0] :=
  Kernel.faithful_of_undefined (Kernel.structural_of_all (by decide +kernel)) (by decide +kernel)
    ⟨rfl, rfl⟩ (by decide +kernel) rfl
    (Kernel.booked_of_undefined rfl (by decide +kernel) rfl rfl rfl nofun)

theorem calls_orderlessKernel :
    orderlessKernel.Calls ⟨0⟩ [.int 0] 5 ⟨38, "x"⟩ [.app .sequence [], .int 1] where
  known := by decide +kernel
  within := by decide +kernel
  sorting := by
    refine ⟨by decide +kernel, fun i => ?_, by decide +kernel⟩
    rw [Attributes.holds]
    split <;> decide +kernel
  booked := by
    have hsequence : (Term.app .sequence []).Booked [.int 0] :=
      Term.booked_call (Term.booked_symbol _) nofun
    exact List.forall_mem_cons.mpr ⟨hsequence, List.forall_mem_singleton.mpr (.inl rfl)⟩
  head := keeps_of_succeedsWith (by decide +kernel)
  args := by
    refine List.forall_mem_cons.mpr ⟨?_, List.forall_mem_singleton.mpr ?_⟩
    · exact keeps_of_succeedsWith (by decide +kernel)
    · exact keeps_of_succeedsWith (by decide +kernel)

theorem ne_error_of_isSome {result : Except EvalError Term} {failure : EvalError}
    (h : result.toOption.isSome = true) : result ≠ .error failure := by
  rintro rfl
  cases h

/-- `x(Sequence(), 1)` and `x(1, Sequence())` have the same outcome. -/
theorem evaluateWith_reordered_of_orderless :
    let outcome := fun xs =>
      ((evaluateWith 6 ⟨0⟩ (.call (.symbol ⟨38, "x"⟩) xs)).run orderlessKernel).1
    SameOutcome (outcome [.app .sequence [], .int 1])
      (outcome [.int 1, .app .sequence []]) := by
  have hout : ((orderlessKernel.reference ⟨0⟩ 6 6).evaluate
      (.call (.symbol ⟨38, "x"⟩) [.app .sequence [], .int 1])) ≠ .error .outOfFuel :=
    ne_error_of_isSome (by decide +kernel)
  have hout' : ((orderlessKernel.reference ⟨0⟩ 6 6).evaluate
      (.call (.symbol ⟨38, "x"⟩) [.int 1, .app .sequence []])) ≠ .error .outOfFuel :=
    ne_error_of_isSome (by decide +kernel)
  exact faithful_orderlessKernel.evaluateWith_reordered calls_orderlessKernel
    (List.Perm.swap _ _ _) le_rfl (by decide +kernel) hout hout'

end Termwise
