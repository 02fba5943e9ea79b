import Termwise.Eval.Define
import Termwise.Eval.Evaluate
import Termwise.Proofs.Eval.Match
import Termwise.Proofs.Pattern.Union

/-!
# Termwise.Proofs.Eval.Alternatives

Matching with alternatives among the arguments of a call, in a kernel: the answer is
the one for the first alternative or the one for the second alternative
(`isMatch_alternatives_iff`).

Each alternative is tried on what was prepared for both, which makes two exceptions
(`isMatch_alternatives_mixed`):

* inside a flat call the value of a slot is made once; an alternative that takes runs
  wrapped in the head and one that takes them as they are cannot both get theirs;
* an implicit default is looked up for the slot entered last; an alternative that
  enters slots of its own does not go back to the slot around it.
-/

namespace Termwise

namespace Evaluator

/-- A call with two alternatives as one of its arguments matches what it matches with the first one
or with the second one in their place, from whatever kernels that show the same; without pending
aborts all three questions are answered.  The alternatives bind no name, optional patterns carry
their defaults unless none are defined, and where the subject is a call of a flat head, both
alternatives take runs of arguments as calls of that head, or neither does. -/
theorem isMatch_alternatives_iff (r : Evaluator) (c : ContextId) (subject p q : Term)
    (C : Term.OpenCall) (i i₁ i₂ m : Nat) {attrs : Symbol → Attributes} {absent : Prop}
    {k k₁ k₂ : Kernel}
    (heither :
      (Pattern.ofTerm (C.fill i (.node m (.symbol .alternatives) [p, q]))).isCall = true)
    (hfirst : (Pattern.ofTerm (C.fill i₁ p)).isCall = true)
    (hsecond : (Pattern.ofTerm (C.fill i₂ q)).isCall = true)
    (hsettled : (Pattern.ofTerm (C.fill i (.node m (.symbol .alternatives) [p, q]))).Every
      (Pattern.SettledOr absent False))
    (hp : (Pattern.ofTerm p).names = []) (hq : (Pattern.ofTerm q).names = [])
    (hflat : (subject.headAttributes attrs).has .flat = true →
      (Pattern.ofTerm p).regroups = (Pattern.ofTerm q).regroups)
    (hsubject : subject.Ordinary) (hk : k.Shows attrs absent)
    (hk₁ : k₁.Shows attrs absent) (hk₂ : k₂.Shows attrs absent) :
    (∀ v v₁ v₂ k' k₁' k₂',
      (r.isMatch c subject (C.fill i (.node m (.symbol .alternatives) [p, q]))).run k =
        (.ok v, k') →
      (r.isMatch c subject (C.fill i₁ p)).run k₁ = (.ok v₁, k₁') →
      (r.isMatch c subject (C.fill i₂ q)).run k₂ = (.ok v₂, k₂') → v = (v₁ || v₂)) ∧
      (k.Quiet c → k₁.Quiet c → k₂.Quiet c → ∃ v₁ v₂ k' k₁' k₂',
        (r.isMatch c subject (C.fill i (.node m (.symbol .alternatives) [p, q]))).run k =
          (.ok (v₁ || v₂), k') ∧
        (r.isMatch c subject (C.fill i₁ p)).run k₁ = (.ok v₁, k₁') ∧
        (r.isMatch c subject (C.fill i₂ q)).run k₂ = (.ok v₂, k₂')) := by
  have hcall : ∀ whole head args, Pattern.SettledOr absent False (.call whole head args) :=
    fun _ _ _ => trivial
  have hsettled₁ := Pattern.every_fill hcall heither hfirst hsettled fun h => h.2.1
  have hsettled₂ := Pattern.every_fill hcall heither hsecond hsettled fun h => h.2.2.1
  refine (fun hagree => ⟨hagree, fun hquiet hquiet₁ hquiet₂ => ?_⟩)
    fun v v₁ v₂ k' k₁' k₂' hrun hrun₁ hrun₂ => ?_
  · rw [Bool.eq_iff_iff, Bool.or_eq_true,
      run_isMatch_eq_ok_of_shows hk hsettled hrun fun _ => true,
      run_isMatch_eq_ok_of_shows hk₁ hsettled₁ hrun₁ fun _ => true,
      run_isMatch_eq_ok_of_shows hk₂ hsettled₂ hrun₂ fun _ => true, ← exists_or]
    refine exists_congr fun b => ?_
    refine Pattern.mem_solutions_call_alternatives hp hq (Pattern.ofTerm_fill heither)
      (Pattern.ofTerm_fill hfirst) (Pattern.ofTerm_fill hsecond) hsubject.ordinaryRun ?_
    intro x hx
    rw [hsubject.single?] at hx
    cases hx
    exact hflat
  · obtain ⟨v, k', hrun⟩ := run_isMatch_of_shows (r := r) subject
      (C.fill i (.node m (.symbol .alternatives) [p, q])) hk hsettled hquiet
    obtain ⟨v₁, k₁', hrun₁⟩ := run_isMatch_of_shows (r := r) subject (C.fill i₁ p) hk₁ hsettled₁
      hquiet₁
    obtain ⟨v₂, k₂', hrun₂⟩ := run_isMatch_of_shows (r := r) subject (C.fill i₂ q) hk₂ hsettled₂
      hquiet₂
    exact ⟨v₁, v₂, k', k₁', k₂', hagree v v₁ v₂ k' k₁' k₂' hrun hrun₁ hrun₂ ▸ hrun, hrun₁, hrun₂⟩

/-- With `List` flat, `{_ | __, 3}` matches `{1, 2, 3}`, for `{_, 3}` does. -/
theorem isMatch_flat_list_alternatives :
    ∃ k', (still.isMatch ⟨0⟩ (.app .list [.int 1, .int 2, .int 3])
      (.app .list [.app .alternatives [.app .blank [], .app .blankSequence []], .int 3])).run
        flatListKernel = (.ok true, k') := by
  obtain ⟨v₁, v₂, k', k₁', -, hrun, hrun₁, -⟩ := (isMatch_alternatives_iff still ⟨0⟩
    (.app .list [.int 1, .int 2, .int 3]) (.app .blank []) (.app .blankSequence [])
    ⟨.symbol .list, [], [.int 3]⟩ 0 0 0 0 (by rfl) (by rfl) (by rfl) (by decide) rfl rfl
    (fun _ => rfl) (by decide) flatListKernel.shows_attributes flatListKernel.shows_attributes
    flatListKernel.shows_attributes).2 ⟨rfl, rfl⟩ ⟨rfl, rfl⟩ ⟨rfl, rfl⟩
  have hv₁ : Except.ok v₁ = (Except.ok true : Except EvalError Bool) :=
    (congrArg Prod.fst hrun₁).symm.trans (by rfl)
  obtain rfl := Except.ok.inj hv₁
  exact ⟨k', hrun⟩

/-- Alternatives that take runs of arguments in different ways are no union, and neither are some
that look up defaults:

* with `List` flat, `{_}` matches `{1, 2}` by taking the run as `{1, 2}`; in `{_ | 7}` the run is
  taken as it is, which no blank matches;
* `{__Integer}` does not match `{1, 2}` either, for `{1, 2}` is no integer; `{__Integer | True}`
  does, where the run is taken as it is;
* with the default 5 for the head `List`, `{Optional(_)}` matches `{}` alone, and not as the second
  alternative, after a pattern sequence has entered a slot of its own. -/
theorem isMatch_alternatives_mixed :
    (((still.isMatch ⟨0⟩ (.app .list [.int 1, .int 2])
        (.app .list [.app .blank []])).run flatListKernel).1 = .ok true ∧
      ((still.isMatch ⟨0⟩ (.app .list [.int 1, .int 2])
        (.app .list [.app .alternatives [.app .blank [], .int 7]])).run flatListKernel).1 =
          .ok false) ∧
    (((still.isMatch ⟨0⟩ (.app .list [.int 1, .int 2])
        (.app .list [.app .blankSequence [.symbol .integer]])).run flatListKernel).1 = .ok false ∧
      ((still.isMatch ⟨0⟩ (.app .list [.int 1, .int 2])
        (.app .list [.symbol .isTrue])).run flatListKernel).1 = .ok false ∧
      ((still.isMatch ⟨0⟩ (.app .list [.int 1, .int 2])
        (.app .list [.app .alternatives [.app .blankSequence [.symbol .integer],
          .symbol .isTrue]])).run flatListKernel).1 = .ok true) ∧
    ∃ k, (setDefault .list (.app .defaultValue [.symbol .list]) (.int 5)).run newKernel =
        (.ok (), k) ∧
      (((ofFuel 9).isMatch ⟨0⟩ (.app .list [])
        (.app .list [.app .optional [.app .blank []]])).run k).1.toOption = some true ∧
      (((ofFuel 9).isMatch ⟨0⟩ (.app .list [])
        (.app .list [.app .alternatives [
          .app .patternSequence [.app .optional [.symbol .isTrue, .int 1]],
          .app .optional [.app .blank []]]])).run k).1.toOption = some false :=
  ⟨⟨by rfl, by rfl⟩, ⟨by rfl, by rfl, by rfl⟩, _, rfl, by decide +kernel, by decide +kernel⟩

end Evaluator

end Termwise
