import Termwise.Proofs.Eval.Search
import Termwise.Proofs.Pattern.Permuted
import Termwise.Proofs.Pattern.Preference
import Termwise.Proofs.Pattern.Template

/-!
# Termwise.Proofs.Eval.Match

What matching in a kernel answers, from any kernel and with any attributes of symbols:

* the first of all solutions, whatever the pattern;
* for a pattern of named blanks, bindings that put into its template give the subject back;
* whether the subject is in the language of a pattern with different names;
* whether arguments can be cut into runs that fit named blanks, where one name may come twice;
* the same for all orders of the arguments of an orderless head, when each slot takes one;
* the same whatever parts of a pattern are wrapped in preferences.
-/

namespace Termwise

namespace Evaluator

/-! ## an evaluator that does nothing -/

/-- An evaluator that leaves every term as it is. -/
def still : Evaluator := ⟨fun _ t => pure t, fun _ _ _ _ => pure none⟩

theorem still_decidesTests (c : ContextId) (attrs : Symbol → Attributes) :
    still.DecidesTests c attrs fun t => t.isSymbol .isTrue where
  evaluate t k ha hq := ⟨t, k, rfl, ha, hq, rfl⟩
  alike t t' h := by
    rw [← Term.isSymbol_strip t, (Term.beq_iff_strip t t').mp h, Term.isSymbol_strip]

/-- A new kernel with one context. -/
def newKernel : Kernel := (Kernel.new {}).newRoot.2

theorem quiet_newKernel : newKernel.Quiet ⟨0⟩ := ⟨rfl, rfl⟩

/-- The kernel after `List` has been made flat. -/
def flatListKernel : Kernel := newKernel.storeAttributes .list (.ofList [.flat])

/-! ## the first solution -/

/-- If a pattern of atoms, calls and named blanks matches, whatever the attributes of heads, then
the bindings put in the place of its slots give the subject back up to flat and orderless heads, and
every name is bound to something that fits each of its blanks. -/
theorem match?_substitute_template (r : Evaluator) (c : ContextId) (subject pattern : Term)
    {k k' : Kernel} {b : Bindings}
    (hslots : (Pattern.ofTerm pattern).BuiltOfSlots (Pattern.ofTerm pattern).names)
    (hpattern : pattern.MarkerFree) (hsubject : subject.MarkerFree)
    (hrun : (r.match? c subject pattern).run k = (.ok (some b), k')) :
    (((Pattern.ofTerm pattern).template.substitute b).normalForm k.attributes ==
        subject.normalForm k.attributes) = true ∧
      (Pattern.ofTerm pattern).Every (Pattern.SlotFits b) := by
  have hfirst := run_match?_eq_ok hslots.settled hrun fun _ => true
  obtain ⟨b₀, hb₀, hb⟩ := Option.map_eq_some_iff.mp hfirst.symm
  obtain ⟨hcanonical, hfits⟩ := Pattern.canonical_substitute_template hslots hpattern hsubject
    (List.mem_of_mem_head? hb₀) hb.symm
  exact ⟨(Term.normalForm_beq_iff k.attributes _ _).mpr hcanonical, hfits⟩

/-- With `List` flat, `{x_, y_}` matches `{1, 2, 3}`; the second name is bound to `{2, 3}`, and what
the template `{x, y}` becomes has the normal form of `{1, 2, 3}`. -/
theorem match?_flat_list :
    ∃ b k', (still.match? ⟨0⟩ (.app .list [.int 1, .int 2, .int 3])
        (.app .list [.app .pattern [.symbol ⟨40, "x"⟩, .app .blank []],
          .app .pattern [.symbol ⟨41, "y"⟩, .app .blank []]])).run flatListKernel =
          (.ok (some b), k') ∧
      (b.get? ⟨41, "y"⟩).any (· == .app .list [.int 2, .int 3]) = true ∧
      (((Term.app .list [.symbol ⟨40, "x"⟩, .symbol ⟨41, "y"⟩]).substitute b).normalForm
          flatListKernel.attributes ==
        (Term.app .list [.int 1, .int 2, .int 3]).normalForm flatListKernel.attributes) = true := by
  have hlist : ∀ x ∈ [(⟨40, "x"⟩ : Symbol), ⟨41, "y"⟩], Term.symbol .list ≠ .symbol x := by
    intro x hx h
    cases h
    revert hx
    decide
  refine ⟨_, _, rfl, rfl, ?_⟩
  exact (match?_substitute_template (k := flatListKernel) still ⟨0⟩
    (.app .list [.int 1, .int 2, .int 3])
    (.app .list [.app .pattern [.symbol ⟨40, "x"⟩, .app .blank []],
      .app .pattern [.symbol ⟨41, "y"⟩, .app .blank []]])
    ⟨hlist, trivial, trivial, trivial⟩ (by decide) (by decide) rfl).1

/-! ## the language of a pattern -/

/-- A pattern with different names, none of them repeated, matches exactly the subjects it accepts;
without a pending abort the question is answered. -/
theorem isMatch_iff_accepts (r : Evaluator) (c : ContextId) (subject pattern : Term) {k : Kernel}
    (hvalid : pattern.defect? = none)
    (hsettled : (Pattern.ofTerm pattern).Every (Pattern.Settled False))
    (hnames : (Pattern.ofTerm pattern).names.Nodup)
    (hrepeats : (Pattern.ofTerm pattern).Every Pattern.UnnamedRepeat)
    (hdefaults : (Pattern.ofTerm pattern).Every (Pattern.RigidDefault k.attributes))
    (hordinary : subject.Ordinary) (hrigid : subject.Rigid k.attributes) :
    (∀ v k', (r.isMatch c subject pattern).run k = (.ok v, k') →
      (v = true ↔ (Pattern.ofTerm pattern).Accepts [subject])) ∧
      (k.Quiet c → ∃ v k', (r.isMatch c subject pattern).run k = (.ok v, k')) := by
  refine ⟨fun v k' hrun => ?_, run_isMatch_of_quiet subject pattern hsettled⟩
  have hregular : (Pattern.ofTerm pattern).Every (Pattern.Regular k.attributes) :=
    (((hsettled.and hdefaults).and hrepeats).and (Pattern.every_nonempty_of_defect? hvalid)).imp
      fun _ h => Pattern.regular_of h.1.1.1 h.1.1.2 h.1.2 h.2
  have hdefault : (Pattern.ofTerm pattern).Every Pattern.OrdinaryDefault :=
    hdefaults.imp fun _ => Pattern.RigidDefault.ordinaryDefault
  have haccepts := Pattern.exists_solution_iff (w := ⟨k.attributes, fun _ => true, false⟩) rfl _
    hregular hnames (hordinary.rigidRun hrigid) (Bindings.fresh_empty _)
  rw [run_isMatch_eq_ok hsettled hrun fun _ => true,
    Pattern.solutions_ofTerm_shortcuts pattern hdefault hordinary.ordinaryRun, haccepts,
    hordinary.run]

/-- `{__, Repeated(_Symbol), Optional(_Integer, 7)}` matches `{1, 2, True}`, as its language says. -/
theorem isMatch_list_of_accepts :
    ∃ k', (still.isMatch ⟨0⟩ (.app .list [.int 1, .int 2, .symbol .isTrue])
      (.app .list [.app .blankSequence [], .app .repeated [.app .blank [.symbol .symbol]],
        .app .optional [.app .blank [.symbol .integer], .int 7]])).run newKernel =
          (.ok true, k') := by
  obtain ⟨hsound, htotal⟩ := isMatch_iff_accepts (k := newKernel) still ⟨0⟩
    (.app .list [.int 1, .int 2, .symbol .isTrue])
    (.app .list [.app .blankSequence [], .app .repeated [.app .blank [.symbol .symbol]],
      .app .optional [.app .blank [.symbol .integer], .int 7]])
    (by rfl) (by decide) (by decide) (by decide) (by decide) (by decide) (by decide)
  obtain ⟨v, k', hrun⟩ := htotal quiet_newKernel
  have hone : (Pattern.repeated (.blank (some (.symbol .symbol))) none 1 Pattern.unbounded).Accepts
      [.symbol .isTrue] :=
    ⟨[[.symbol .isTrue]], rfl, by simp [Pattern.Accepts, Term.hasType, Term.isSymbol], by decide⟩
  have hdefault : (Pattern.optional (.blank (some (.symbol .integer))) (some (.int 7))).Accepts [] :=
    .inr ⟨rfl, .int 7, rfl, .int 7, rfl, rfl⟩
  have hv := (hsound v k' hrun).mpr ⟨0, .symbol .list, [.int 1, .int 2, .symbol .isTrue], rfl,
    ⟨_, rfl, by decide⟩, [.int 1, .int 2], [.symbol .isTrue], rfl,
    ⟨by simp, by simp [Term.hasType]⟩, [.symbol .isTrue], [], rfl, hone, [], [], rfl, hdefault, rfl⟩
  exact ⟨k', hv ▸ hrun⟩

/-- Two runs on which matching and the plain reading of a default part.  The empty run is a run of
`___Integer`, but for an optional argument it stands for the default, and `"s"` is no integer.  And
the default `{1, 2}` is matched by `{_}` once `List` is flat, though one blank takes one argument. -/
theorem isMatch_optional_default :
    ((Pattern.ofTerm (.app .blankNullSequence [.symbol .integer])).Accepts [] ∧
      ((still.isMatch ⟨0⟩ (.app .hold []) (.app .hold
        [.app .optional [.app .blankNullSequence [.symbol .integer], .ofString "s"]])).run
          newKernel).1 = .ok false) ∧
    (¬ (Pattern.ofTerm (.app .list [.app .blank []])).Accepts [.app .list [.int 1, .int 2]] ∧
      ((still.isMatch ⟨0⟩ (.app .hold []) (.app .hold
        [.app .optional [.app .list [.app .blank []], .app .list [.int 1, .int 2]]])).run
          flatListKernel).1 = .ok true) := by
  refine ⟨⟨fun x hx => absurd hx List.not_mem_nil, by rfl⟩, ?_, by rfl⟩
  rintro ⟨i, f, ys, hys, -, xs, zs, happ, ⟨x, rfl, -⟩, rfl⟩
  cases hys
  cases happ

/-! ## repeated names -/

/-- A call of named blanks, where one name may fill several slots, matches a call of the same head,
neither flat nor orderless, exactly if the arguments can be cut into runs that fit the blanks, with
equal runs for equal names, and no sequence blank whose name comes again takes a run of one; without
a pending abort the question is answered. -/
theorem isMatch_namedBlanks_iff (r : Evaluator) (c : ContextId) (blankOf : Symbol → Pattern)
    {i j : Nat} {f g : Term} {slots args : List Term} {names : List Symbol} {k : Kernel}
    (hblank : ∀ x, (blankOf x).IsBlank)
    (hread : Pattern.ofTerm (.node i f slots) =
      Pattern.callOfSlots blankOf (.node i f slots) f names)
    (hf : f.isLiteral k.attributes = true) (hfg : (f == g) = true)
    (hflat : ((Term.node j g args).headAttributes k.attributes).has .flat = false)
    (horderless : ((Term.node j g args).headAttributes k.attributes).has .orderless = false)
    (hsubject : (Term.node j g args).Ordinary) :
    (∀ v k', (r.isMatch c (.node j g args) (.node i f slots)).run k = (.ok v, k') →
      (v = true ↔ ∃ runs, Pattern.IsCut blankOf names args runs ∧
        Pattern.KeepsRuns blankOf names runs)) ∧
      (k.Quiet c → ∃ v k', (r.isMatch c (.node j g args) (.node i f slots)).run k =
        (.ok v, k')) := by
  have hsettled : (Pattern.ofTerm (.node i f slots)).Every (Pattern.Settled False) := by
    rw [hread]
    refine Pattern.every_callOfSlots hblank (fun _ _ _ => trivial) (fun _ => trivial)
      (fun _ _ => trivial) (fun p hp => ?_) hf names
    cases p <;> trivial
  have hdefault : (Pattern.ofTerm (.node i f slots)).Every Pattern.OrdinaryDefault := by
    rw [hread]
    refine Pattern.every_callOfSlots hblank (fun _ _ _ => trivial) (fun _ => trivial)
      (fun _ _ => trivial) (fun p hp => ?_) hf names
    cases p <;> trivial
  refine ⟨fun v k' hrun => ?_, run_isMatch_of_quiet _ _ hsettled⟩
  rw [run_isMatch_eq_ok hsettled hrun fun _ => true,
    Pattern.solutions_ofTerm_shortcuts _ hdefault hsubject.ordinaryRun, hread]
  exact Pattern.exists_solution_namedBlanks_iff (w := ⟨k.attributes, fun _ => true, false⟩) rfl
    hblank hf hfg hflat horderless hsubject

/-- `{x__, x__}` matches `{1, 2, 1, 2}`. -/
theorem isMatch_list_twice :
    ∃ k', (still.isMatch ⟨0⟩ (.app .list [.int 1, .int 2, .int 1, .int 2])
      (.app .list [.app .pattern [.symbol ⟨40, "x"⟩, .app .blankSequence []],
        .app .pattern [.symbol ⟨40, "x"⟩, .app .blankSequence []]])).run newKernel =
          (.ok true, k') := by
  obtain ⟨hsound, htotal⟩ := isMatch_namedBlanks_iff (k := newKernel) (i := 0) (j := 0)
    (f := .symbol .list) (g := .symbol .list) still ⟨0⟩ (fun _ => .blankSequence none)
    (fun _ => trivial)
    (by rfl : Pattern.ofTerm (.app .list [
      .app .pattern [.symbol ⟨40, "x"⟩, .app .blankSequence []],
      .app .pattern [.symbol ⟨40, "x"⟩, .app .blankSequence []]]) =
        Pattern.callOfSlots (fun _ => .blankSequence none) _ (.symbol .list)
          [⟨40, "x"⟩, ⟨40, "x"⟩])
    (by decide) (by decide) (by decide) (by decide)
    (by decide : (Term.app .list [.int 1, .int 2, .int 1, .int 2]).Ordinary)
  obtain ⟨v, k', hrun⟩ := htotal quiet_newKernel
  have hfit : (Pattern.blankSequence none).Accepts [.int 1, .int 2] :=
    ⟨by simp, by simp [Term.hasType]⟩
  have hv := (hsound v k' hrun).mpr ⟨[[.int 1, .int 2], [.int 1, .int 2]],
    ⟨rfl, .cons hfit (.cons hfit .nil), by decide⟩, by simp [Pattern.KeepsRuns]⟩
  exact ⟨k', hv ▸ hrun⟩

/-- `{x__, x__}` does not match `{1, 1}`, though the arguments can be cut into two equal runs. -/
theorem isMatch_list_twice_one :
    Pattern.IsCut (fun _ => .blankSequence none) [⟨40, "x"⟩, ⟨40, "x"⟩] [.int 1, .int 1]
        [[.int 1], [.int 1]] ∧
      ((still.isMatch ⟨0⟩ (.app .list [.int 1, .int 1])
        (.app .list [.app .pattern [.symbol ⟨40, "x"⟩, .app .blankSequence []],
          .app .pattern [.symbol ⟨40, "x"⟩, .app .blankSequence []]])).run newKernel).1 =
            .ok false := by
  have hfit : (Pattern.blankSequence none).Accepts [.int 1] := ⟨by simp, by simp [Term.hasType]⟩
  exact ⟨⟨rfl, .cons hfit (.cons hfit .nil), by decide⟩, by rfl⟩

/-! ## orderless heads -/

/-- A call of an orderless head that is not flat, whose slots take one argument each, matches
arguments alike in whatever order they come, and from whatever kernel in which symbols have the same
attributes; without pending aborts the question is answered.  The call is no pattern syntax. -/
theorem isMatch_orderless_perm (r : Evaluator) (c : ContextId) {i j j' : Nat} {f : Symbol}
    {slots args args' : List Term} {k k₁ : Kernel}
    (hread : Pattern.ofTerm (.node i (.symbol f) slots) =
      .call (.node i (.symbol f) slots) (.atom (.symbol f)) (slots.map Pattern.ofTerm))
    (horderless : (k.attributes f).has .orderless = true)
    (hflat : (k.attributes f).has .flat = false)
    (hslots : ∀ p ∈ slots, (Pattern.ofTerm p).takesOne = true)
    (hsettled : (Pattern.ofTerm (.node i (.symbol f) slots)).Every (Pattern.Settled False))
    (hargs : ∀ x ∈ args, x.isMarker = false) (hperm : args.Perm args')
    (hattrs : k₁.attributes = k.attributes) :
    (∀ v v₁ k' k₁',
      (r.isMatch c (.node j (.symbol f) args) (.node i (.symbol f) slots)).run k = (.ok v, k') →
      (r.isMatch c (.node j' (.symbol f) args') (.node i (.symbol f) slots)).run k₁ =
        (.ok v₁, k₁') → v = v₁) ∧
      (k.Quiet c → k₁.Quiet c → ∃ v k' k₁',
        (r.isMatch c (.node j (.symbol f) args) (.node i (.symbol f) slots)).run k = (.ok v, k') ∧
        (r.isMatch c (.node j' (.symbol f) args') (.node i (.symbol f) slots)).run k₁ =
          (.ok v, k₁')) := by
  refine (fun hagree => ⟨hagree, fun hk hk₁ => ?_⟩) fun v v₁ k' k₁' hrun hrun₁ => ?_
  · have hwhole : (Term.node i (.symbol f) slots).isLiteral k.attributes = false := by
      simp [Term.isLiteral, Symbol.opensMatch, horderless]
    have hpatterns : ∀ p ∈ slots.map Pattern.ofTerm, p.takesOne = true := by
      simpa only [List.forall_mem_map] using hslots
    have hargs' : ∀ x ∈ args', x.isMarker = false := fun x hx => hargs x (hperm.mem_iff.mpr hx)
    rw [Bool.eq_iff_iff, run_isMatch_eq_ok hsettled hrun fun _ => true,
      run_isMatch_eq_ok hsettled hrun₁ fun _ => true, hattrs, hread]
    exact exists_congr fun b =>
      ⟨Pattern.mem_solutions_call_perm hwhole hpatterns horderless hflat hargs hperm,
        Pattern.mem_solutions_call_perm hwhole hpatterns horderless hflat hargs' hperm.symm⟩
  · obtain ⟨v, k', hrun⟩ := run_isMatch_of_quiet (r := r) (.node j (.symbol f) args)
      (.node i (.symbol f) slots) hsettled hk
    obtain ⟨v₁, k₁', hrun₁⟩ := run_isMatch_of_quiet (r := r) (.node j' (.symbol f) args')
      (.node i (.symbol f) slots) hsettled hk₁
    exact ⟨v, k', k₁', hrun, hagree v v₁ k' k₁' hrun hrun₁ ▸ hrun₁⟩

/-- The kernel after `List` has been made orderless. -/
def orderlessListKernel : Kernel := newKernel.storeAttributes .list (.ofList [.orderless])

/-- With `List` orderless, `{x_, 7, hold[x_]}` matches `{hold[1], 1, 7}`, for it matches
`{1, 7, hold[1]}`. -/
theorem isMatch_orderless_list :
    ∃ k', (still.isMatch ⟨0⟩ (.app .list [.app .hold [.int 1], .int 1, .int 7])
        (.app .list [.app .pattern [.symbol ⟨40, "x"⟩, .app .blank []], .int 7,
          .app .hold [.app .pattern [.symbol ⟨40, "x"⟩, .app .blank []]]])).run
            orderlessListKernel = (.ok true, k') := by
  have hperm : [Term.int 1, .int 7, .app .hold [.int 1]].Perm
      [.app .hold [.int 1], .int 1, .int 7] :=
    ((List.Perm.swap _ _ []).cons _).trans (.swap _ _ _)
  have hanswers : ∃ v k' k₁',
      (still.isMatch ⟨0⟩ (.app .list [.int 1, .int 7, .app .hold [.int 1]])
        (.app .list [.app .pattern [.symbol ⟨40, "x"⟩, .app .blank []], .int 7,
          .app .hold [.app .pattern [.symbol ⟨40, "x"⟩, .app .blank []]]])).run
            orderlessListKernel = (.ok v, k') ∧
      (still.isMatch ⟨0⟩ (.app .list [.app .hold [.int 1], .int 1, .int 7])
        (.app .list [.app .pattern [.symbol ⟨40, "x"⟩, .app .blank []], .int 7,
          .app .hold [.app .pattern [.symbol ⟨40, "x"⟩, .app .blank []]]])).run
            orderlessListKernel = (.ok v, k₁') :=
    (isMatch_orderless_perm still ⟨0⟩ (by rfl) (by decide) (by decide) (by decide) (by decide)
      (by decide) hperm rfl).2 ⟨rfl, rfl⟩ ⟨rfl, rfl⟩
  obtain ⟨v, k', k₁', hrun, hrun₁⟩ := hanswers
  have hv : Except.ok v = (Except.ok true : Except EvalError Bool) :=
    (congrArg Prod.fst hrun).symm.trans (by rfl)
  obtain rfl := Except.ok.inj hv
  exact ⟨k₁', hrun₁⟩

/-- Once `Alternatives` is orderless, `_[g[x__], x__] | 1` matches `a | b | g[a, b]` and not
`b | a | g[a, b]`: its arguments are alternatives, and the first one is matched against the call as
a whole, where `x` stands for arguments in their order. -/
theorem isMatch_orderless_alternatives :
    ∃ k, newKernel.setAttributes .alternatives (.ofList [.orderless]) = .ok k ∧
      ((still.isMatch ⟨0⟩
        (.app .alternatives [.symbol ⟨40, "a"⟩, .symbol ⟨41, "b"⟩,
          .app ⟨42, "g"⟩ [.symbol ⟨40, "a"⟩, .symbol ⟨41, "b"⟩]])
        (.app .alternatives [.call (.app .blank [])
          [.app ⟨42, "g"⟩ [.app .pattern [.symbol ⟨43, "x"⟩, .app .blankSequence []]],
            .app .pattern [.symbol ⟨43, "x"⟩, .app .blankSequence []]], .int 1])).run
              k).1.toOption = some true ∧
      ((still.isMatch ⟨0⟩
        (.app .alternatives [.symbol ⟨41, "b"⟩, .symbol ⟨40, "a"⟩,
          .app ⟨42, "g"⟩ [.symbol ⟨40, "a"⟩, .symbol ⟨41, "b"⟩]])
        (.app .alternatives [.call (.app .blank [])
          [.app ⟨42, "g"⟩ [.app .pattern [.symbol ⟨43, "x"⟩, .app .blankSequence []]],
            .app .pattern [.symbol ⟨43, "x"⟩, .app .blankSequence []]], .int 1])).run
              k).1.toOption = some false :=
  ⟨_, rfl, by decide +kernel, by decide +kernel⟩

/-! ## preferences -/

/-- Wrapping a part of a pattern in a preference, or in a wrapper that keeps it from being
evaluated, changes the order of its solutions at most, and never whether it matches. -/
theorem isMatch_of_prefers {r : Evaluator} {c : ContextId} {holds : Term → Bool} (subject : Term)
    {pattern pattern' : Term} {k k₁ : Kernel} (hprefers : pattern.Prefers pattern')
    (htests : r.DecidesTests c k.attributes holds)
    (hsettled : (Pattern.ofTerm pattern).Every (Pattern.Settled True))
    (hdefault : (Pattern.ofTerm pattern).Every Pattern.OrdinaryDefault)
    (hsubject : subject.Ordinary) (hattrs : k₁.attributes = k.attributes) (hk : k.Quiet c)
    (hk₁ : k₁.Quiet c) :
    (∀ b, b ∈ (Pattern.ofTerm pattern).solutions ⟨k.attributes, holds, true⟩ subject .empty ↔
      b ∈ (Pattern.ofTerm pattern').solutions ⟨k.attributes, holds, true⟩ subject .empty) ∧
    ∃ v k' k₁', (r.isMatch c subject pattern).run k = (.ok v, k') ∧
      (r.isMatch c subject pattern').run k₁ = (.ok v, k₁') := by
  have hsolutions : ∀ b,
      b ∈ (Pattern.ofTerm pattern).solutions ⟨k.attributes, holds, true⟩ subject .empty ↔
        b ∈ (Pattern.ofTerm pattern').solutions ⟨k.attributes, holds, true⟩ subject .empty := by
    intro b
    rw [Pattern.solutions_ofTerm_shortcuts _ hdefault hsubject.ordinaryRun,
      Pattern.solutions_ofTerm_shortcuts _ (hprefers.ordinaryDefault hdefault)
        hsubject.ordinaryRun]
    exact (hprefers.interchangeable rfl).solutions
  obtain ⟨v, k', hrun, hv⟩ :=
    run_isMatch_iff_of_quiet holds subject pattern (fun _ => htests) hsettled hk
  obtain ⟨v₁, k₁', hrun₁, hv₁⟩ := run_isMatch_iff_of_quiet holds subject pattern'
    (fun _ => hattrs ▸ htests) (hprefers.settled hsettled) hk₁
  obtain rfl : v = v₁ := by
    rw [Bool.eq_iff_iff, hv, hv₁, hattrs]
    exact exists_congr hsolutions
  exact ⟨hsolutions, v, k', k₁', hrun, hrun₁⟩

/-- `{Shortest[x__], y__}` matches `{1, 2, 3}`, for `{x__, y__}` does. -/
theorem isMatch_list_of_prefers :
    ∃ k', (still.isMatch ⟨0⟩ (.app .list [.int 1, .int 2, .int 3])
      (.app .list [.app .shortest [.app .pattern [.symbol ⟨40, "x"⟩, .app .blankSequence []]],
        .app .pattern [.symbol ⟨41, "y"⟩, .app .blankSequence []]])).run newKernel =
          (.ok true, k') := by
  have hprefers : (Term.app .list [.app .pattern [.symbol ⟨40, "x"⟩, .app .blankSequence []],
      .app .pattern [.symbol ⟨41, "y"⟩, .app .blankSequence []]]).Prefers
      (.app .list [.app .shortest [.app .pattern [.symbol ⟨40, "x"⟩, .app .blankSequence []]],
        .app .pattern [.symbol ⟨41, "y"⟩, .app .blankSequence []]]) :=
    .arg (n := 0) 0 0 rfl rfl (.wrap 0 _ (by decide))
  obtain ⟨-, v, k', k₁', hrun, hrun₁⟩ := isMatch_of_prefers
    (.app .list [.int 1, .int 2, .int 3]) hprefers (still_decidesTests ⟨0⟩ newKernel.attributes)
    (by decide) (by decide) (by decide) rfl quiet_newKernel quiet_newKernel
  have hv : Except.ok v = (Except.ok true : Except EvalError Bool) :=
    (congrArg Prod.fst hrun).symm.trans (by rfl)
  obtain rfl := Except.ok.inj hv
  exact ⟨k₁', hrun₁⟩

/-- Where a default has a run in the place of an argument, a wrapper changes whether it is matched:
the constant `hold[1]` is compared with the default as a whole, and with a wrapper in it part by
part, which opens the run. -/
theorem isMatch_default_with_run :
    ∃ pattern pattern', Term.Prefers pattern pattern' ∧
      ((still.isMatch ⟨0⟩ (.app .list []) pattern).run newKernel).1 = .ok false ∧
      ((still.isMatch ⟨0⟩ (.app .list []) pattern').run newKernel).1 = .ok true := by
  refine ⟨.app .list [.app .optional [.app .hold [.int 1], .app .hold [.marker [.int 1]]]],
    .app .list [.app .optional [.app .hold [.app .holdPattern [.int 1]],
      .app .hold [.marker [.int 1]]]], ?_, by rfl, by rfl⟩
  exact .arg (n := 0) 0 0 rfl rfl (.arg (n := 0) 0 0 rfl rfl
    (.arg (n := 0) 0 0 rfl rfl (.wrap 0 _ (by decide))))

end Evaluator

end Termwise
