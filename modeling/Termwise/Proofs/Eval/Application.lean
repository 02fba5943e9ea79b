import Termwise.Host.Arithmetic
import Termwise.Proofs.Eval.Inert

/-!
# Termwise.Proofs.Eval.Application

Native code applied to numbers.  A call of a symbol with a function for native code, and with
no rules and no value, is evaluated in two rounds when its arguments are numbers.  The first
one evaluates head and arguments to themselves, sorts the arguments if the symbol is
orderless, and applies the function; the second one finds nothing left to be done with the
result (`exists_run_evaluateWith_of_function`).
-/

namespace Termwise

namespace Kernel

/-- Native code that is a function decides on the calls of a symbol with given attributes: nothing
is found for the symbol itself, and there are no rules for its calls. -/
structure Applies (k : Kernel) (c : ContextId) (s : Symbol) (attrs : Attributes)
    (f : Term → Option Term) : Prop where
  attributes : k.attributes s = attrs
  idle : k.Idle c s
  localRules : k.localRules? c s = none
  rules : k.rules? s .down = none
  code : (k.record s).code.get .down = some (.function f)

/-- Nothing stands in the way of evaluating a call: no abort is pending, no limit is met, and some
definition has been made, so that nodes not yet stamped do not count as evaluated. -/
structure Ready (k : Kernel) (c : ContextId) : Prop where
  quiet : k.Quiet c
  depth : k.depth c < k.config.maxRecursion
  iterations : 0 < k.config.maxIterations
  generation : 0 < k.generation

/-- The term is left as it is by evaluation: a number, or a symbol for which nothing is found. -/
def Rests (k : Kernel) (c : ContextId) : Term → Prop
  | .symbol s => k.Idle c s
  | t => t.isNumber = true

variable {k k' : Kernel} {c : ContextId} {s : Symbol} {attrs : Attributes} {t : Term}

theorem Applies.of_definitions {f : Term → Option Term} (h : k.Applies c s attrs f)
    (hk : k.SameDefinitions k') : k'.Applies c s attrs f where
  attributes := by rw [Kernel.attributes, hk.record_eq]; exact h.attributes
  idle := h.idle.of_definitions hk
  localRules := (hk.localRules?_eq c s).trans h.localRules
  rules := by rw [rules?, hk.record_eq]; exact h.rules
  code := by rw [hk.record_eq]; exact h.code

theorem Rests.of_definitions (h : k.Rests c t) (hk : k.SameDefinitions k') : k'.Rests c t := by
  cases t with
  | symbol s => exact Idle.of_definitions h hk
  | _ => exact h

theorem rests_of_isNumber (k : Kernel) (c : ContextId) (h : t.isNumber = true) : k.Rests c t := by
  cases t with
  | symbol s => cases h
  | _ => exact h

/-- A node that gets its name now is not remembered as evaluated. -/
theorem not_remembers_share_call (hk : 0 < k.generation) (c : ContextId) (head : Term)
    (xs : List Term) : ((k.share (.call head xs)).2.stampGeneration? c).any
      ((k.share (.call head xs)).2.isEvaluated (k.share (.call head xs)).1) = false := by
  have hstamp : (k.share (.call head xs)).2.stamps.getD k.stamps.size 0 = 0 := by
    refine (getD_append_replicate k.stamps _ _).trans ?_
    rw [Array.getD_eq_getD_getElem?, Array.getElem?_eq_none (Nat.le_refl _)]
    rfl
  have hfresh : (k.share (.call head xs)).2.isEvaluated (k.share (.call head xs)).1 k.generation =
      false := by
    change (_ && ((k.share (.call head xs)).2.stamps.getD k.stamps.size 0 == k.generation)) = false
    rw [hstamp, beq_eq_false_iff_ne.mpr (Nat.ne_of_lt hk), Bool.and_false]
  unfold stampGeneration?
  split
  · rfl
  · exact hfresh

end Kernel

namespace Evaluator

variable {r : Evaluator} {c : ContextId} {k k' : Kernel} {s : Symbol} {attrs : Attributes}
  {t v : Term} {xs : List Term}

/-! ## numbers and idle symbols -/

theorem run_evaluateRound_of_rests (h : k.Rests c t) (hquiet : k.Quiet c) :
    (r.evaluateRound c t).run k =
      (.ok (.done t), ((k.elapse Kernel.lookTime).share t).2) := by
  cases t with
  | symbol s => exact run_evaluateRound_of_idle h hquiet
  | int n | float x =>
      rw [evaluateRound_eq, EvalM.run_bind_ok (run_checkAbort hquiet)]
      rfl
  | _ => cases h

/-- What is left as it is evaluates to itself. -/
theorem exists_run_evaluateWith_of_rests (h : k.Rests c t) (hquiet : k.Quiet c) (fuel : Nat) :
    ∃ k', (evaluateWith (fuel + 1) c t).run k = (.ok t, k') ∧ k.SameDefinitions k' := by
  obtain ⟨k', hrun, hdefinitions⟩ := exists_run_evaluateFully (r := .ofFuel fuel)
    (run_evaluateRound_of_rests h hquiet)
  exact ⟨k', hrun, (k.sameDefinitions_elapse_share _ _).trans hdefinitions⟩

/-- Numbers stay as they are, whether or not they are held. -/
theorem exists_run_evaluateArgs_of_numbers (hxs : ∀ t ∈ xs, t.isNumber = true)
    (hquiet : k.Quiet c) (fuel : Nat) (attrs : Attributes) (i : Nat) :
    ∃ k', ((ofFuel (fuel + 1)).evaluateArgs c attrs i xs).run k = (.ok xs, k') ∧
      k.SameDefinitions k' := by
  induction xs generalizing k i with
  | nil => exact ⟨k, rfl, .refl k⟩
  | cons t ts ih =>
      obtain ⟨ht, hts⟩ := List.forall_mem_cons.mp hxs
      rw [evaluateArgs]
      dsimp only
      split
      · obtain ⟨k', hruns, hk'⟩ := ih hts hquiet (i + 1)
        exact ⟨k', EvalM.run_bind_ok hruns, hk'⟩
      · obtain ⟨k₁, hrun, hk₁⟩ :=
          exists_run_evaluateWith_of_rests (k.rests_of_isNumber c ht) hquiet fuel
        obtain ⟨k', hruns, hk'⟩ := ih hts (hk₁.quiet hquiet) (i + 1)
        exact ⟨k', (EvalM.run_bind_ok hrun).trans (EvalM.run_bind_ok hruns), hk₁.trans hk'⟩

/-! ## normal forms of calls on numbers -/

/-- The arguments of a call in normal form, when they are numbers. -/
def arguments (attrs : Attributes) (xs : List Term) : List Term :=
  if attrs.has .orderless then Term.sort xs else xs

theorem hasHead_of_isNumber (h : t.isNumber = true) (s : Symbol) : t.hasHead s = false := by
  cases t with
  | node i f xs => cases h
  | _ => rfl

theorem spliced_of_numbers (hxs : ∀ t ∈ xs, t.isNumber = true) (attrs : Attributes) (i : Nat)
    (f : Term) : spliced attrs (.node i f xs) = .node i f xs := by
  have hany : xs.any (·.hasHead .sequence) = false :=
    List.any_eq_false.mpr fun t ht => by
      rw [hasHead_of_isNumber (hxs t ht)]
      exact Bool.false_ne_true
  unfold spliced
  split
  · rfl
  · exact if_neg (by rw [Term.args, hany]; exact Bool.false_ne_true)

theorem exists_rearranged_of_numbers (hxs : ∀ t ∈ xs, t.isNumber = true) (attrs : Attributes)
    (i : Nat) (f : Term) :
    ∃ j, rearranged attrs (.node i f xs) = .node j f (arguments attrs xs) := by
  have hany : xs.any (Term.isCallOf f) = false := by
    refine List.any_eq_false.mpr fun t ht => ?_
    have hnumber := hxs t ht
    cases t with
    | node j g ys => cases hnumber
    | _ => exact Bool.false_ne_true
  have hflat : (if attrs.has .flat then (Term.node i f xs).flatten else .node i f xs) =
      .node i f xs := by
    split
    · exact if_neg (by rw [Term.args, Term.key, hany]; exact Bool.false_ne_true)
    · rfl
  rw [rearranged, hflat]
  unfold arguments
  split
  · cases hsorted : Term.isSorted xs with
    | true =>
        have hsort : Term.sort xs = xs :=
          List.mergeSort_of_pairwise (Term.pairwise_of_isSorted hsorted)
        rw [hsort]
        exact ⟨i, if_pos hsorted⟩
    | false => exact ⟨0, if_neg (by rw [Term.args, hsorted]; exact Bool.false_ne_true)⟩
  · exact ⟨i, rfl⟩

/-- Sequences, nested calls and lists are not numbers: a call on numbers is at most sorted. -/
theorem exists_run_normalize_of_numbers (hxs : ∀ t ∈ xs, t.isNumber = true) (attrs : Attributes)
    (i : Nat) (f : Term) (k : Kernel) :
    ∃ j, (normalize attrs (.node i f xs)).run k =
      (.ok (.done (.node j f (arguments attrs xs))), k) := by
  obtain ⟨j, hj⟩ := exists_rearranged_of_numbers hxs attrs i f
  have hlists : Term.listLengths xs = [] := by
    have hfilter : xs.filter (·.hasHead .list) = [] :=
      List.filter_eq_nil_iff.mpr fun t ht => by
        rw [hasHead_of_isNumber (hxs t ht)]
        exact Bool.false_ne_true
    rw [Term.listLengths, hfilter, List.map_nil]
  have hthread : (Term.node i f xs).threadListable.run k = (.ok none, k) := by
    rw [Term.threadListable, Term.args, hlists]
    rfl
  refine ⟨j, ?_⟩
  rw [normalize_eq, spliced_of_numbers hxs, hj]
  dsimp only
  split
  · exact EvalM.run_bind_ok hthread
  · rfl

/-! ## calls on numbers -/

theorem upSymbols_of_numbers (hxs : ∀ t ∈ xs, t.isNumber = true) (attrs : Attributes) (i : Nat)
    (g : Term) : upSymbols attrs (.node i g xs) = [] := by
  have hnone : xs.filterMap Term.topmost? = [] := by
    refine List.filterMap_eq_nil_iff.mpr fun t ht => ?_
    have hnumber := hxs t ht
    cases t with
    | int n | float x => rfl
    | _ => cases hnumber
  unfold upSymbols
  split
  · rfl
  · rw [Term.args, hnone]
    rfl

variable {f : Term → Option Term} {i : Nat}

theorem run_firstResult_cons_none {x : EvalM (Option Term)} (h : x.run k = (.ok none, k))
    (rest : List (EvalM (Option Term))) :
    (firstResult (x :: rest)).run k = (firstResult rest).run k :=
  EvalM.run_bind_ok h

/-- What replaces a call on numbers is what the function makes of it. -/
theorem run_reduce_of_function (h : k.Applies c s attrs f) (hxs : ∀ t ∈ xs, t.isNumber = true)
    (hv : f (.node i (.symbol s) xs) = some v) :
    (r.reduce c attrs (some s) (.node i (.symbol s) xs)).run k = (.ok (some v), k) := by
  have hget : (get : EvalM Kernel).run k = (.ok k, k) := rfl
  have hcode : (r.runCode? c .down (.node i (.symbol s) xs) s).run k = (.ok (some v), k) := by
    rw [runCode?, EvalM.run_bind_ok hget, h.code, ← hv]
    rfl
  rw [reduce, upSymbols_of_numbers hxs]
  refine (run_firstResult_cons_none (run_findLocalRule?_none h.localRules _) _).trans ?_
  refine (run_firstResult_cons_none (run_findRule?_none h.rules _) _).trans ?_
  exact EvalM.run_bind_ok hcode

/-- A function gives the same value for all nodes of a call in normal form. -/
def Gives (f : Term → Option Term) (s : Symbol) (attrs : Attributes) (xs : List Term) (v : Term) :
    Prop :=
  ∀ i, f (.node i (.symbol s) (arguments attrs xs)) = some v

theorem isNumber_of_mem_arguments (hxs : ∀ t ∈ xs, t.isNumber = true) :
    ∀ t ∈ arguments attrs xs, t.isNumber = true := by
  unfold arguments
  split
  · exact fun t ht => hxs t ((List.mergeSort_perm xs _).mem_iff.mp ht)
  · exact hxs

theorem shareAll_of_numbers (hxs : ∀ t ∈ xs, t.isNumber = true) (next : Nat) :
    Term.shareAll next xs = (xs, next) := by
  induction xs with
  | nil => rfl
  | cons t ts ih =>
      obtain ⟨ht, hts⟩ := List.forall_mem_cons.mp hxs
      have hshare : t.share next = (t, next) := by
        cases t with
        | int n | float x => rfl
        | _ => cases ht
      rw [Term.shareAll, hshare, ih hts]

/-- Naming the nodes of a call on numbers gives a name to the call. -/
theorem exists_run_share_of_numbers (hxs : ∀ t ∈ xs, t.isNumber = true) (i : Nat) (s : Symbol)
    (k : Kernel) :
    ∃ j, (share (.node i (.symbol s) xs)).run k =
      (.ok (.node j (.symbol s) xs), (k.share (.node i (.symbol s) xs)).2) := by
  have hshare : ∃ j, (k.share (.node i (.symbol s) xs)).1 = .node j (.symbol s) xs := by
    rw [Kernel.share]
    cases i with
    | zero =>
        refine ⟨k.stamps.size, ?_⟩
        have hhead : (Term.symbol s).share (k.stamps.size + 1) =
            (.symbol s, k.stamps.size + 1) := rfl
        rw [Term.share, hhead, shareAll_of_numbers hxs]
    | succ i => exact ⟨i + 1, rfl⟩
  obtain ⟨j, hj⟩ := hshare
  exact ⟨j, by rw [← hj]; rfl⟩

theorem exists_run_arrangeCall_of_function (h : k.Applies c s attrs f)
    (hxs : ∀ t ∈ xs, t.isNumber = true) (hv : Gives f s attrs xs v) (generation : Option Nat)
    (i : Nat) :
    ∃ k', (r.arrangeCall c generation attrs (some s) (.node i (.symbol s) xs)).run k =
      (.ok (.rewritten v), k') ∧ k.SameDefinitions k' := by
  have hshared : ∀ (k : Kernel) (t : Term), k.SameDefinitions (k.share t).2 := fun _ _ =>
    ⟨rfl, rfl, rfl, rfl, fun _ => rfl⟩
  obtain ⟨i₁, hshare⟩ := exists_run_share_of_numbers hxs i s k
  obtain ⟨i₂, hnormal⟩ := exists_run_normalize_of_numbers hxs attrs i₁ (.symbol s)
    (k.share (.node i (.symbol s) xs)).2
  have hsame := hshared k (.node i (.symbol s) xs)
  generalize (k.share (.node i (.symbol s) xs)).2 = k₁ at hshare hnormal hsame
  have harguments : ∀ t ∈ arguments attrs xs, t.isNumber = true := isNumber_of_mem_arguments hxs
  obtain ⟨i₃, hshare'⟩ := exists_run_share_of_numbers harguments i₂ s k₁
  have hsame' := hsame.trans (hshared k₁ (.node i₂ (.symbol s) (arguments attrs xs)))
  refine ⟨_, ?_, hsame'⟩
  rw [arrangeCall, EvalM.run_bind_ok hshare, EvalM.run_bind_ok hnormal]
  dsimp only
  rw [finishCall, EvalM.run_bind_ok hshare', EvalM.run_bind_ok
    (run_reduce_of_function (h.of_definitions hsame') harguments (hv i₃))]
  rfl

/-- In the round on the call the function is applied. -/
theorem exists_run_evaluateParts_of_function (fuel : Nat) (hquiet : k.Quiet c)
    (h : k.Applies c s attrs f) (hxs : ∀ t ∈ xs, t.isNumber = true) (hv : Gives f s attrs xs v)
    (generation : Option Nat) (i : Nat) :
    ∃ k', ((ofFuel (fuel + 1)).evaluateParts c generation (.node i (.symbol s) xs)).run k =
      (.ok (.rewritten v), k') ∧ k.SameDefinitions k' := by
  obtain ⟨k₁, hhead, hk₁⟩ := exists_run_evaluateWith_of_idle h.idle hquiet fuel
  obtain ⟨k₂, hargs, hk₂⟩ := exists_run_evaluateArgs_of_numbers hxs (hk₁.quiet hquiet) fuel attrs 1
  obtain ⟨j, hrebuilt⟩ : ∃ j, rebuild (.node i (.symbol s) xs) (.symbol s) xs =
      .node j (.symbol s) xs := by
    unfold rebuild
    split
    · exact ⟨i, rfl⟩
    · exact ⟨0, rfl⟩
  have hsame := hk₁.trans hk₂
  obtain ⟨k₃, hrun, hk₃⟩ := exists_run_arrangeCall_of_function (r := ofFuel (fuel + 1))
    (h.of_definitions hsame) hxs hv generation j
  have hget : (get : EvalM Kernel).run k₁ = (.ok k₁, k₁) := rfl
  refine ⟨k₃, ?_, hsame.trans hk₃⟩
  rw [evaluateParts_eq]
  refine (EvalM.run_bind_ok hhead).trans ((EvalM.run_bind_ok hget).trans ?_)
  dsimp only [symbol?]
  rw [(h.of_definitions hk₁).attributes, evaluateOn]
  refine (EvalM.run_bind_ok hargs).trans ?_
  rw [hrebuilt]
  exact hrun

/-- A round on a call that ends with a number or a symbol has changed it. -/
theorem exists_run_endRound_of_rests (hrests : k.Rests c v) (i : Nat) (s : Symbol)
    (xs : List Term) :
    ∃ k', (endRound c (.node i (.symbol s) xs) (.rewritten v)).run k = (.ok (.rewritten v), k') ∧
      k.SameDefinitions k' := by
  refine ⟨(k.share v).2, ?_, rfl, rfl, rfl, rfl, fun _ => rfl⟩
  cases v with
  | int n | float x | symbol s => rfl
  | _ => cases hrests

theorem exists_run_evaluateRound_of_function (fuel : Nat) (hready : k.Ready c)
    (h : k.Applies c s attrs f) (hxs : ∀ t ∈ xs, t.isNumber = true) (hv : Gives f s attrs xs v)
    (hrests : k.Rests c v) :
    ∃ k', ((ofFuel (fuel + 1)).evaluateRound c (.call (.symbol s) xs)).run k =
      (.ok (.rewritten v), k') ∧ k.SameDefinitions k' := by
  let k₀ := k.elapse Kernel.lookTime
  have hsame : k.SameDefinitions (k₀.share (.call (.symbol s) xs)).2 :=
    k.sameDefinitions_elapse_share _ _
  have hfresh := Kernel.not_remembers_share_call (k := k₀) hready.generation c (.symbol s) xs
  obtain ⟨j, hshare⟩ : ∃ j, (share (.call (.symbol s) xs)).run k₀ =
      (.ok (.node j (.symbol s) xs), (k₀.share (.call (.symbol s) xs)).2) :=
    exists_run_share_of_numbers hxs 0 s k₀
  have hnode : (k₀.share (.call (.symbol s) xs)).1 = .node j (.symbol s) xs :=
    Except.ok.inj (congrArg Prod.fst hshare)
  rw [hnode] at hfresh
  have hwithin : (k₀.share (.call (.symbol s) xs)).2.depth c <
    (k₀.share (.call (.symbol s) xs)).2.config.maxRecursion := hready.depth
  have hstep := run_roundStep_call hfresh hwithin (ofFuel (fuel + 1))
  generalize (k₀.share (.call (.symbol s) xs)).2 = k₁ at hsame hfresh hstep hshare hwithin
  have henter : k₁.SameDefinitions (k₁.enter c) :=
    Kernel.sameDefinitions_updateContext k₁ c fun _ => rfl
  have hentered := hsame.trans henter
  obtain ⟨k₂, hparts, hk₂⟩ := exists_run_evaluateParts_of_function fuel
    (hentered.quiet hready.quiet) (h.of_definitions hentered) hxs hv (k₁.stampGeneration? c) j
  rw [EvalM.run_ensuring, hparts] at hstep
  have hleave : k₂.SameDefinitions (k₂.leave c) :=
    Kernel.sameDefinitions_updateContext k₂ c fun _ => rfl
  obtain ⟨k', hend, hk'⟩ := exists_run_endRound_of_rests
    (hrests.of_definitions (hentered.trans (hk₂.trans hleave))) j s xs
  refine ⟨k', ?_, hentered.trans (hk₂.trans (hleave.trans hk'))⟩
  rw [evaluateRound_eq, EvalM.run_bind_ok (run_checkAbort hready.quiet)]
  refine (EvalM.run_bind_ok hshare).trans ?_
  rw [EvalM.run_bind_ok hstep]
  exact hend

/-- A call on numbers of a symbol with a function for native code evaluates to what the function
gives for it. -/
theorem exists_run_evaluateWith_of_function (hready : k.Ready c) (h : k.Applies c s attrs f)
    (hxs : ∀ t ∈ xs, t.isNumber = true) (hv : Gives f s attrs xs v) (hrests : k.Rests c v)
    (fuel : Nat) :
    ∃ k', (evaluateWith (fuel + 2) c (.call (.symbol s) xs)).run k = (.ok v, k') := by
  have hget : (get : EvalM Kernel).run k = (.ok k, k) := rfl
  obtain ⟨k₁, hround, hk₁⟩ :=
    exists_run_evaluateRound_of_function fuel hready h hxs hv hrests
  obtain ⟨left, hleft⟩ := Nat.exists_eq_succ_of_ne_zero (Nat.ne_of_gt hready.iterations)
  have hlast := run_evaluateRounds_done (run_evaluateRound_of_rests (r := ofFuel (fuel + 1))
    (hrests.of_definitions hk₁) (hk₁.quiet hready.quiet)) left
  have hrounds : ∃ k', ((ofFuel (fuel + 1)).evaluateRounds c k.config.maxIterations
      (.call (.symbol s) xs)).run k = (.ok v, k') := by
    rw [hleft, evaluateRounds_eq, EvalM.run_bind_ok hround]
    exact ⟨_, hlast⟩
  obtain ⟨k', hrounds⟩ := hrounds
  change ∃ k', ((ofFuel (fuel + 1)).evaluateFully c (.call (.symbol s) xs)).run k = (.ok v, k')
  rw [evaluateFully, EvalM.run_bind_ok hget]
  dsimp only
  split
  · exact ⟨_, by rw [EvalM.run_ensuring, hrounds]⟩
  · exact ⟨k', hrounds⟩

end Evaluator

/-! ## arithmetic -/

namespace Host

/-- A new kernel with arithmetic and a root context. -/
def arithmeticKernel : Kernel := (installArithmetic.run (.new {})).2.newRoot.2

/-- Installing arithmetic makes its functions decide on the calls of its symbols. -/
theorem applies_arithmeticKernel :
    (installArithmetic.run (.new {})).1 = .ok () ∧ arithmeticKernel.Ready ⟨0⟩ ∧
      arithmeticKernel.Applies ⟨0⟩ ⟨38, "Plus"⟩ numericAttributes Fold.sum.call ∧
      arithmeticKernel.Applies ⟨0⟩ ⟨39, "Times"⟩ numericAttributes Fold.product.call ∧
      arithmeticKernel.Applies ⟨0⟩ ⟨40, "Less"⟩ .none (compareNumbers .lt) ∧
      arithmeticKernel.Applies ⟨0⟩ ⟨41, "Greater"⟩ .none (compareNumbers .gt) := by
  refine ⟨rfl, ⟨⟨rfl, rfl⟩, by decide, by decide, by decide⟩, ?_, ?_, ?_, ?_⟩
  all_goals exact ⟨rfl, .inr ⟨rfl, rfl⟩, rfl, rfl, rfl⟩

end Host

end Termwise
