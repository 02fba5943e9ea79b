import Termwise.Proofs.Eval.Continuation

/-!
# Termwise.Proofs.Eval.ArgumentOrder

Calls of an orderless symbol on arguments that evaluate to themselves.  Where nothing is
remembered the arguments may come in any order (`Kernel.Forgetful.evaluateWith_perm`): once
they are evaluated, two calls that differ in their order have one normal form, from where
the two runs go on in lockstep.

A round also ends when it gives back the call it was started on, and that may stop one of
the runs before the other.  The other has just one round more to go then, the same that
the first one stopped with (`Arrives.overtaken`).

Where results are remembered the order may make a difference
(`exists_order_of_held_sequence`).
-/

namespace Termwise

open Evaluator

/-! ## normal forms -/

/-- Attributes that hold no argument and thread over no list, but let arguments be sorted. -/
structure Attributes.Sorting (attrs : Attributes) : Prop where
  orderless : attrs.has .orderless = true
  free : ∀ i, attrs.holds i = false
  unthreaded : attrs.has .listable = false

/-- The normal form of a call of a symbol. -/
def Evaluator.normalCall (attrs : Attributes) (s : Symbol) (args : List Term) : Term :=
  rearranged attrs (spliced attrs (.call (.symbol s) args))

namespace Kernel

/-- From a later kernel of a run an action comes to the normal form of a call, with all parts
evaluated. -/
def Comes (k : Kernel) (c : ContextId) (fuel : Nat) (s : Symbol) (args : List Term)
    (generation : Option Nat) (x : EvalM Step) (k' : Kernel) (ledger' : List Term) : Prop :=
  ∃ normal k'' ledger'',
    x.run k' = ((ofFuel fuel).finishCall c generation (k.attributes s) (some s) normal).run k'' ∧
      normal.strip = (normalCall (k.attributes s) s args).strip ∧ ledger' <+: ledger'' ∧
      normal.Booked ledger'' ∧ k.Continues k'' c ledger''

variable {k k' : Kernel} {c : ContextId} {ledger ledger' : List Term} {fuel : Nat} {s : Symbol}
  {xs xs' : List Term} {i : Nat} {generation : Option Nat}

theorem Continues.evaluateOn (hk : k.Continues k' c ledger') (h : k.Forgetful c ledger)
    (hdepth : 0 < k.depth c) (hattrs : (k.attributes s).Sorting) (hxs : ∀ x ∈ xs, x.Booked ledger)
    (hcall : (Term.node i (.symbol s) xs').Booked ledger')
    (hstrip : xs.map Term.strip = xs'.map Term.strip) (hkeeps : ∀ x ∈ xs, (ofFuel fuel).Keeps c k x)
    (hquiet : Unreported ((ofFuel fuel).evaluateOn c generation (.node i (.symbol s) xs')
      (.symbol s) (k.attributes s)) k') :
    k.Comes c fuel s xs generation ((ofFuel fuel).evaluateOn c generation
      (.node i (.symbol s) xs') (.symbol s) (k.attributes s)) k' ledger' := by
  have hxs' := (Term.booked_node.mp hcall).2.2
  obtain ⟨hquiet, -⟩ := hquiet.bind (steady_evaluateArgs fuel c _ 1 xs')
    (fun args => steady_arrangeCall fuel c generation _ (some s) _) (hk.orderly h)
  obtain ⟨vs, k₁, ledger₁, hrun, hvs, hle, hbooked, hk₁⟩ :=
    hk.evaluateArgs h hdepth hattrs.free hxs hxs' hstrip hkeeps hquiet
  -- the call made from the results, and its nodes named
  have hcall₁ := hcall.mono hle
  have hsymbol : (Term.symbol s).Booked ledger₁ := Term.booked_symbol s
  have hlength : vs.length = xs'.length := by
    rw [← List.length_map Term.strip, hvs, hstrip, List.length_map]
  have hrebuilt := Term.strip_rebuild hcall₁ hsymbol hbooked hlength
  have hrebuiltBooked := hcall₁.rebuild hsymbol hbooked
  generalize hu : rebuild (.node i (.symbol s) xs') (.symbol s) vs = u at hrebuilt hrebuiltBooked
  obtain ⟨ledger₂, hle', hk₂, hshared⟩ := hk₁.exists_share hrebuiltBooked
  have hlike : Likeness.structural.Like ⟨ledger₂, ledger₂⟩ (k₁.share u).1
      (.call (.symbol s) vs) := by
    refine ⟨(Term.strip_share u _).trans hrebuilt, hshared, ?_⟩
    exact Term.booked_call (Term.booked_symbol s) fun v hv => (hbooked v hv).mono hle'
  have hnormal := Likeness.like_rearranged (k.attributes s)
    (Likeness.like_spliced (k.attributes s) hlike)
  refine ⟨_, (k₁.share u).2, ledger₂, ?_, ?_, hle.trans hle', hnormal.2.1, hk₂⟩
  · have hshare : (Termwise.share u).run k₁ = (.ok (k₁.share u).1, (k₁.share u).2) := rfl
    refine (EvalM.run_bind_ok hrun).trans ?_
    rw [hu, Evaluator.arrangeCall, EvalM.run_bind_ok hshare,
      EvalM.run_bind_ok (run_normalize hattrs.unthreaded _ _)]
    rfl
  · refine hnormal.1.trans (strip_rearranged_of_perm hattrs.orderless s ?_)
    rw [hvs]

theorem Continues.evaluateParts (hk : k.Continues k' c ledger') (h : k.Forgetful c ledger)
    (hdepth : 0 < k.depth c) (hattrs : (k.attributes s).Sorting) (hxs : ∀ x ∈ xs, x.Booked ledger)
    (hcall : (Term.node i (.symbol s) xs').Booked ledger')
    (hstrip : xs.map Term.strip = xs'.map Term.strip) (hhead : (ofFuel fuel).Keeps c k (.symbol s))
    (hkeeps : ∀ x ∈ xs, (ofFuel fuel).Keeps c k x)
    (hquiet : Unreported
      ((ofFuel fuel).evaluateParts c generation (.node i (.symbol s) xs')) k') :
    k.Comes c fuel s xs generation
      ((ofFuel fuel).evaluateParts c generation (.node i (.symbol s) xs')) k' ledger' := by
  rw [evaluateParts_eq] at hquiet ⊢
  obtain ⟨hquiet, hthen⟩ := hquiet.bind (steady_evaluate fuel c _)
    (fun head => (orderlyKernels.agreeing c).alike_bind Contract.calm_get.alike fun k =>
      steady_evaluateOn fuel c _ _ _ _) (hk.orderly h)
  obtain ⟨v, k₁, ledger₁, hrun, hv, hle, hbooked, hk₁⟩ :=
    hk.evaluate h hdepth (Term.booked_symbol s) (Term.booked_symbol s) rfl hhead hquiet
  have hsymbol : v = .symbol s := by
    cases v with
    | symbol => exact hv
    | _ => cases hv
  subst hsymbol
  have hget : (get : EvalM Kernel).run k₁ = (.ok k₁, k₁) := rfl
  have hattributes : k₁.attributes s = k.attributes s := by
    rw [attributes, attributes, hk₁.definitions.record_eq]
  have hon := hthen _ _ hrun
  rw [Unreported, EvalM.run_bind_ok hget] at hon
  simp only [symbol?, hattributes] at hon
  obtain ⟨normal, k₂, ledger₂, hrun₂, hnormal, hle₂, hbooked₂, hk₂⟩ :=
    hk₁.evaluateOn h hdepth hattrs hxs (hcall.mono hle) hstrip hkeeps hon
  refine ⟨normal, k₂, ledger₂, ?_, hnormal, hle.trans hle₂, hbooked₂, hk₂⟩
  refine (EvalM.run_bind_ok hrun).trans ((EvalM.run_bind_ok hget).trans ?_)
  simp only [symbol?, hattributes]
  exact hrun₂

end Kernel

/-! ## rounds -/

theorem Evaluator.run_endRound_stop {c : ContextId} {t next : Term} (h : next.strip = t.strip)
    (k : Kernel) : ∃ v k', (endRound c t (.rewritten next)).run k = (.ok (.done v), k') ∧
      v.strip = next.strip := by
  have hshare : (Termwise.share next).run k = (.ok (k.share next).1, (k.share next).2) := rfl
  have hstrip : (k.share next).1.strip = next.strip := Term.strip_share next _
  have hbeq : ((k.share next).1 == t) = true := (Term.beq_iff_strip _ _).mpr (hstrip.trans h)
  have hrun : (endRound c t (.rewritten next)).run k = (do
      modify fun k' => k'.stamp c (k.share next).1 (k'.stampGeneration? c)
      return .done (k.share next).1 : EvalM Step).run (k.share next).2 := by
    rw [endRound, EvalM.run_bind_ok hshare, if_pos hbeq]
  exact ⟨(k.share next).1, _, hrun, hstrip⟩

theorem Evaluator.run_endRound_go {c : ContextId} {t next : Term} (h : next.strip ≠ t.strip)
    (k : Kernel) : (endRound c t (.rewritten next)).run k =
      (.ok (.rewritten (k.share next).1), (k.share next).2) := by
  have hshare : (Termwise.share next).run k = (.ok (k.share next).1, (k.share next).2) := rfl
  have hbeq : ¬((k.share next).1 == t) = true := fun hbeq =>
    h ((Term.strip_share next _).symm.trans ((Term.beq_iff_strip _ _).mp hbeq))
  rw [endRound, EvalM.run_bind_ok hshare, if_neg hbeq]
  rfl

namespace Kernel

variable {k k' : Kernel} {c : ContextId} {ledger ledger' : List Term} {fuel : Nat} {s : Symbol}
  {xs : List Term}

/-- A call of a symbol that may be sorted, entered within the recursion limit, where the symbol and
the arguments evaluate to themselves. -/
structure Calls (k : Kernel) (c : ContextId) (ledger : List Term) (fuel : Nat) (s : Symbol)
    (xs : List Term) : Prop where
  known : c.index < k.contexts.size
  within : k.depth c < k.config.maxRecursion
  sorting : (k.attributes s).Sorting
  booked : ∀ x ∈ xs, x.Booked ledger
  head : (ofFuel fuel).Keeps c (k.enter c) (.symbol s)
  args : ∀ x ∈ xs, (ofFuel fuel).Keeps c (k.enter c) x

theorem Calls.term (hcalls : k.Calls c ledger fuel s xs) :
    (Term.call (.symbol s) xs).Booked ledger :=
  Term.booked_call (Term.booked_symbol s) hcalls.booked

/-- Parts of the call are evaluated inside it. -/
theorem Calls.inside (hcalls : k.Calls c ledger fuel s xs) : 0 < (k.enter c).depth c := by
  rw [depth_enter hcalls.known]
  exact Nat.succ_pos _

/-- A round on a call that has come to the normal form of the call, with all parts evaluated. -/
structure Arrives (k : Kernel) (c : ContextId) (fuel : Nat) (s : Symbol) (xs : List Term)
    (call normal : Term) (k' : Kernel) (ledger' : List Term) : Prop where
  run : ((ofFuel fuel).evaluateRound c (.call (.symbol s) xs)).run k =
    (((ofFuel fuel).finishCall c none (k.attributes s) (some s) normal).ensuring
      (fun k => k.leave c) >>= endRound c call).run k'
  named : call.strip = (Term.call (.symbol s) xs).strip
  arranged : normal.strip = (normalCall (k.attributes s) s xs).strip
  booked : normal.Booked ledger'
  continues : (k.enter c).Continues k' c ledger'

theorem exists_share_call (k : Kernel) (s : Symbol) (xs : List Term) :
    ∃ i xs', (k.share (.call (.symbol s) xs)).1 = .node i (.symbol s) xs' ∧
      xs.map Term.strip = xs'.map Term.strip := by
  refine ⟨_, _, rfl, ?_⟩
  have hstrip : (k.share (.call (.symbol s) xs)).1.strip = (Term.call (.symbol s) xs).strip :=
    Term.strip_share _ _
  rw [Term.strip_call, ← Term.stripAll_eq_map] at hstrip
  rw [← Term.stripAll_eq_map, ← Term.stripAll_eq_map]
  exact (Term.node.inj hstrip).2.2.symm

/-- Unless an abort is pending, a round on a call comes to its normal form. -/
theorem Calls.arrives (hcalls : k.Calls c ledger fuel s xs) (h : k.Forgetful c ledger)
    (hcheck : (checkAbort c).run k = (.ok (), k'))
    (hquiet : Unreported ((ofFuel fuel).evaluateRound c (.call (.symbol s) xs)) k) :
    ∃ call normal k'' ledger'', k.Arrives c fuel s xs call normal k'' ledger'' := by
  have hk' : k' = k.elapse lookTime := by rw [← kernel_run_checkAbort k c, hcheck]
  have hcontinues : k.Continues k' c ledger := by
    rw [hk']
    exact h.booked.continues.elapse lookTime
  -- the nodes of the call are named
  obtain ⟨ledger₀, -, hk₀, hcall⟩ := hcontinues.exists_share hcalls.term
  have hshare : (Termwise.share (.call (.symbol s) xs)).run k' =
      (.ok (k'.share (.call (.symbol s) xs)).1, (k'.share (.call (.symbol s) xs)).2) := rfl
  have hstrip : (k'.share (.call (.symbol s) xs)).1.strip = (Term.call (.symbol s) xs).strip :=
    Term.strip_share _ _
  have hreports : (k'.share (.call (.symbol s) xs)).2.reports = k.reports := by
    rw [hk']
    rfl
  obtain ⟨i, xs', hnode, hargs⟩ := k'.exists_share_call s xs
  rw [hnode] at hcall hshare hstrip
  generalize (k'.share (.call (.symbol s) xs)).2 = k₀ at hk₀ hshare hreports
  -- the call is entered
  have hforgetful := (hk₀.definitions.stampGeneration?_eq c).trans h.forgetful
  have hfresh : (k₀.stampGeneration? c).any (k₀.isEvaluated (.node i (.symbol s) xs')) = false := by
    rw [hforgetful]
    rfl
  have hstep := run_roundStep_call hfresh (by rw [hk₀.depth, hk₀.config]; exact hcalls.within)
    (ofFuel fuel)
  rw [hforgetful] at hstep
  have hround : ((ofFuel fuel).evaluateRound c (.call (.symbol s) xs)).run k =
      ((ofFuel fuel).roundStep c (.node i (.symbol s) xs') >>=
        endRound c (.node i (.symbol s) xs')).run k₀ := by
    rw [evaluateRound_eq, EvalM.run_bind_ok hcheck, EvalM.run_bind_ok hshare]
  rw [Unreported, hround, ← hreports] at hquiet
  obtain ⟨hunreported, -⟩ := Unreported.bind hquiet (steady_roundStep fuel c _)
    (fun step => steady_endRound c _ step) (hk₀.orderly h)
  rw [Unreported, hstep] at hunreported
  obtain ⟨normal, k₁, ledger₁, hparts, hnormal, -, hbooked, hk₁⟩ :=
    hk₀.enter.evaluateParts h.enter hcalls.inside hcalls.sorting hcalls.booked hcall hargs
      hcalls.head hcalls.args hunreported
  refine ⟨_, normal, k₁, ledger₁, ?_, hstrip, hnormal, hbooked, hk₁⟩
  rw [hround]
  refine EvalM.run_bind_congr _ (hstep.trans ?_)
  rw [EvalM.run_ensuring, EvalM.run_ensuring, hparts]
  rfl

/-! ## ends of rounds -/

namespace Arrives

variable {call normal : Term} {k'' : Kernel} {result : Except EvalError Step}

theorem round_error (ha : k.Arrives c fuel s xs call normal k' ledger') {e : EvalError}
    (hrun : ((ofFuel fuel).finishCall c none (k.attributes s) (some s) normal).run k' =
      (.error e, k'')) :
    ((ofFuel fuel).evaluateRound c (.call (.symbol s) xs)).run k = (.error e, k''.leave c) := by
  rw [ha.run]
  refine EvalM.run_bind_error ?_
  rw [EvalM.run_ensuring, hrun]

theorem round_ok (ha : k.Arrives c fuel s xs call normal k' ledger') {step : Step}
    (hrun : ((ofFuel fuel).finishCall c none (k.attributes s) (some s) normal).run k' =
      (.ok step, k'')) :
    ((ofFuel fuel).evaluateRound c (.call (.symbol s) xs)).run k =
      (endRound c call step).run (k''.leave c) := by
  rw [ha.run]
  refine EvalM.run_bind_ok ?_
  rw [EvalM.run_ensuring, hrun]

/-- Up to its end, a round that reports no limit has reported none. -/
theorem unreported (ha : k.Arrives c fuel s xs call normal k' ledger') (h : k.Forgetful c ledger)
    (hquiet : Unreported ((ofFuel fuel).evaluateRound c (.call (.symbol s) xs)) k) :
    Unreported ((ofFuel fuel).finishCall c none (k.attributes s) (some s) normal) k' := by
  have hk' := ha.continues.orderly h.enter
  have hbefore : k.reports ≤ k'.reports := ha.continues.reports_le
  have hpreserves := (steady_finishCall fuel c none (k.attributes s) (some s) normal).preserves hk'
  have hmeanwhile := hpreserves.reports_le
  rw [Unreported] at hquiet ⊢
  rcases hrun : ((ofFuel fuel).finishCall c none (k.attributes s) (some s) normal).run k' with
    ⟨result, k₁⟩
  rw [hrun] at hpreserves hmeanwhile
  have hafter : k₁.reports ≤ k.reports := by
    rw [← hquiet]
    cases result with
    | error e =>
        rw [ha.round_error hrun]
        exact Nat.le_refl _
    | ok step =>
        rw [ha.round_ok hrun]
        have hleft : (k₁.leave c).Orderly :=
          (hk'.of_symbols_eq hpreserves.definitions.symbols).of_symbols_eq rfl
        exact ((steady_endRound c call step).preserves hleft).reports_le
  dsimp only at hmeanwhile ⊢
  omega

/-- A round stops at what it was started on. -/
theorem stops (ha : k.Arrives c fuel s xs call normal k' ledger') {next : Term}
    (hrun : ((ofFuel fuel).finishCall c none (k.attributes s) (some s) normal).run k' =
      (.ok (.rewritten next), k'')) (hsame : next.strip = (Term.call (.symbol s) xs).strip) :
    ∃ v k₁, ((ofFuel fuel).evaluateRound c (.call (.symbol s) xs)).run k = (.ok (.done v), k₁) ∧
      v.strip = next.strip := by
  rw [ha.round_ok hrun]
  exact run_endRound_stop (hsame.trans ha.named.symm) _

/-- A round on something else goes on. -/
theorem goes (ha : k.Arrives c fuel s xs call normal k' ledger') {next : Term}
    (hrun : ((ofFuel fuel).finishCall c none (k.attributes s) (some s) normal).run k' =
      (.ok (.rewritten next), k'')) (hne : next.strip ≠ (Term.call (.symbol s) xs).strip) :
    ((ofFuel fuel).evaluateRound c (.call (.symbol s) xs)).run k =
      (.ok (.rewritten ((k''.leave c).share next).1), ((k''.leave c).share next).2) := by
  rw [ha.round_ok hrun]
  exact run_endRound_go (fun hsame => hne (hsame.trans ha.named)) _

end Arrives

/-! ## one run stops before the other -/

/-- What a round ends with, evaluation of an equal term later in the run does. -/
theorem Continues.evaluateRounds (hk : k.Continues k' c ledger') (h : k.Forgetful c ledger)
    {t t' v : Term} {k₁ : Kernel} (ht : t.Booked ledger) (ht' : t'.Booked ledger')
    (hstrip : t.strip = t'.strip)
    (hround : ((ofFuel fuel).evaluateRound c t).run k = (.ok (.done v), k₁)) (left : Nat) :
    ∃ v' k'', ((ofFuel fuel).evaluateRounds c left t').run k' = (.ok v', k'') ∧
      v.strip = v'.strip := by
  obtain ⟨m, owners, w, hw, hkernels, hresults⟩ :=
    h.endAlike (R := Likeness.structural.Steps) h.booked.continues hk fun m owners =>
      (inLockstep_ofFuel (Twins.hosts_forgetful m c owners) fuel).evaluateRound
        (Twins.hosts_forgetful m c owners) ⟨hstrip, ht, ht'⟩
  rcases hrun : ((ofFuel fuel).evaluateRound c t').run k' with ⟨result, k''⟩
  rw [hround, hrun] at hresults
  cases hresults with
  | ok hstep =>
      cases hstep with
      | @done _ v' hlike =>
          exact ⟨v', k'', run_evaluateRounds_done hrun left, hlike.1⟩

/-- Where a round on a call stops at an equal term, a run that goes on from there has one round
more to go. -/
theorem Continues.afterRound (hk : k.Continues k' c ledger') (h : k.Forgetful c ledger)
    {t t' v : Term} {k₁ : Kernel} (ht : t.Booked ledger) (ht' : t'.Booked ledger')
    (hstrip : t.strip = t'.strip)
    (hround : ((ofFuel fuel).evaluateRound c t).run k = (.ok (.done v), k₁)) {left : Nat}
    (hquiet : Unreported ((ofFuel fuel).afterRound c left (.rewritten t')) k') :
    ∃ v' k'', ((ofFuel fuel).afterRound c left (.rewritten t')).run k' = (.ok v', k'') ∧
      v.strip = v'.strip := by
  cases left with
  | zero =>
      -- the iteration limit is hit, and reported
      let reported := k'.addMessage .general "itlim" [.int (.ofNat k'.config.maxIterations)]
      have hrun : ((ofFuel fuel).afterRound c 0 (.rewritten t')).run k' =
          (hold c t').run reported := rfl
      have hreported : reported.reports = k'.reports + 1 := List.countP_cons_of_pos rfl
      have hsteady : Steady c (hold c t') := (calm_hold (hosts_orderlyKernels c) t').alike
      have hle := (hsteady.preserves (k := reported) ((hk.orderly h).of_symbols_eq rfl)).reports_le
      rw [Unreported, hrun] at hquiet
      omega
  | succ left => exact hk.evaluateRounds h ht ht' hstrip hround left

/-- Two runs end with equal terms if one stops at the call it was started on and the other, started
on another call, goes on with it. -/
theorem Arrives.overtaken {ys : List Term} {call call' normal normal' next next' : Term}
    {k₁ k₂ k₁' k₂' : Kernel} {ledger₁ ledger₂ ledger₂' : List Term}
    (hxs : k.Arrives c fuel s xs call normal k₁ ledger₁)
    (hys : k.Arrives c fuel s ys call' normal' k₂ ledger₂) (h : k.Forgetful c ledger)
    (hbooked : ∀ x ∈ xs, x.Booked ledger)
    (hrun : ((ofFuel fuel).finishCall c none (k.attributes s) (some s) normal).run k₁ =
      (.ok (.rewritten next), k₁'))
    (hrun' : ((ofFuel fuel).finishCall c none (k.attributes s) (some s) normal').run k₂ =
      (.ok (.rewritten next'), k₂'))
    (hnext : next'.Booked ledger₂') (hk : (k.enter c).Continues k₂' c ledger₂')
    (hstrip : next.strip = next'.strip) (hstops : next.strip = (Term.call (.symbol s) xs).strip)
    (hgoes : next'.strip ≠ (Term.call (.symbol s) ys).strip) {left : Nat}
    (hquiet : Unreported ((ofFuel fuel).evaluateRounds c left (.call (.symbol s) ys)) k) :
    ∃ v v' k₃ k₃',
      ((ofFuel fuel).evaluateRounds c left (.call (.symbol s) xs)).run k = (.ok v, k₃) ∧
      ((ofFuel fuel).evaluateRounds c left (.call (.symbol s) ys)).run k = (.ok v', k₃') ∧
      v.strip = v'.strip := by
  obtain ⟨v, k₃, hstop, hv⟩ := hxs.stops hrun hstops
  have hgo := hys.goes hrun' hgoes
  obtain ⟨ledger₃, -, hk₃, hshared⟩ := hk.leave.exists_share hnext
  have hsame : (Term.call (.symbol s) xs).strip = ((k₂'.leave c).share next').1.strip :=
    (hstops.symm.trans hstrip).trans (Term.strip_share next' _).symm
  rw [evaluateRounds_eq] at hquiet
  have hafter := (hquiet.bind (steady_evaluateRound fuel c _) (steady_afterRound fuel c left)
    h.orderly).2 _ _ hgo
  obtain ⟨v', k₄, hrest, hv'⟩ := hk₃.afterRound h
    (Term.booked_call (Term.booked_symbol s) hbooked) hshared hsame hstop hafter
  refine ⟨v, v', k₃, k₄, run_evaluateRounds_done hstop left, ?_, hv'⟩
  rw [evaluateRounds_eq, EvalM.run_bind_ok hgo, hrest]

end Kernel

/-- Whether all native code of a symbol is the evaluator's own. -/
def SymbolRecord.isBuiltIn (r : SymbolRecord) : Bool :=
  [CodeUsage.down, .sub, .up].all fun usage => (r.code.get usage).all fun code =>
    match code with
    | .function _ => false
    | code => code.isOrderly

/-! ## the order of arguments -/

/-- Outcomes of evaluation that are the same: equal results, throws of equal terms, or the same
other error. -/
inductive SameOutcome : Except EvalError Term → Except EvalError Term → Prop
  | ok {v v' : Term} : (v == v') = true → SameOutcome (.ok v) (.ok v')
  | thrown {v v' : Term} : (v == v') = true → SameOutcome (.error (.thrown v)) (.error (.thrown v'))
  | failed (e : EvalError) : SameOutcome (.error e) (.error e)

theorem SameOutcome.symm {result result' : Except EvalError Term}
    (h : SameOutcome result result') : SameOutcome result' result := by
  cases h with
  | ok h => exact .ok ((Term.beq_iff_strip _ _).mpr ((Term.beq_iff_strip _ _).mp h).symm)
  | thrown h => exact .thrown ((Term.beq_iff_strip _ _).mpr ((Term.beq_iff_strip _ _).mp h).symm)
  | failed e => exact .failed e

theorem SameOutcome.trans {result result' result'' : Except EvalError Term}
    (h : SameOutcome result result') (h' : SameOutcome result' result'') :
    SameOutcome result result'' := by
  have hbeq : ∀ {u v w : Term}, (u == v) = true → (v == w) = true → (u == w) = true :=
    fun huv hvw => (Term.beq_iff_strip _ _).mpr
      (((Term.beq_iff_strip _ _).mp huv).trans ((Term.beq_iff_strip _ _).mp hvw))
  cases h with
  | ok h =>
      cases h' with
      | ok h' => exact .ok (hbeq h h')
  | thrown h =>
      cases h' with
      | thrown h' => exact .thrown (hbeq h h')
      | failed => exact .thrown h
  | failed e => exact h'

theorem sameOutcome_of_outcomes {w : Ledgers} {result result' : Except EvalError Term}
    (h : Likeness.structural.Outcomes w Likeness.structural.Like result result') :
    SameOutcome result result' := by
  cases h with
  | ok h => exact .ok ((Term.beq_iff_strip _ _).mpr h.1)
  | error h =>
      cases h with
      | thrown h => exact .thrown ((Term.beq_iff_strip _ _).mpr h.1)
      | other => exact .failed _

namespace Kernel

variable {k : Kernel} {c : ContextId} {ledger : List Term} {fuel : Nat} {s : Symbol}
  {xs ys : List Term}

theorem Forgetful.unreported_round (h : k.Forgetful c ledger) {left : Nat} {t : Term}
    (hquiet : Unreported ((ofFuel fuel).evaluateRounds c left t) k) :
    Unreported ((ofFuel fuel).evaluateRound c t) k := by
  rw [evaluateRounds_eq] at hquiet
  exact (hquiet.bind (steady_evaluateRound fuel c _) (steady_afterRound fuel c left) h.orderly).1

/-- Two rounds that have come to one normal form go on alike, each later in a run of its own. -/
theorem Arrives.finish {call call' normal normal' : Term} {k₁ k₂ : Kernel}
    {ledger₁ ledger₂ : List Term} (hx : k.Arrives c fuel s xs call normal k₁ ledger₁)
    (hy : k.Arrives c fuel s ys call' normal' k₂ ledger₂) (h : k.Forgetful c ledger)
    (hinside : 0 < (k.enter c).depth c) (hnormal : normal.strip = normal'.strip)
    (hquiet : Unreported ((ofFuel fuel).evaluateRound c (.call (.symbol s) xs)) k)
    (hquiet' : Unreported ((ofFuel fuel).evaluateRound c (.call (.symbol s) ys)) k) :
    let x := (ofFuel fuel).finishCall c none (k.attributes s) (some s) normal
    let y := (ofFuel fuel).finishCall c none (k.attributes s) (some s) normal'
    ∃ m owners w, Alongside m c owners w 0 (x.run k₁).2 (y.run k₂).2 ∧
      Likeness.structural.Outcomes w Likeness.structural.Steps (x.run k₁).1 (y.run k₂).1 ∧
      (k.enter c).Continues (x.run k₁).2 c w.first ∧
      (k.enter c).Continues (y.run k₂).2 c w.second := by
  intro x y
  obtain ⟨m, owners, w, -, hkernels, hresults⟩ :=
    h.enter.endAlike (R := Likeness.structural.Steps) hx.continues hy.continues fun m owners =>
      (inLockstep_ofFuel (Twins.hosts_forgetful m c owners) fuel).finishCall
        (Twins.hosts_forgetful m c owners) (n := 0) ⟨rfl, rfl⟩ (k.attributes s) (some s)
        ⟨hnormal, hx.booked, hy.booked⟩
  exact ⟨m, owners, w, hkernels, hresults,
    hx.continues.run h.enter hinside (steady_finishCall fuel c none _ _ normal)
      (hx.unreported h hquiet) hkernels.booked,
    hy.continues.run h.enter hinside (steady_finishCall fuel c none _ _ normal')
      (hy.unreported h hquiet') hkernels.booked'⟩

/-- Two runs that go on with other terms than they were started on do so in lockstep. -/
theorem Arrives.sameOutcome_of_goes {call call' normal normal' next next' : Term}
    {k₁ k₂ k₁' k₂' : Kernel} {ledger₁ ledger₂ : List Term} {m : Counts}
    {owners : List ContextId} {w : Ledgers}
    (hx : k.Arrives c fuel s xs call normal k₁ ledger₁)
    (hy : k.Arrives c fuel s ys call' normal' k₂ ledger₂)
    (hrun : ((ofFuel fuel).finishCall c none (k.attributes s) (some s) normal).run k₁ =
      (.ok (.rewritten next), k₁'))
    (hrun' : ((ofFuel fuel).finishCall c none (k.attributes s) (some s) normal').run k₂ =
      (.ok (.rewritten next'), k₂'))
    (hkernels : Alongside m c owners w 0 k₁' k₂') (hnext : Likeness.structural.Like w next next')
    (hgoes : next.strip ≠ (Term.call (.symbol s) xs).strip)
    (hgoes' : next'.strip ≠ (Term.call (.symbol s) ys).strip) (left : Nat) :
    SameOutcome (((ofFuel fuel).evaluateRounds c left (.call (.symbol s) xs)).run k).1
      (((ofFuel fuel).evaluateRounds c left (.call (.symbol s) ys)).run k).1 := by
  have hosts := Twins.hosts_forgetful m c owners
  obtain ⟨w', -, hkernels', hshared⟩ := hosts.share 0 hnext _ _ _ le_rfl (hosts.leave hkernels)
  rw [evaluateRounds_eq, evaluateRounds_eq, EvalM.run_bind_ok (hx.goes hrun hgoes),
    EvalM.run_bind_ok (hy.goes hrun' hgoes')]
  cases hshared with
  | ok hshared =>
      obtain ⟨w'', -, -, hresults⟩ := (inLockstep_ofFuel hosts fuel).afterRound hosts left
        (.rewritten hshared) _ _ _ le_rfl hkernels'
      exact sameOutcome_of_outcomes hresults

/-- The rounds on two calls with the same arguments in another order have the same outcome. -/
theorem Forgetful.evaluateRounds_perm (h : k.Forgetful c ledger) (hxs : k.Calls c ledger fuel s xs)
    (hys : k.Calls c ledger fuel s ys) (hperm : xs.Perm ys) {left : Nat}
    (hquiet : Unreported ((ofFuel fuel).evaluateRounds c left (.call (.symbol s) xs)) k)
    (hquiet' : Unreported ((ofFuel fuel).evaluateRounds c left (.call (.symbol s) ys)) k) :
    SameOutcome (((ofFuel fuel).evaluateRounds c left (.call (.symbol s) xs)).run k).1
      (((ofFuel fuel).evaluateRounds c left (.call (.symbol s) ys)).run k).1 := by
  have hround := h.unreported_round hquiet
  have hround' := h.unreported_round hquiet'
  rcases hcheck : (checkAbort c).run k with ⟨e | ⟨⟩, k₀⟩
  · -- an abort is pending
    have haborts : ∀ t : Term, ((ofFuel fuel).evaluateRounds c left t).run k = (.error e, k₀) :=
      fun t => by rw [evaluateRounds_eq, evaluateRound_eq, bind_assoc, EvalM.run_bind_error hcheck]
    rw [haborts, haborts]
    exact .failed e
  obtain ⟨call, normal, k₁, ledger₁, hx⟩ := hxs.arrives h hcheck hround
  obtain ⟨call', normal', k₂, ledger₂, hy⟩ := hys.arrives h hcheck hround'
  have hnormal : normal.strip = normal'.strip := by
    rw [hx.arranged, hy.arranged]
    exact strip_rearranged_of_perm hxs.sorting.orderless s (hperm.map _)
  obtain ⟨m, owners, w, hkernels, hresults, hk₁, hk₂⟩ :=
    hx.finish hy h hxs.inside hnormal hround hround'
  rcases hrun : ((ofFuel fuel).finishCall c none (k.attributes s) (some s) normal).run k₁ with
    ⟨result, k₁'⟩
  rcases hrun' : ((ofFuel fuel).finishCall c none (k.attributes s) (some s) normal').run k₂ with
    ⟨result', k₂'⟩
  rw [hrun, hrun'] at hkernels hresults
  rw [hrun] at hk₁
  rw [hrun'] at hk₂
  have hsame : ∀ {v v' : Term} {k k' : Kernel} {x x' : Except EvalError Term × Kernel},
      x = (.ok v, k) → x' = (.ok v', k') → v.strip = v'.strip → SameOutcome x.1 x'.1 := by
    rintro v v' k k' _ _ rfl rfl hstrip
    exact .ok ((Term.beq_iff_strip v v').mpr hstrip)
  cases hresults with
  | error he =>
      rw [evaluateRounds_eq, evaluateRounds_eq, EvalM.run_bind_error (hx.round_error hrun),
        EvalM.run_bind_error (hy.round_error hrun')]
      exact sameOutcome_of_outcomes (.error he)
  | ok hstep =>
      cases hstep with
      | done hv =>
          exact hsame (run_evaluateRounds_done (hx.round_ok hrun) left)
            (run_evaluateRounds_done (hy.round_ok hrun') left) hv.1
      | @rewritten next next' hnext =>
          -- each run stops if it has come back to the call it was started on
          by_cases hstops : next.strip = (Term.call (.symbol s) xs).strip
          · by_cases hstops' : next'.strip = (Term.call (.symbol s) ys).strip
            · obtain ⟨v, k₃, hstop, hv⟩ := hx.stops hrun hstops
              obtain ⟨v', k₃', hstop', hv'⟩ := hy.stops hrun' hstops'
              exact hsame (run_evaluateRounds_done hstop left)
                (run_evaluateRounds_done hstop' left) (hv.trans (hnext.1.trans hv'.symm))
            · obtain ⟨v, v', k₃, k₃', hv, hv', hstrip⟩ := hx.overtaken hy h hxs.booked hrun hrun'
                hnext.2.2 hk₂ hnext.1 hstops hstops' hquiet'
              exact hsame hv hv' hstrip
          · by_cases hstops' : next'.strip = (Term.call (.symbol s) ys).strip
            · obtain ⟨v', v, k₃', k₃, hv', hv, hstrip⟩ := hy.overtaken hx h hys.booked hrun' hrun
                hnext.2.1 hk₁ hnext.1.symm hstops' hstops hquiet
              exact hsame hv hv' hstrip.symm
            · exact hx.sameOutcome_of_goes hy hrun hrun' hkernels hnext hstops hstops' left

theorem Calls.perm (hcalls : k.Calls c ledger fuel s xs) (hperm : xs.Perm ys) :
    k.Calls c ledger fuel s ys where
  known := hcalls.known
  within := hcalls.within
  sorting := hcalls.sorting
  booked y hy := hcalls.booked y (hperm.mem_iff.mpr hy)
  head := hcalls.head
  args y hy := hcalls.args y (hperm.mem_iff.mpr hy)

/-- Where nothing is remembered, calls of an orderless symbol on arguments that evaluate to
themselves have the same outcome whatever the order of the arguments, unless a limit is hit. -/
theorem Forgetful.evaluateWith_perm (h : k.Forgetful c ledger)
    (hcalls : k.Calls c ledger fuel s xs) (hperm : xs.Perm ys)
    (hquiet : Unreported (evaluateWith (fuel + 1) c (.call (.symbol s) xs)) k)
    (hquiet' : Unreported (evaluateWith (fuel + 1) c (.call (.symbol s) ys)) k) :
    SameOutcome ((evaluateWith (fuel + 1) c (.call (.symbol s) xs)).run k).1
      ((evaluateWith (fuel + 1) c (.call (.symbol s) ys)).run k).1 := by
  -- after the outermost evaluation the report of the recursion limit is taken back, no more
  have hrounds : ∀ t : Term, ((evaluateWith (fuel + 1) c t).run k).1 =
        (((ofFuel fuel).evaluateRounds c k.config.maxIterations t).run k).1 ∧
      ((evaluateWith (fuel + 1) c t).run k).2.reports =
        (((ofFuel fuel).evaluateRounds c k.config.maxIterations t).run k).2.reports := fun t => by
    have hget : (get : EvalM Kernel).run k = (.ok k, k) := rfl
    rw [evaluateWith, Evaluator.evaluateFully, EvalM.run_bind_ok hget]
    dsimp only
    split <;> exact ⟨rfl, rfl⟩
  rw [Unreported, (hrounds _).2] at hquiet hquiet'
  rw [(hrounds _).1, (hrounds _).1]
  exact h.evaluateRounds_perm hcalls (hcalls.perm hperm) hperm hquiet hquiet'

/-! ## a kernel with a local rule -/

theorem structural_of_all (h : k.symbols.all SymbolRecord.isBuiltIn = true) : k.Structural := by
  intro s usage code hcode
  have hrecord := record_of_all h s rfl
  rw [SymbolRecord.isBuiltIn, List.all_eq_true] at hrecord
  have hcode' := hrecord usage (by cases usage <;> simp)
  rw [hcode] at hcode'
  cases code with
  | function => cases hcode'
  | _ => exact hcode'

/-- Where nothing is defined but in the context itself, what is defined there has to be booked. -/
theorem booked_of_undefined (hsize : ledger.length = k.stamps.size)
    (hundefined : k.symbols.all (fun r => r.value.isNone && r.rules.isNone) = true)
    (hroot : (k.context c).ancestors = []) (hgathers : (k.context c).gathers = [])
    (hlocals : (k.context c).locals = [])
    (hrules : ∀ p ∈ (k.context c).localRules,
      p.2.All fun lhs rhs => lhs.Booked ledger ∧ rhs.Booked ledger) : k.Booked c ledger := by
  have hnone : ∀ s, (k.record s).value = none ∧ (k.record s).rules = none := fun s => by
    have hrecord := record_of_all hundefined s rfl
    rwa [Bool.and_eq_true, Option.isNone_iff_eq_none, Option.isNone_iff_eq_none] at hrecord
  refine ⟨hsize, fun s v hv => ?_, fun s cache list hlist => ?_, fun s list hlist => ?_,
    fun owner howner g hg => ?_⟩
  · rw [localValue?, chain, hroot, value?, (hnone s).1, List.map_nil, List.findSome?_singleton,
      hlocals] at hv
    cases hv
  · rw [rules?, (hnone s).2] at hlist
    cases hlist
  · rw [localRules?, chain, hroot, List.map_nil, List.findSome?_singleton] at hlist
    obtain ⟨before, after, hpairs, -⟩ := List.lookup_eq_some_iff.mp hlist
    refine hrules (s, list) ?_
    rw [hpairs]
    exact List.mem_append_right _ List.mem_cons_self
  · rw [line, hroot, List.mem_singleton] at howner
    rw [howner, openGathers, hgathers] at hg
    cases hg

end Kernel

/-- A kernel where `x` is orderless, and a context with the local rule `x(1) :> 3`. -/
def sortingKernel : Kernel :=
  let k := (namedKernel {}).storeAttributes ⟨38, "x"⟩ (Attributes.none.insert .orderless)
  k.addLocalRule ⟨0⟩ ⟨38, "x"⟩
    (.make k.attributes (.call (.symbol ⟨38, "x"⟩) [.int 1]) (.int 3) .delayed)

theorem keeps_of_succeedsWith {r : Evaluator} {c : ContextId} {k : Kernel} {t : Term}
    (h : succeedsWith (fun v _ => v == t) ((r.evaluate c t).run k) = true) : r.Keeps c k t :=
  exists_of_succeedsWith h

theorem forgetful_sortingKernel : sortingKernel.Forgetful ⟨0⟩ [.int 0] where
  structural := Kernel.structural_of_all (by decide +kernel)
  forgetful := by decide +kernel
  endless := by decide +kernel
  counted := by unfold Kernel.GathersCounted; decide +kernel
  booked := by
    refine Kernel.booked_of_undefined rfl (by decide +kernel) rfl rfl rfl fun p hp => ?_
    obtain rfl := List.mem_singleton.mp hp
    have hint : ∀ n, (Term.int n).Booked [.int 0] := fun n => .inl rfl
    have hlhs : (Term.call (.symbol ⟨38, "x"⟩) [.int 1]).Booked [.int 0] :=
      Term.booked_call (Term.booked_symbol _) (by simp [hint])
    dsimp only
    refine RuleList.All.insert ?_ ⟨hlhs, hint 3⟩
    exact RuleList.all_empty

theorem calls_sortingKernel :
    sortingKernel.Calls ⟨0⟩ [.int 0] 5 ⟨38, "x"⟩ [.app .sequence [], .int 1] where
  known := by decide +kernel
  within := by decide +kernel
  sorting := by
    refine ⟨by decide +kernel, fun i => ?_, by decide +kernel⟩
    rw [Attributes.holds]
    split <;> decide +kernel
  booked := by
    have hsequence : (Term.app .sequence []).Booked [.int 0] :=
      Term.booked_call (Term.booked_symbol _) nofun
    exact List.forall_mem_cons.mpr ⟨hsequence, List.forall_mem_singleton.mpr (.inl rfl)⟩
  head := keeps_of_succeedsWith (by decide +kernel)
  args := by
    refine List.forall_mem_cons.mpr ⟨?_, List.forall_mem_singleton.mpr ?_⟩
    · exact keeps_of_succeedsWith (by decide +kernel)
    · exact keeps_of_succeedsWith (by decide +kernel)

/-- After `x(1) :> 3` for an orderless symbol, `x(Sequence(), 1)` and `x(1, Sequence())` both give
`3`. -/
theorem evaluateWith_perm_sorted :
    let outcome := fun xs =>
      ((evaluateWith 6 ⟨0⟩ (.call (.symbol ⟨38, "x"⟩) xs)).run sortingKernel).1
    SameOutcome (outcome [.app .sequence [], .int 1]) (outcome [.int 1, .app .sequence []]) :=
  forgetful_sortingKernel.evaluateWith_perm calls_sortingKernel (List.Perm.swap _ _ _)
    (by unfold Unreported; decide +kernel) (by unfold Unreported; decide +kernel)

/-! ## a held sequence, remembered -/

theorem Reached.foldl {α : Type} {f : Kernel → α → Kernel} (hf : ∀ k a, Kernel.Change k (f k a))
    (as : List α) {k : Kernel} (hk : Reached k .empty) : Reached (as.foldl f k) .empty := by
  induction as generalizing k with
  | nil => exact hk
  | cons a as ih => exact ih (.kernel (hf k a) hk)

theorem Kernel.change_storeAttributes {k : Kernel} {s : Symbol} (attrs : Attributes)
    (hlive : (k.record s).removed = false) (hfree : (k.attributes s).has .isProtected = false) :
    k.Change (k.storeAttributes s attrs) := by
  refine .setAttributes s attrs _ ?_
  simp [setAttributes, checkLive, hlive, hfree]

namespace Recall

/-- The names of the symbols. -/
def names : List String := ["f", "h", "w", "v", "t", "p", "q", "a", "b", "x"]

def f : Symbol := ⟨38, "f"⟩
def h : Symbol := ⟨39, "h"⟩
def w : Symbol := ⟨40, "w"⟩
def v : Symbol := ⟨41, "v"⟩
def t : Symbol := ⟨42, "t"⟩
def p : Symbol := ⟨43, "p"⟩
def q : Symbol := ⟨44, "q"⟩
def a : Symbol := ⟨45, "a"⟩
def b : Symbol := ⟨46, "b"⟩
def x : Symbol := ⟨47, "x"⟩

/-- `w(h(a, b))`. -/
def remembered : Term := .app w [.app h [.symbol a, .symbol b]]

/-- `h(Sequence(a, b))`; the first argument of `h` is held. -/
def heldSequence : Term := .app h [.app .sequence [.symbol a, .symbol b]]

/-- The delayed definitions

```text
w(h(a, b)) :> w(h(a, b))
v(x_) :> w(x)
t(w(h(a, b))) :> True
p(1) :> w(1) /; t(w(h(Sequence(a, b))))
q(1) :> 0 /; v(h(Sequence(a, b)))
```
-/
def definitions : List (Term × Term) :=
  [(remembered, remembered),
    (.app v [.app .pattern [.symbol x, .app .blank []]], .app w [.symbol x]),
    (.app t [remembered], .symbol .isTrue),
    (.app p [.int 1], .app .condition [.app w [.int 1], .app t [.app w [heldSequence]]]),
    (.app q [.int 1], .app .condition [.int 0, .app v [heldSequence]])]

/-- The kernel before the delayed definitions: `f` is orderless, `h` holds its first argument, and
`b := 1`. -/
def undefinedKernel : Kernel :=
  let k := names.foldl Kernel.addSymbol (Kernel.new {}).newRoot.2
  let k := k.storeAttributes f (Attributes.none.insert .orderless)
  let k := k.storeAttributes h (Attributes.none.insert .holdFirst)
  ((define ⟨0⟩ (.symbol b) (.int 1) .immediate).run k).2

/-- The kernel after one more delayed definition. -/
def defineDelayed (k : Kernel) (d : Term × Term) : Kernel :=
  ((define ⟨0⟩ d.1 d.2 .delayed).run k).2

/-- The kernel after all of them. -/
def kernel : Kernel := definitions.foldl defineDelayed undefinedKernel

theorem reached_kernel : Reached kernel .empty := by
  have hnames := Reached.foldl (fun k name => .intern name) names (.kernel .context (.new {}))
  rw [Kernel.foldl_intern_of_lookup?_eq_none (by decide) (by decide +kernel)] at hnames
  have hsorted := Reached.kernel (Kernel.change_storeAttributes (s := f)
    (Attributes.none.insert .orderless) (by decide +kernel) (by decide +kernel)) hnames
  have hheld := Reached.kernel (Kernel.change_storeAttributes (s := h)
    (Attributes.none.insert .holdFirst) (by decide +kernel) (by decide +kernel)) hsorted
  have hdefined := Reached.kernel (.define ⟨0⟩ (.symbol b) (.int 1) .immediate) hheld
  exact Reached.foldl (f := defineDelayed) (fun k d => .define ⟨0⟩ d.1 d.2 .delayed) definitions
    hdefined

/-- The outcome of a call of `f`. -/
def outcome (args : List Term) : Except EvalError Term × Kernel :=
  (evaluate ⟨0⟩ (.app f args)).run kernel

end Recall

open Recall in
/-- Where results are remembered, the order of arguments that evaluate to themselves may make a
difference: `f(p(1), q(1))` stays as it is, and `f(q(1), p(1))` gives `f(q(1), w(1))`.  The test of
`p(1)` comes to the right-hand side `w(h(a, b))`, where `b` is evaluated unless the node is
remembered; and evaluating `q(1)` has it remembered. -/
theorem exists_order_of_held_sequence : ∃ (k : Kernel) (s : Symbol) (xs ys : List Term),
    Reached k .empty ∧ k.Structural ∧ k.Quiet ⟨0⟩ ∧ (k.attributes s).Sorting ∧ xs.Perm ys ∧
      (∀ t ∈ .symbol s :: xs, Evaluator.full.Keeps ⟨0⟩ k t ∧
        Evaluator.full.Keeps ⟨0⟩ (k.enter ⟨0⟩) t) ∧
      Unreported (evaluate ⟨0⟩ (.call (.symbol s) xs)) k ∧
      Unreported (evaluate ⟨0⟩ (.call (.symbol s) ys)) k ∧
      ¬SameOutcome ((evaluate ⟨0⟩ (.call (.symbol s) xs)).run k).1
        ((evaluate ⟨0⟩ (.call (.symbol s) ys)).run k).1 := by
  have hsorting : (kernel.attributes f).Sorting := by
    refine ⟨by decide +kernel, fun i => ?_, by decide +kernel⟩
    rw [Attributes.holds]
    split <;> decide +kernel
  have hkeeps : ∀ t ∈ [.symbol f, .app p [.int 1], .app q [.int 1]],
      Evaluator.full.Keeps ⟨0⟩ kernel t ∧ Evaluator.full.Keeps ⟨0⟩ (kernel.enter ⟨0⟩) t := by
    intro t ht
    have hboth : ∀ k ∈ [kernel, kernel.enter ⟨0⟩],
        ∀ t ∈ [.symbol f, .app p [.int 1], .app q [.int 1]],
          succeedsWith (fun v _ => v == t) ((Evaluator.full.evaluate ⟨0⟩ t).run k) = true := by
      decide +kernel
    exact ⟨keeps_of_succeedsWith (hboth _ (by simp) t ht),
      keeps_of_succeedsWith (hboth _ (by simp) t ht)⟩
  have hdiffer : succeedsWith (fun u _ => succeedsWith (fun u' _ => !(u == u'))
        (outcome [.app q [.int 1], .app p [.int 1]]))
      (outcome [.app p [.int 1], .app q [.int 1]]) = true := by decide +kernel
  refine ⟨kernel, f, [.app p [.int 1], .app q [.int 1]], [.app q [.int 1], .app p [.int 1]],
    reached_kernel, Kernel.structural_of_all (by decide +kernel),
    ⟨by decide +kernel, by decide +kernel⟩, hsorting,
    List.Perm.swap _ _ _, hkeeps, by unfold Unreported; decide +kernel,
    by unfold Unreported; decide +kernel, ?_⟩
  obtain ⟨u, k, hu, hdiffer⟩ := exists_of_succeedsWith hdiffer
  obtain ⟨u', k', hu', hdiffers⟩ := exists_of_succeedsWith hdiffer
  intro hsame
  change SameOutcome (outcome _).1 (outcome _).1 at hsame
  rw [hu, hu'] at hsame
  cases hsame with
  | ok hsame =>
      rw [hsame] at hdiffers
      cases hdiffers

end Termwise
