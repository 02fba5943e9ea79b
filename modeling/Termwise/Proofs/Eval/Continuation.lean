import Termwise.Proofs.Eval.Forgetful
import Termwise.Proofs.Eval.LockstepRounds

/-!
# Termwise.Proofs.Eval.Continuation

Runs that go on.  An action that reports no limit (`Unreported`) takes a run to a later
kernel of the same run (`Kernel.Continues.run`), also when a call was entered and left
again.  Where nothing is remembered, a term that evaluates to itself
(`Evaluator.Keeps`) does so whenever it is evaluated later (`Kernel.Continues.evaluate`).
-/

namespace Termwise

open Evaluator

/-! ## reports of limits -/

/-- An action of evaluation in a context, such as leaves everything standing. -/
abbrev Steady (c : ContextId) {α : Type} (x : EvalM α) : Prop :=
  (orderlyKernels.agreeing c).Alike x x

/-- An action that reports no limit. -/
def Unreported {α : Type} (x : EvalM α) (k : Kernel) : Prop := (x.run k).2.reports = k.reports

section

variable {α β : Type} {c : ContextId} {x : EvalM α} {f : α → EvalM β} {k : Kernel}

theorem Steady.preserves (h : Steady c x) (hk : k.Orderly) : k.Preserves (x.run k).2 :=
  (h k hk).leaves.preserves

/-- A sequence of actions reports no limit if neither part does. -/
theorem Unreported.bind (h : Unreported (x >>= f) k) (hx : Steady c x) (hf : ∀ a, Steady c (f a))
    (hk : k.Orderly) :
    Unreported x k ∧ ∀ a k', x.run k = (.ok a, k') → Unreported (f a) k' := by
  have hle := (hx.preserves hk).reports_le
  rcases hrun : x.run k with ⟨result, k'⟩
  rw [hrun] at hle
  cases result with
  | error e =>
      rw [Unreported, EvalM.run_bind_error hrun] at h
      refine ⟨by rw [Unreported, hrun]; exact h, fun a k'' heq => ?_⟩
      cases heq
  | ok a =>
      rw [Unreported, EvalM.run_bind_ok hrun] at h
      have hk' : k'.Orderly := by
        have hsame := (hx.preserves hk).definitions.symbols
        rw [hrun] at hsame
        exact hk.of_symbols_eq hsame
      change k.reports ≤ k'.reports at hle
      have hle' := ((hf a).preserves hk').reports_le
      have hquiet : k'.reports = k.reports := by omega
      refine ⟨by rw [Unreported, hrun]; exact hquiet, fun a' k'' heq => ?_⟩
      cases heq
      exact h.trans hquiet.symm

end

/-! ## stages that leave everything standing -/

section

variable (fuel : Nat) (c : ContextId)

theorem steady_evaluate (t : Term) : Steady c ((ofFuel fuel).evaluate c t) :=
  (agreesIn_orderlyKernels fuel).evaluate c t

theorem steady_evaluateArgs (attrs : Attributes) (i : Nat) (ts : List Term) :
    Steady c ((ofFuel fuel).evaluateArgs c attrs i ts) :=
  (agreesIn_orderlyKernels fuel).evaluateArgs c attrs i ts

theorem codeAlike_ofFuel : CodeAlike orderlyKernels (ofFuel fuel) (ofFuel fuel) c :=
  codeAlike_of_orderly (agreesIn_orderlyKernels fuel) (hosts_orderlyKernels c) fun _ hk => hk

variable (generation : Option Nat) (attrs : Attributes) (head : Option Symbol)

/-- Any stamp leaves everything standing. -/
theorem stamps_preserving (k : Kernel) : preserving.Stamps c generation k := fun k' t _ =>
  k'.preserves_stamp c t generation

theorem steady_finishCall (normal : Term) :
    Steady c ((ofFuel fuel).finishCall c generation attrs head normal) := fun k hk =>
  (agreesIn_orderlyKernels fuel).finishCall (hosts_orderlyKernels c) (codeAlike_ofFuel fuel c) hk
    (stamps_preserving c generation k) attrs head normal

theorem steady_arrangeCall (call : Term) :
    Steady c ((ofFuel fuel).arrangeCall c generation attrs head call) :=
  fun k hk => (agreesIn_orderlyKernels fuel).arrangeCall (hosts_orderlyKernels c)
    (codeAlike_ofFuel fuel c) hk (stamps_preserving c generation k) attrs head call

theorem steady_evaluateOn (call head : Term) :
    Steady c ((ofFuel fuel).evaluateOn c generation call head attrs) :=
  fun k hk => (agreesIn_orderlyKernels fuel).evaluateOn (hosts_orderlyKernels c)
    (codeAlike_ofFuel fuel c) hk (stamps_preserving c generation k) call head attrs

theorem steady_roundStep (t : Term) : Steady c ((ofFuel fuel).roundStep c t) :=
  alike_roundStep (hosts_orderlyKernels c) ((agreesIn_orderlyKernels fuel).rewritesAlike c)
    (Callees.rules_true _ .own) (alike_evaluateCall_orderly (agreesIn_orderlyKernels fuel) c) t

theorem steady_endRound (t : Term) (step : Step) : Steady c (endRound c t step) :=
  (calm_endRound (hosts_orderlyKernels c) t step).alike

theorem steady_evaluateRound (t : Term) : Steady c ((ofFuel fuel).evaluateRound c t) :=
  alike_evaluateRound (hosts_orderlyKernels c) ((agreesIn_orderlyKernels fuel).rewritesAlike c)
    (Callees.rules_true _ .own) (alike_evaluateCall_orderly (agreesIn_orderlyKernels fuel) c) t

theorem steady_afterRound (left : Nat) (step : Step) :
    Steady c ((ofFuel fuel).afterRound c left step) :=
  alike_afterRound (hosts_orderlyKernels c) ((agreesIn_orderlyKernels fuel).rewritesAlike c)
    (Callees.rules_true _ .own) (alike_evaluateCall_orderly (agreesIn_orderlyKernels fuel) c) left
    step

end

/-! ## later in a run -/

namespace Kernel

variable {k k' : Kernel} {c : ContextId} {ledger ledger' ledger'' : List Term} {fuel : Nat}

theorem Forgetful.orderly (h : k.Forgetful c ledger) : k.Orderly := fun s usage code hcode => by
  have hstructural := h.structural s usage code hcode
  cases code with
  | function => rfl
  | _ => exact hstructural

theorem Continues.orderly (hk : k.Continues k' c ledger') (h : k.Forgetful c ledger) :
    k'.Orderly := h.orderly.of_symbols_eq hk.definitions.symbols

/-- Inside a call the run goes on, as long as no limit is reported. -/
theorem Continues.run (hk : k.Continues k' c ledger') (h : k.Forgetful c ledger)
    (hdepth : 0 < k.depth c) {α : Type} {x : EvalM α} (hx : Steady c x) (hquiet : Unreported x k')
    (hbooked : (x.run k').2.Booked c ledger'') : k.Continues (x.run k').2 c ledger'' where
  toStands := hk.toStands.trans (hx.preserves (hk.orderly h)).toStands
  limitReported := by
    rw [(hx.preserves (hk.orderly h)).limitReported c (by rwa [hk.depth]) hquiet, hk.limitReported]
  booked := hbooked

/-- Actions that correspond in any two runs end alike, from wherever two runs have come to. -/
theorem Forgetful.endAlike (h : k.Forgetful c ledger) {k₁ k₂ : Kernel} {ledger₁ ledger₂ : List Term}
    (h₁ : k.Continues k₁ c ledger₁) (h₂ : k.Continues k₂ c ledger₂) {α β : Type}
    {R : Ledgers → α → β → Prop} {x : EvalM α} {y : EvalM β}
    (hxy : ∀ m owners, ((Twins.forgetful m c owners).running 0).Alike ⟨ledger₁, ledger₂⟩ R x y) :
    ∃ m owners, (Twins.forgetful m c owners).EndAlike 0 ⟨ledger₁, ledger₂⟩ R k₁ k₂ x y :=
  ⟨_, _, hxy _ _ _ _ _ le_rfl (h.alongside h₁ h₂)⟩

/-- Naming the nodes of a term, the run goes on. -/
theorem Continues.exists_share (hk : k.Continues k' c ledger') {t : Term} (ht : t.Booked ledger') :
    ∃ ledger'', ledger' <+: ledger'' ∧ k.Continues (k'.share t).2 c ledger'' ∧
      (k'.share t).1.Booked ledger'' := by
  obtain ⟨ledger'', hle, hbooked, hshared⟩ := hk.booked.exists_share ht
  exact ⟨ledger'', hle, ⟨hk.toStands.trans (k'.preserves_share t).toStands, hk.limitReported,
    hbooked⟩, hshared⟩

theorem Continues.elapse (hk : k.Continues k' c ledger') (nanos : Nat) :
    k.Continues (k'.elapse nanos) c ledger' :=
  ⟨hk.toStands.trans (k'.preserves_elapse nanos).toStands, hk.limitReported,
    hk.booked.of_still (k'.preserves_elapse nanos).toStill (List.prefix_refl _) hk.booked.size⟩

/-! ## calls entered and left -/

theorem Booked.enter (h : k.Booked c ledger) : (k.enter c).Booked c ledger :=
  h.of_still (k.still_enter c) (List.prefix_refl _) h.size

theorem Continues.enter (hk : k.Continues k' c ledger') :
    (k.enter c).Continues (k'.enter c) c ledger' where
  definitions := ((k.still_enter c).definitions.symm.trans hk.definitions).trans
    (k'.still_enter c).definitions
  config := hk.config
  structureEpoch := hk.structureEpoch
  gathers c' := by rw [(k'.still_enter c).gathers, hk.gathers, (k.still_enter c).gathers]
  depth c' := by rw [depth_enter_eq, depth_enter_eq, hk.depth, hk.definitions.size]
  messages := hk.messages
  frames := hk.frames
  limitReported := by rw [limitReported_enter, limitReported_enter, hk.limitReported]
  booked := hk.booked.enter

theorem Continues.leave (hk : (k.enter c).Continues k' c ledger') :
    k.Continues (k'.leave c) c ledger' where
  toStands := hk.toStands.leave
  limitReported := by rw [limitReported_leave, hk.limitReported, limitReported_enter]
  booked := hk.booked.of_still (k'.still_leave c) (List.prefix_refl _) hk.booked.size

theorem Forgetful.enter (h : k.Forgetful c ledger) : (k.enter c).Forgetful c ledger where
  structural := h.structural
  forgetful := ((k.still_enter c).definitions.stampGeneration?_eq c).trans h.forgetful
  endless := ((k.still_enter c).definitions.deadline_eq c).trans h.endless
  counted owner howner g hg := by
    rw [(k.still_enter c).definitions.line_eq] at howner
    rw [(k.still_enter c).gathers] at hg
    exact h.counted owner howner g hg
  booked := h.booked.enter

end Kernel

/-! ## arguments -/

/-- Evaluation in a context gives a term back. -/
def Evaluator.Keeps (r : Evaluator) (c : ContextId) (k : Kernel) (t : Term) : Prop :=
  ∃ v k', (r.evaluate c t).run k = (.ok v, k') ∧ (v == t) = true

namespace Kernel

variable {k k' : Kernel} {c : ContextId} {ledger ledger' : List Term} {fuel : Nat} {t t' : Term}

/-- What evaluates to itself does so later in a run too. -/
theorem Continues.evaluate (hk : k.Continues k' c ledger') (h : k.Forgetful c ledger)
    (hdepth : 0 < k.depth c) (ht : t.Booked ledger) (ht' : t'.Booked ledger')
    (hstrip : t.strip = t'.strip) (hkeeps : (ofFuel fuel).Keeps c k t)
    (hquiet : Unreported ((ofFuel fuel).evaluate c t') k') :
    ∃ v k'' ledger'', ((ofFuel fuel).evaluate c t').run k' = (.ok v, k'') ∧ v.strip = t.strip ∧
      ledger' <+: ledger'' ∧ v.Booked ledger'' ∧ k.Continues k'' c ledger'' := by
  obtain ⟨m, owners, w, hw, hkernels, hresults⟩ := h.endAlike h.booked.continues hk fun m owners =>
    (inLockstep_ofFuel (Twins.hosts_forgetful m c owners) fuel).evaluate 0 ⟨hstrip, ht, ht'⟩
  have hcontinues := hk.run h hdepth (steady_evaluate fuel c t') hquiet hkernels.booked'
  obtain ⟨u, k₁, hrun, hu⟩ := hkeeps
  rcases hrun' : ((ofFuel fuel).evaluate c t').run k' with ⟨result, k''⟩
  rw [hrun, hrun'] at hresults
  rw [hrun'] at hcontinues
  cases hresults with
  | @ok _ v hlike =>
      refine ⟨v, k'', w.second, rfl, ?_, hw.2, hlike.2.2, hcontinues⟩
      rw [← hlike.1, (Term.beq_iff_strip u t).mp hu]

/-- Arguments that evaluate to themselves are what they evaluate to, one after the other. -/
theorem Continues.evaluateArgs (hk : k.Continues k' c ledger') (h : k.Forgetful c ledger)
    (hdepth : 0 < k.depth c) {attrs : Attributes} (hfree : ∀ i, attrs.holds i = false)
    {ts ts' : List Term} {i : Nat} (hts : ∀ t ∈ ts, t.Booked ledger)
    (hts' : ∀ t ∈ ts', t.Booked ledger') (hstrip : ts.map Term.strip = ts'.map Term.strip)
    (hkeeps : ∀ t ∈ ts, (ofFuel fuel).Keeps c k t)
    (hquiet : Unreported ((ofFuel fuel).evaluateArgs c attrs i ts') k') :
    ∃ vs k'' ledger'', ((ofFuel fuel).evaluateArgs c attrs i ts').run k' = (.ok vs, k'') ∧
      vs.map Term.strip = ts.map Term.strip ∧ ledger' <+: ledger'' ∧
      (∀ v ∈ vs, v.Booked ledger'') ∧ k.Continues k'' c ledger'' := by
  induction ts' generalizing ts k' ledger' i with
  | nil =>
      cases ts with
      | nil => exact ⟨[], k', ledger', rfl, rfl, List.prefix_refl _, nofun, hk⟩
      | cons t ts => cases hstrip
  | cons t' ts' ih =>
      cases ts with
      | nil => cases hstrip
      | cons t ts =>
          obtain ⟨ht, hts⟩ := List.forall_mem_cons.mp hts
          obtain ⟨ht', hts'⟩ := List.forall_mem_cons.mp hts'
          obtain ⟨hkeep, hkeeps⟩ := List.forall_mem_cons.mp hkeeps
          rw [List.map_cons, List.map_cons, List.cons.injEq] at hstrip
          have hunfold : (ofFuel fuel).evaluateArgs c attrs i (t' :: ts') = (do
              let v ← (ofFuel fuel).evaluate c t'
              return v :: (← (ofFuel fuel).evaluateArgs c attrs (i + 1) ts')) := by
            have hcomplete : attrs.has .holdAllComplete = false :=
              (Bool.or_eq_false_iff.mp (hfree 0)).1
            simp [Evaluator.evaluateArgs, hfree, hcomplete]
          have hpure : ∀ v vs, Steady c (pure (v :: vs) : EvalM (List Term)) := fun v vs =>
            (orderlyKernels.agreeing c).alike_pure (v :: vs)
          have hrest : ∀ v, Steady c (do
              return v :: (← (ofFuel fuel).evaluateArgs c attrs (i + 1) ts')) := fun v =>
            (orderlyKernels.agreeing c).alike_bind (steady_evaluateArgs fuel c attrs (i + 1) ts')
              (hpure v)
          rw [hunfold] at hquiet
          obtain ⟨hquiet, hthen⟩ := hquiet.bind (steady_evaluate fuel c t') hrest (hk.orderly h)
          obtain ⟨v, k₁, ledger₁, hrun, hv, hle, hbooked, hk₁⟩ :=
            hk.evaluate h hdepth ht ht' hstrip.1 hkeep hquiet
          obtain ⟨hquiet', -⟩ := (hthen v k₁ hrun).bind
            (steady_evaluateArgs fuel c attrs (i + 1) ts') (hpure v) (hk₁.orderly h)
          obtain ⟨vs, k₂, ledger₂, hrun', hvs, hle', hbooked', hk₂⟩ :=
            ih hk₁ hts (fun t ht => (hts' t ht).mono hle) hstrip.2 hkeeps hquiet'
          refine ⟨v :: vs, k₂, ledger₂, ?_, ?_, hle.trans hle', ?_, hk₂⟩
          · rw [hunfold, EvalM.run_bind_ok hrun, EvalM.run_bind_ok hrun']
            rfl
          · rw [List.map_cons, List.map_cons, hv, hvs]
          · exact List.forall_mem_cons.mpr ⟨hbooked.mono hle', hbooked'⟩

end Kernel

end Termwise
