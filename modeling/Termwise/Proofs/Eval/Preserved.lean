import Termwise.Proofs.Eval.Unwinding

/-!
# Termwise.Proofs.Eval.Preserved

What evaluation leaves as it was in all contexts where native code is orderly, whatever
is pending and however the evaluation ends (`Kernel.Preserves`):

1. the configuration, definitions, deadlines and the abort flag;
2. nesting depths, and which gathers are open;
3. inside calls, whether the recursion limit has been reported, as long as no limit is
   reported meanwhile.

Messages are kept and gathers counted.  It is one more contract, so the walk through the
evaluator is that of `Proofs.Eval.Nested`.
-/

namespace Termwise

/-- Whether a message reports that a limit was hit. -/
def Message.isReport (m : Message) : Bool := m.tag == "itlim" || m.tag == "reclim"

namespace Kernel

/-- Number of reports of limits that were hit. -/
def reports (k : Kernel) : Nat := k.messages.countP Message.isReport

/-- The numbers and patterns of the gathers that are open in a context, the innermost first. -/
def openGathers (k : Kernel) (c : ContextId) : List (Nat × Term) :=
  (k.context c).gathers.map fun g => (g.id, g.pattern)

/-- Whether the recursion limit has been reported in a context. -/
def limitReported (k : Kernel) (c : ContextId) : Bool := (k.context c).limitReported

/-- A context and the ones it was spawned from, by name. -/
def line (k : Kernel) (c : ContextId) : List ContextId := c :: (k.context c).ancestors

/-- The gathers that are open in a context, and in the ones it was spawned from, were counted when
they were opened. -/
def GathersCounted (k : Kernel) (c : ContextId) : Prop :=
  ∀ owner ∈ k.line c, ∀ g ∈ k.openGathers owner, g.1 < k.frames

/-- The configuration, definitions and open gathers are as they were. -/
structure Still (k k' : Kernel) : Prop where
  definitions : k.SameDefinitions k'
  config : k'.config = k.config
  structureEpoch : k'.structureEpoch = k.structureEpoch
  gathers : ∀ c, k'.openGathers c = k.openGathers c

/-- Besides, depths are as they were, and nothing counted was forgotten. -/
structure Stands (k k' : Kernel) : Prop extends k.Still k' where
  depth : ∀ c, k'.depth c = k.depth c
  messages : k.messages <:+ k'.messages
  frames : k.frames ≤ k'.frames

/-- Besides, inside calls it is as it was whether the recursion limit has been reported, unless some
limit was reported meanwhile. -/
structure Preserves (k k' : Kernel) : Prop extends k.Stands k' where
  limitReported : ∀ c, 0 < k.depth c → k'.reports = k.reports →
    k'.limitReported c = k.limitReported c

variable {k k' k'' : Kernel} {c : ContextId}

theorem Still.refl (k : Kernel) : k.Still k := ⟨.refl k, rfl, rfl, fun _ => rfl⟩

theorem Still.trans (h : k.Still k') (h' : k'.Still k'') : k.Still k'' where
  definitions := h.definitions.trans h'.definitions
  config := h'.config.trans h.config
  structureEpoch := h'.structureEpoch.trans h.structureEpoch
  gathers c := (h'.gathers c).trans (h.gathers c)

theorem Stands.refl (k : Kernel) : k.Stands k where
  toStill := .refl k
  depth _ := rfl
  messages := List.suffix_refl _
  frames := Nat.le_refl _

theorem Stands.trans (h : k.Stands k') (h' : k'.Stands k'') : k.Stands k'' where
  toStill := h.toStill.trans h'.toStill
  depth c := (h'.depth c).trans (h.depth c)
  messages := h.messages.trans h'.messages
  frames := Nat.le_trans h.frames h'.frames

theorem Stands.reports_le (h : k.Stands k') : k.reports ≤ k'.reports :=
  h.messages.sublist.countP_le

theorem Preserves.refl (k : Kernel) : k.Preserves k := ⟨.refl k, fun _ _ _ => rfl⟩

theorem Preserves.trans (h : k.Preserves k') (h' : k'.Preserves k'') : k.Preserves k'' where
  toStands := h.toStands.trans h'.toStands
  limitReported c hdepth hreports := by
    -- reports only grow in number, so none was made in either part
    have hle := h.reports_le
    have hle' := h'.reports_le
    have hfirst := h.limitReported c hdepth (by omega)
    exact (h'.limitReported c (by rwa [h.depth]) (by omega)).trans hfirst

/-! ## changes of kernels -/

/-- A change that leaves all contexts alone. -/
theorem Preserves.of_eq (hsymbols : k'.symbols = k.symbols) (hcontexts : k'.contexts = k.contexts)
    (hgeneration : k'.generation = k.generation) (haborting : k'.aborting = k.aborting)
    (hconfig : k'.config = k.config) (hepoch : k'.structureEpoch = k.structureEpoch)
    (hframes : k'.frames = k.frames) (hmessages : k.messages <:+ k'.messages) :
    k.Preserves k' where
  definitions := (Unwound.of_eq (c := ⟨0⟩) hsymbols hcontexts hgeneration haborting).definitions
  config := hconfig
  structureEpoch := hepoch
  gathers c := by simp only [openGathers, context, hcontexts]
  depth c := by simp only [Kernel.depth, context, hcontexts]
  messages := hmessages
  frames := Nat.le_of_eq hframes.symm
  limitReported c _ _ := by simp only [Kernel.limitReported, context, hcontexts]

theorem preserves_addMessage (k : Kernel) (s : Symbol) (tag : String) (args : List Term) :
    k.Preserves (k.addMessage s tag args) :=
  .of_eq rfl rfl rfl rfl rfl rfl rfl (List.suffix_cons _ _)

theorem preserves_share (k : Kernel) (t : Term) : k.Preserves (k.share t).2 :=
  .of_eq rfl rfl rfl rfl rfl rfl rfl (List.suffix_refl _)

theorem preserves_elapse (k : Kernel) (nanos : Nat) : k.Preserves (k.elapse nanos) :=
  .of_eq rfl rfl rfl rfl rfl rfl rfl (List.suffix_refl _)

/-- A change of one context that leaves the numbers and patterns of its gathers alone. -/
theorem still_updateContext (k : Kernel) (c : ContextId) {f : Context → Context}
    (hfixed : ∀ x, (f x).fixed = x.fixed)
    (hgathers : ∀ x, (f x).gathers.map (fun g => (g.id, g.pattern)) =
      x.gathers.map fun g => (g.id, g.pattern)) :
    k.Still (k.updateContext c f) where
  definitions := sameDefinitions_updateContext k c hfixed
  config := rfl
  structureEpoch := rfl
  gathers c' := by
    simp only [openGathers]
    rcases context_updateContext k c c' f with h | ⟨h, -⟩
    · rw [h]
    · rw [h, hgathers]

theorem stands_updateContext (k : Kernel) (c : ContextId) {f : Context → Context}
    (hfixed : ∀ x, (f x).fixed = x.fixed) (hdepth : ∀ x, (f x).depth = x.depth)
    (hgathers : ∀ x, (f x).gathers.map (fun g => (g.id, g.pattern)) =
      x.gathers.map fun g => (g.id, g.pattern)) :
    k.Stands (k.updateContext c f) where
  toStill := k.still_updateContext c hfixed hgathers
  depth c' := context_updateContext_of_eq k c c' hdepth
  messages := List.suffix_refl _
  frames := Nat.le_refl _

theorem preserves_updateContext (k : Kernel) (c : ContextId) {f : Context → Context}
    (hfixed : ∀ x, (f x).fixed = x.fixed) (hdepth : ∀ x, (f x).depth = x.depth)
    (hgathers : ∀ x, (f x).gathers.map (fun g => (g.id, g.pattern)) =
      x.gathers.map fun g => (g.id, g.pattern))
    (hlimit : ∀ x, (f x).limitReported = x.limitReported) :
    k.Preserves (k.updateContext c f) where
  toStands := k.stands_updateContext c hfixed hdepth hgathers
  limitReported c' _ _ := context_updateContext_of_eq k c c' hlimit

theorem stands_setLimitReported (k : Kernel) (c : ContextId) (reported : Bool) :
    k.Stands (k.setLimitReported c reported) :=
  k.stands_updateContext c (fun _ => rfl) (fun _ => rfl) fun _ => rfl

theorem preserves_stamp (k : Kernel) (c : ContextId) (t : Term) (generation : Option Nat) :
    k.Preserves (k.stamp c t generation) := by
  unfold stamp markEvaluated
  repeat' split
  all_goals exact .of_eq rfl rfl rfl rfl rfl rfl rfl (List.suffix_refl _)

theorem preserves_collect (k : Kernel) (owner : ContextId) (id : Nat) (value : Term) :
    k.Preserves (k.collect owner id value) := by
  refine preserves_updateContext k owner (fun _ => rfl) (fun _ => rfl) (fun x => ?_) fun _ => rfl
  rw [List.map_map]
  refine List.map_congr_left fun g _ => ?_
  dsimp only [Function.comp]
  split <;> rfl

/-! ## the recursion limit -/

/-- The recursion limit is reported by a message. -/
theorem preserves_reportLimit (k : Kernel) (c : ContextId) (args : List Term) :
    k.Preserves (k.reportLimit c args) where
  toStands := (k.stands_setLimitReported c true).trans (preserves_addMessage _ _ _ _).toStands
  limitReported _ _ hreports := by
    have hmore : (k.reportLimit c args).reports = k.reports + 1 := List.countP_cons_of_pos rfl
    omega

/-- Outside all calls the report may be taken back. -/
theorem Preserves.reset (h : k.Preserves k') (hdepth : k.depth c = 0) :
    k.Preserves (k'.setLimitReported c false) where
  toStands := h.toStands.trans (k'.stands_setLimitReported c false)
  limitReported c' hdepth' hreports := by
    have hne : c ≠ c' := fun hc => by
      rw [← hc, hdepth] at hdepth'
      exact Nat.lt_irrefl 0 hdepth'
    have hsame : (k'.setLimitReported c false).limitReported c' = k'.limitReported c' :=
      congrArg Context.limitReported (context_updateContext_of_ne k' _ hne)
    exact hsame.trans (h.limitReported c' hdepth' hreports)

/-! ## calls -/

theorem depth_enter_eq (k : Kernel) (c c' : ContextId) : (k.enter c).depth c' =
    if c = c' ∧ c.index < k.contexts.size then k.depth c' + 1 else k.depth c' := by
  split
  next h =>
    obtain ⟨rfl, hc⟩ := h
    exact depth_enter hc
  next h =>
    by_cases hcc : c = c'
    · have hout : k.contexts.size ≤ c.index := Nat.le_of_not_lt fun hc => h ⟨hcc, hc⟩
      exact congrArg Context.depth (context_updateContext_of_size_le k _ c' hout)
    · exact congrArg Context.depth (context_updateContext_of_ne k _ hcc)

theorem depth_leave_eq (k : Kernel) (c c' : ContextId) : (k.leave c).depth c' =
    if c = c' ∧ c.index < k.contexts.size then k.depth c' - 1 else k.depth c' := by
  split
  next h =>
    obtain ⟨rfl, hc⟩ := h
    exact congrArg Context.depth (context_updateContext_self k _ hc)
  next h =>
    by_cases hcc : c = c'
    · have hout : k.contexts.size ≤ c.index := Nat.le_of_not_lt fun hc => h ⟨hcc, hc⟩
      exact congrArg Context.depth (context_updateContext_of_size_le k _ c' hout)
    · exact congrArg Context.depth (context_updateContext_of_ne k _ hcc)

theorem still_enter (k : Kernel) (c : ContextId) : k.Still (k.enter c) :=
  k.still_updateContext c (fun _ => rfl) fun _ => rfl

theorem still_leave (k : Kernel) (c : ContextId) : k.Still (k.leave c) :=
  k.still_updateContext c (fun _ => rfl) fun _ => rfl

/-- A call that was entered is left again. -/
theorem Stands.leave (h : (k.enter c).Stands k') : k.Stands (k'.leave c) where
  toStill := ((k.still_enter c).trans h.toStill).trans (k'.still_leave c)
  depth c' := by
    have hsize : k'.contexts.size = k.contexts.size := by
      rw [h.definitions.size, enter, updateContext, Array.size_modify]
    rw [depth_leave_eq, hsize, h.depth, depth_enter_eq]
    split <;> simp
  messages := h.messages
  frames := h.frames

theorem limitReported_enter (k : Kernel) (c c' : ContextId) :
    (k.enter c).limitReported c' = k.limitReported c' :=
  context_updateContext_of_eq k c c' fun _ => rfl

theorem limitReported_leave (k : Kernel) (c c' : ContextId) :
    (k.leave c).limitReported c' = k.limitReported c' :=
  context_updateContext_of_eq k c c' fun _ => rfl

theorem Preserves.leave (h : (k.enter c).Preserves k') : k.Preserves (k'.leave c) where
  toStands := h.toStands.leave
  limitReported c' hdepth hreports := by
    have hdeeper : 0 < (k.enter c).depth c' := by
      rw [depth_enter_eq]
      split <;> omega
    rw [limitReported_leave, h.limitReported c' hdeeper hreports, limitReported_enter]

/-! ## gathers -/

theorem openGathers_gatherBegin (k : Kernel) (c c' : ContextId) (pattern : Term) :
    (k.gatherBegin c pattern).openGathers c' =
      if c' = c ∧ c.index < k.contexts.size then (k.frames, pattern) :: k.openGathers c'
      else k.openGathers c' := by
  change ((k.updateContext c _).context c').gathers.map _ = _
  split
  next h =>
    obtain ⟨rfl, hc⟩ := h
    rw [context_updateContext_self k _ hc]
    rfl
  next h =>
    by_cases hne : c = c'
    · subst hne
      have hc : k.contexts.size ≤ c.index := Nat.le_of_not_lt fun hlt => h ⟨rfl, hlt⟩
      rw [context_updateContext_of_size_le k _ c hc]
      rfl
    · rw [context_updateContext_of_ne k _ hne]
      rfl

theorem openGathers_gatherEnd (k : Kernel) (c c' : ContextId) :
    (k.gatherEnd c).2.openGathers c' =
      if c' = c then (k.openGathers c').tail else k.openGathers c' := by
  unfold gatherEnd openGathers
  split
  next frame rest hframes =>
    by_cases hc : c' = c
    · subst hc
      have hknown : c'.index < k.contexts.size := by
        by_contra hout
        simp [context, Array.getD_eq_getD_getElem?, Array.getElem?_eq_none (Nat.le_of_not_lt hout),
          default] at hframes
      rw [if_pos rfl, context_updateContext_self k _ hknown, hframes]
      rfl
    · rw [if_neg hc, context_updateContext_of_ne k _ (Ne.symm hc)]
  next hframes =>
    split
    next hc => rw [hc, hframes]; rfl
    next => rfl

/-- Closing a gather changes the gathers only. -/
theorem gatherEnd_eq (k : Kernel) (c c' : ContextId) {α : Type} {g : Context → α}
    (hg : ∀ x gathers, g { x with gathers := gathers } = g x) :
    g ((k.gatherEnd c).2.context c') = g (k.context c') := by
  unfold Kernel.gatherEnd
  split
  · exact context_updateContext_of_eq k c c' fun x => hg x _
  · rfl

theorem gatherEnd_fields (k : Kernel) (c : ContextId) : (k.gatherEnd c).2.config = k.config ∧
    (k.gatherEnd c).2.structureEpoch = k.structureEpoch ∧
    (k.gatherEnd c).2.messages = k.messages ∧ (k.gatherEnd c).2.frames = k.frames := by
  unfold Kernel.gatherEnd
  split <;> exact ⟨rfl, rfl, rfl, rfl⟩

theorem gatherBegin_eq (k : Kernel) (c c' : ContextId) (pattern : Term) {α : Type} {g : Context → α}
    (hg : ∀ x gathers, g { x with gathers := gathers } = g x) :
    g ((k.gatherBegin c pattern).context c') = g (k.context c') :=
  context_updateContext_of_eq k c c' fun x => hg x _

theorem sameDefinitions_gatherBegin (k : Kernel) (c : ContextId) (pattern : Term) :
    k.SameDefinitions (k.gatherBegin c pattern) :=
  ⟨rfl, rfl, rfl, by simp [gatherBegin, updateContext],
    fun c' => k.gatherBegin_eq c c' pattern fun _ _ => rfl⟩

/-- A gather that is opened is closed again after what was done meanwhile. -/
theorem Preserves.gatherEnd {pattern : Term} (h : (k.gatherBegin c pattern).Preserves k') :
    k.Preserves (k'.gatherEnd c).2 := by
  obtain ⟨hconfig, hepoch, hmessages, hframes⟩ := k'.gatherEnd_fields c
  refine ⟨⟨⟨?_, hconfig.trans h.config, hepoch.trans h.structureEpoch, fun c' => ?_⟩,
    fun c' => ?_, ?_, ?_⟩, fun c' hdepth hreports => ?_⟩
  · exact (k.sameDefinitions_gatherBegin c pattern).trans
      (h.definitions.trans (sameDefinitions_gatherEnd k' c))
  · rw [openGathers_gatherEnd, h.gathers, openGathers_gatherBegin]
    by_cases hc : c' = c
    · subst hc
      by_cases hknown : c'.index < k.contexts.size
      · simp [hknown]
      · have hnone : k.openGathers c' = [] := by
          simp [openGathers, context, Array.getD_eq_getD_getElem?,
            Array.getElem?_eq_none (Nat.le_of_not_lt hknown), default]
        simp [hknown, hnone]
    · simp [hc]
  · exact (k'.gatherEnd_eq c c' (g := Context.depth) fun _ _ => rfl).trans
      ((h.depth c').trans (k.gatherBegin_eq c c' pattern (g := Context.depth) fun _ _ => rfl))
  · rw [hmessages]
    exact h.messages
  · rw [hframes]
    exact Nat.le_of_succ_le h.frames
  · have hbegun := k.gatherBegin_eq c c' pattern (g := Context.depth) fun _ _ => rfl
    have hreported := h.limitReported c' (by rwa [Kernel.depth, hbegun])
      (by rwa [reports, hmessages] at hreports)
    exact (k'.gatherEnd_eq c c' (g := Context.limitReported) fun _ _ => rfl).trans
      (hreported.trans (k.gatherBegin_eq c c' pattern (g := Context.limitReported) fun _ _ => rfl))

end Kernel

/-! ## the contract -/

/-- An evaluation leaves definitions and open gathers as they were. -/
def preserving : Contract where
  Ok := Kernel.Preserves
  Fails _ := Kernel.Preserves
  refl := .refl
  trans := .trans
  trans_fails := .trans

/-- Evaluation starts with orderly native code. -/
def orderlyKernels : preserving.Scope where
  From _ := Kernel.Orderly
  keeps h hk := h.of_symbols_eq hk.definitions.symbols

theorem Contract.Leaves.preserves {α : Type} {k k' : Kernel} {result : Except EvalError α}
    (h : preserving.Leaves k result k') : k.Preserves k' := by
  cases result <;> exact h

theorem Kernel.Preserves.leaves {α : Type} {k k' : Kernel} (h : k.Preserves k')
    (result : Except EvalError α) : preserving.Leaves k result k' := by
  cases result <;> exact h

theorem hosts_orderlyKernels (c : ContextId) : orderlyKernels.Hosts c where
  share k t := k.preserves_share t
  message k s tag args _ := k.preserves_addMessage s tag args
  elapse k nanos := k.preserves_elapse nanos
  stamp _ k t _ := k.preserves_stamp c t _
  aborted := .refl
  raise k _ := k.preserves_updateContext c (fun _ => rfl) (fun _ => rfl) (fun _ => rfl) fun _ => rfl
  catches h := h.trans
    (Kernel.preserves_updateContext _ c (fun _ => rfl) (fun _ => rfl) (fun _ => rfl) fun _ => rfl)
  collect k owner id value := k.preserves_collect owner id value
  opens hk _ := hk.of_symbols_eq rfl
  closes h := h.preserves.gatherEnd.leaves _

namespace Evaluator

open Contract

variable {r r' : Evaluator}

theorem alike_evaluateCall_orderly (h : r.AgreesIn orderlyKernels r') (c : ContextId)
    (call : Term) :
    (orderlyKernels.agreeing c).Alike (r.evaluateCall c call) (r'.evaluateCall c call) :=
  h.evaluateCall (hosts_orderlyKernels c)
    (codeAlike_of_orderly h (hosts_orderlyKernels c) fun _ hk => hk)
    (fun _ hk _ => hk.of_symbols_eq rfl) (fun _ _ _ => Kernel.Preserves.refl _)
    (fun k _ _ args => (k.enter c).preserves_reportLimit c args)
    (fun _ _ result _ hleaves => hleaves.preserves.leave.leaves result) call

/-- With any amount of fuel, evaluation leaves definitions and open gathers as they were. -/
theorem agreesIn_orderlyKernels (fuel : Nat) :
    (ofFuel fuel).AgreesIn orderlyKernels (ofFuel fuel) :=
  agreesIn_ofFuel Kernel.Preserves.refl hosts_orderlyKernels
    (fun _ _ _ _ _ hdepth hleaves => (hleaves.preserves.reset hdepth).leaves _)
    alike_evaluateCall_orderly fuel

end Evaluator

/-- Where native code is orderly, an evaluation leaves definitions and open gathers as they were. -/
theorem Kernel.Orderly.preserves_evaluateWith {k : Kernel} (hk : k.Orderly) (fuel : Nat)
    (c : ContextId) (t : Term) : k.Preserves ((evaluateWith fuel c t).run k).2 :=
  (((Evaluator.agreesIn_orderlyKernels fuel).evaluate c t k hk).leaves).preserves

end Termwise
