import Mathlib.Data.List.Forall2
import Termwise.Eval.Evaluate
import Termwise.Proofs.Eval.Nested

/-!
# Termwise.Proofs.Eval.Unwinding

How evaluation unwinds.  Where native code is *orderly*, that is part of the evaluator
or without effects of its own, an evaluation leaves a context as follows, however it
ended (`Kernel.Unwound`):

1. the open gathers are those that were open before; each may have collected more;
2. the exception slot, if it was empty, holds just what was thrown;
3. definitions, deadlines and the abort flag are as they were.

Throws come out of arguments, tests, defaults and the patterns of emitted tags alike, and
every body of a catch or a gather is left the same way; so it is a contract, and the walk
through the evaluator is that of `Proofs.Eval.Nested`.
-/

namespace Termwise

/-- Code of the evaluator itself, or without effects of its own. -/
def Native.isOrderly : Native → Bool
  | raise | capture | gather | emit | release => true
  | function _ | depth | isMatch | replace _ | format => true
  | _ => false

/-- Whether all native code of a symbol is orderly. -/
def SymbolRecord.isOrderly (r : SymbolRecord) : Bool :=
  [CodeUsage.down, .sub, .up].all fun usage => (r.code.get usage).all Native.isOrderly

/-- What an error throws. -/
def EvalError.thrown? : EvalError → Option Term
  | thrown value => some value
  | _ => none

/-- A gather later on: more may have been collected. -/
structure GatherFrame.Grown (g g' : GatherFrame) : Prop where
  id : g'.id = g.id
  pattern : g'.pattern = g.pattern
  values : g.values <+: g'.values

theorem GatherFrame.Grown.refl (g : GatherFrame) : g.Grown g := ⟨rfl, rfl, List.prefix_rfl⟩

theorem GatherFrame.Grown.trans {g g' g'' : GatherFrame} (h : g.Grown g') (h' : g'.Grown g'') :
    g.Grown g'' := ⟨h'.id.trans h.id, h'.pattern.trans h.pattern, h.values.trans h'.values⟩

/-- What evaluation does not change in a context by itself. -/
def Context.fixed (x : Context) :
    List ContextId × List (Symbol × Term) × List (Symbol × RuleList) × Nat :=
  (x.ancestors, x.locals, x.localRules, x.deadline)

namespace Kernel

/-- All native code is orderly. -/
def Orderly (k : Kernel) : Prop :=
  ∀ s usage code, (k.record s).code.get usage = some code → code.isOrderly = true

/-- Definitions, deadlines and the abort flag are as they were. -/
structure SameDefinitions (k k' : Kernel) : Prop where
  symbols : k'.symbols = k.symbols
  generation : k'.generation = k.generation
  aborting : k'.aborting = k.aborting
  size : k'.contexts.size = k.contexts.size
  fixed : ∀ c, (k'.context c).fixed = (k.context c).fixed

/-- How an evaluation leaves a context that threw something or nothing. -/
structure Unwound (c : ContextId) (thrown : Option Term) (k k' : Kernel) : Prop where
  definitions : k.SameDefinitions k'
  gathers : c.index < k.contexts.size →
    List.Forall₂ GatherFrame.Grown (k.context c).gathers (k'.context c).gathers
  pending : c.index < k.contexts.size → k.pendingException c = none →
    k'.pendingException c = thrown

variable {k k' k'' : Kernel} {c : ContextId} {thrown : Option Term}

/-- What is checked of all symbols holds of each one. -/
theorem record_of_all {p : SymbolRecord → Bool} (h : k.symbols.all p = true) (s : Symbol)
    (hnew : p { name := s.name } = true) : p (k.record s) = true := by
  rw [record, Array.getD_eq_getD_getElem?]
  rcases Nat.lt_or_ge s.id k.symbols.size with hs | hs
  · rw [Array.getElem?_eq_getElem hs]
    exact Array.all_eq_true.mp h s.id hs
  · rwa [Array.getElem?_eq_none hs]

theorem orderly_of_all (h : k.symbols.all SymbolRecord.isOrderly = true) : k.Orderly := by
  intro s usage code hcode
  have hrecord := record_of_all h s rfl
  rw [SymbolRecord.isOrderly, List.all_eq_true] at hrecord
  have hcode' := hrecord usage (by cases usage <;> simp)
  rwa [hcode] at hcode'

theorem Orderly.of_symbols_eq (hk : k.Orderly) (h : k'.symbols = k.symbols) : k'.Orderly := by
  have hrecord : k'.record = k.record := by
    funext s
    simp only [record, h]
  rw [Orderly, hrecord]
  exact hk

theorem SameDefinitions.refl (k : Kernel) : k.SameDefinitions k :=
  ⟨rfl, rfl, rfl, rfl, fun _ => rfl⟩

theorem SameDefinitions.trans (h : k.SameDefinitions k') (h' : k'.SameDefinitions k'') :
    k.SameDefinitions k'' :=
  ⟨h'.symbols.trans h.symbols, h'.generation.trans h.generation, h'.aborting.trans h.aborting,
    h'.size.trans h.size, fun c => (h'.fixed c).trans (h.fixed c)⟩

theorem SameDefinitions.symm (h : k.SameDefinitions k') : k'.SameDefinitions k :=
  ⟨h.symbols.symm, h.generation.symm, h.aborting.symm, h.size.symm, fun c => (h.fixed c).symm⟩

theorem SameDefinitions.record_eq (h : k.SameDefinitions k') : k'.record = k.record := by
  funext s
  simp only [record, h.symbols]

theorem SameDefinitions.ancestors_eq (h : k.SameDefinitions k') (c : ContextId) :
    (k'.context c).ancestors = (k.context c).ancestors := congrArg Prod.fst (h.fixed c)

theorem SameDefinitions.chain_eq (h : k.SameDefinitions k') (c : ContextId) :
    (k'.chain c).map Context.fixed = (k.chain c).map Context.fixed := by
  simp only [chain, List.map_cons, List.map_map, h.fixed c, h.ancestors_eq c, List.cons.injEq,
    true_and]
  exact List.map_congr_left fun c' _ => h.fixed c'

theorem sameDefinitions_updateContext (k : Kernel) (c : ContextId) {f : Context → Context}
    (h : ∀ x, (f x).fixed = x.fixed) : k.SameDefinitions (k.updateContext c f) where
  symbols := rfl
  generation := rfl
  aborting := rfl
  size := by simp [updateContext]
  fixed c' := context_updateContext_of_eq k c c' h

/-! ## unwinding step by step -/

theorem forall₂_grown_refl (frames : List GatherFrame) :
    List.Forall₂ GatherFrame.Grown frames frames :=
  List.forall₂_same.mpr fun g _ => .refl g

/-- A change that leaves the gathers and the exception slot of the context alone. -/
theorem Unwound.of_definitions (h : k.SameDefinitions k')
    (hgathers : (k'.context c).gathers = (k.context c).gathers)
    (hpending : k'.pendingException c = k.pendingException c) : k.Unwound c none k' where
  definitions := h
  gathers _ := by
    rw [hgathers]
    exact forall₂_grown_refl _
  pending _ hempty := by rw [hpending, hempty]

/-- A change that leaves all contexts alone. -/
theorem Unwound.of_eq (hsymbols : k'.symbols = k.symbols) (hcontexts : k'.contexts = k.contexts)
    (hgeneration : k'.generation = k.generation) (haborting : k'.aborting = k.aborting) :
    k.Unwound c none k' := by
  have hcontext : k'.context = k.context := by
    funext c
    simp only [context, hcontexts]
  refine .of_definitions ⟨hsymbols, hgeneration, haborting, by rw [hcontexts], fun c => ?_⟩ ?_ ?_
  · rw [hcontext]
  · rw [hcontext]
  · rw [pendingException, pendingException, hcontext]

/-- A change of a context that leaves the gathers and the exception slot of contexts alone. -/
theorem unwound_updateContext (k : Kernel) (c owner : ContextId) {f : Context → Context}
    (hfixed : ∀ x, (f x).fixed = x.fixed) (hgathers : ∀ x, (f x).gathers = x.gathers)
    (hpending : ∀ x, (f x).pending = x.pending) : k.Unwound c none (k.updateContext owner f) :=
  .of_definitions (sameDefinitions_updateContext k owner hfixed)
    (context_updateContext_of_eq k owner c hgathers)
    (context_updateContext_of_eq k owner c hpending)

theorem forall₂_grown_trans {frames frames' frames'' : List GatherFrame}
    (h : List.Forall₂ GatherFrame.Grown frames frames')
    (h' : List.Forall₂ GatherFrame.Grown frames' frames'') :
    List.Forall₂ GatherFrame.Grown frames frames'' := by
  induction h generalizing frames'' with
  | nil => exact h'
  | cons hgrown _ ih =>
      cases h' with
      | cons hgrown' hrest => exact .cons (hgrown.trans hgrown') (ih hrest)

theorem Unwound.refl (c : ContextId) (k : Kernel) : k.Unwound c none k := .of_eq rfl rfl rfl rfl

theorem Unwound.trans (h : k.Unwound c none k') (h' : k'.Unwound c thrown k'') :
    k.Unwound c thrown k'' where
  definitions := h.definitions.trans h'.definitions
  gathers hc := by
    have hc' : c.index < k'.contexts.size := by rwa [h.definitions.size]
    exact forall₂_grown_trans (h.gathers hc) (h'.gathers hc')
  pending hc hempty := h'.pending (by rwa [h.definitions.size]) (h.pending hc hempty)

/-- A change in the end that leaves gathers and exception slots alone. -/
theorem Unwound.updateContext (h : k.Unwound c thrown k') {f : Context → Context}
    (hfixed : ∀ x, (f x).fixed = x.fixed) (hgathers : ∀ x, (f x).gathers = x.gathers)
    (hpending : ∀ x, (f x).pending = x.pending) : k.Unwound c thrown (k'.updateContext c f) where
  definitions := h.definitions.trans (sameDefinitions_updateContext k' c hfixed)
  gathers hc := by
    rw [context_updateContext_of_eq k' c c hgathers]
    exact h.gathers hc
  pending hc hempty := by
    rw [pendingException, context_updateContext_of_eq k' c c hpending]
    exact h.pending hc hempty

theorem unwound_stamp (k : Kernel) (c : ContextId) (t : Term) (generation : Option Nat) :
    k.Unwound c none (k.stamp c t generation) := by
  unfold stamp markEvaluated
  repeat' split
  all_goals exact .of_eq rfl rfl rfl rfl

/-- What is thrown goes into the exception slot. -/
theorem unwound_recordException (k : Kernel) (c : ContextId) (value : Term) :
    k.Unwound c (some value) (k.recordException c value) where
  definitions := sameDefinitions_updateContext k c fun _ => rfl
  gathers _ := by
    have hsame : ((k.recordException c value).context c).gathers = (k.context c).gathers :=
      context_updateContext_of_eq k c c fun _ => rfl
    rw [hsame]
    exact forall₂_grown_refl _
  pending hc hempty := by
    have hempty : (k.context c).pending = none := hempty
    rw [recordException, pendingException, context_updateContext_self k _ hc, hempty]
    rfl

/-- After a catch the exception slot is empty. -/
theorem Unwound.catchException (h : k.Unwound c thrown k') :
    k.Unwound c none (k'.catchException c).2 where
  definitions := h.definitions.trans (sameDefinitions_updateContext k' c fun _ => rfl)
  gathers hc := by
    have hsame : ((k'.catchException c).2.context c).gathers = (k'.context c).gathers :=
      context_updateContext_of_eq k' c c fun _ => rfl
    rw [hsame]
    exact h.gathers hc
  pending hc _ := by
    have hc' : c.index < k'.contexts.size := by rwa [h.definitions.size]
    rw [Kernel.catchException, pendingException, context_updateContext_self k' _ hc']

/-- A value that a gather takes is its last one. -/
theorem unwound_collect (k : Kernel) (c owner : ContextId) (id : Nat) (value : Term) :
    k.Unwound c none (k.collect owner id value) where
  definitions := sameDefinitions_updateContext k owner fun _ => rfl
  gathers _ := by
    rcases context_updateContext k owner c fun x => { x with gathers := x.gathers.map fun g =>
      if g.id = id then { g with values := g.values ++ [value] } else g } with h | ⟨h, -⟩
    · rw [collect, h]
      exact forall₂_grown_refl _
    · rw [collect, h]
      refine List.forall₂_map_right_iff.mpr (List.forall₂_same.mpr fun g _ => ?_)
      split
      · exact ⟨rfl, rfl, List.prefix_append _ _⟩
      · exact .refl g
  pending _ hempty := by
    have hsame : ((k.collect owner id value).context c).pending = (k.context c).pending :=
      context_updateContext_of_eq k owner c fun _ => rfl
    exact hsame.trans hempty

theorem sameDefinitions_gatherEnd (k : Kernel) (c : ContextId) :
    k.SameDefinitions (k.gatherEnd c).2 := by
  unfold gatherEnd
  split
  · exact sameDefinitions_updateContext k c fun _ => rfl
  · exact .refl k

/-- A gather that is opened is closed again after what was done meanwhile. -/
theorem Unwound.gatherEnd {pattern : Term} (h : (k.gatherBegin c pattern).Unwound c thrown k') :
    k.Unwound c thrown (k'.gatherEnd c).2 := by
  have hsize : (k.gatherBegin c pattern).contexts.size = k.contexts.size := by
    simp [gatherBegin, Kernel.updateContext]
  have hopened : k.SameDefinitions (k.gatherBegin c pattern) :=
    ⟨rfl, rfl, rfl, hsize, fun c' => context_updateContext_of_eq k c c' fun _ => rfl⟩
  refine ⟨hopened.trans (h.definitions.trans (sameDefinitions_gatherEnd k' c)),
    fun hc => ?_, fun hc hempty => ?_⟩
  · have hframes : ((k.gatherBegin c pattern).context c).gathers =
        ⟨k.frames, pattern, []⟩ :: (k.context c).gathers :=
      congrArg Context.gathers (context_updateContext_self k _ hc)
    have hgrown := h.gathers (by rwa [hsize])
    rw [hframes] at hgrown
    obtain ⟨frame, rest, -, hrest, hframes'⟩ := List.forall₂_cons_left_iff.mp hgrown
    have hc' : c.index < k'.contexts.size := by rwa [h.definitions.size, hsize]
    have hend : (k'.gatherEnd c).2 = k'.updateContext c fun x => { x with gathers := rest } := by
      rw [Kernel.gatherEnd, hframes']
    rw [hend, context_updateContext_self k' _ hc']
    exact hrest
  · have hopen : (k.gatherBegin c pattern).pendingException c = k.pendingException c :=
      context_updateContext_of_eq k c c fun _ => rfl
    have hclose : (k'.gatherEnd c).2.pendingException c = k'.pendingException c := by
      unfold Kernel.gatherEnd
      split
      · exact context_updateContext_of_eq k' c c fun _ => rfl
      · rfl
    rw [hclose]
    exact h.pending (by rwa [hsize]) (hopen.trans hempty)

end Kernel

/-! ## the contract -/

/-- An evaluation leaves a context unwound. -/
def unwinding (c : ContextId) : Contract where
  Ok := Kernel.Unwound c none
  Fails e := Kernel.Unwound c e.thrown?
  refl := .refl c
  trans := .trans
  trans_fails := .trans

/-- Evaluation starts in the context, with orderly native code and an empty exception slot. -/
def entries (c : ContextId) : (unwinding c).Scope where
  From c' k := c' = c ∧ c.index < k.contexts.size ∧ k.pendingException c = none ∧ k.Orderly
  keeps h hk := ⟨h.1, by rw [hk.definitions.size]; exact h.2.1, hk.pending h.2.1 h.2.2.1,
    h.2.2.2.of_symbols_eq hk.definitions.symbols⟩

/-- A change in the end, however an action ended. -/
theorem Contract.Leaves.unwound {α : Type} {c : ContextId} {k₀ k k' k'' : Kernel}
    {result : Except EvalError α}
    (h : (unwinding c).Leaves k₀ result k')
    (hk : ∀ thrown, k₀.Unwound c thrown k' → k.Unwound c thrown k'') :
    (unwinding c).Leaves k result k'' := by
  cases result with
  | ok a => exact hk none h
  | error e => exact hk e.thrown? h

theorem hosts_entries (c : ContextId) : (entries c).Hosts c where
  share _ _ := .of_eq rfl rfl rfl rfl
  message _ _ _ _ _ := .of_eq rfl rfl rfl rfl
  elapse _ _ := .of_eq rfl rfl rfl rfl
  stamp _ k t _ := k.unwound_stamp c t _
  aborted k := .refl c k
  raise k value := k.unwound_recordException c value
  catches h := h.catchException
  collect k owner id value := k.unwound_collect c owner id value
  opens {k} hk pattern := by
    refine ⟨hk.1, ?_, ?_, hk.2.2.2.of_symbols_eq rfl⟩
    · simpa [Kernel.gatherBegin, Kernel.updateContext] using hk.2.1
    · have hsame : (k.gatherBegin c pattern).pendingException c = k.pendingException c :=
        k.context_updateContext_of_eq c c fun _ => rfl
      exact hsame.trans hk.2.2.1
  closes h := h.unwound fun _ => .gatherEnd

theorem resets_entries (c : ContextId) : (entries c).Resets c := fun _ _ hleaves =>
  hleaves.unwound fun _ h => h.updateContext (fun _ => rfl) (fun _ => rfl) fun _ => rfl

namespace Evaluator

open Contract

variable {r r' : Evaluator} {c : ContextId}

/-- Orderly native code keeps to any contract that allows for what evaluation does by itself. -/
theorem codeAlike_of_orderly {C : Contract} {S : C.Scope} (h : r.AgreesIn S r')
    (hosts : S.Hosts c) (horderly : ∀ k, S.From c k → k.Orderly) : CodeAlike S r r' c := by
  intro k hk s usage code hget call
  have hcode := horderly k hk s usage code hget
  refine (?_ : (S.agreeing c).Alike (r.run c code call) (r'.run c code call)) k hk
  unfold Evaluator.run
  generalize call.args = args
  split <;> try cases hcode
  · exact (S.agreeing c).alike_pure _
  · exact (hosts.calm_raise _).alike
  · exact Congruence.alike_map some (h.capture hosts _)
  · exact Congruence.alike_map some (h.gather hosts _ _)
  · exact Congruence.alike_map some (h.gather hosts _ _)
  · exact (S.agreeing c).alike_bind (h.emit hosts _ _) fun _ => (S.agreeing c).alike_pure _
  · exact (S.agreeing c).alike_bind (h.emit hosts _ _) fun _ => (S.agreeing c).alike_pure _
  · exact (S.agreeing c).alike_pure _
  · exact (S.agreeing c).alike_pure _
  · exact calm_get.returning _
  · refine (S.agreeing c).alike_bind calm_get.alike fun k => ?_
    split
    · exact Congruence.alike_map some (h.replace c _ _ _)
    · exact (S.agreeing c).alike_pure none
  · exact (S.agreeing c).alike_bind (h.isMatch hosts _ _) fun _ => (S.agreeing c).alike_pure _
  · exact Congruence.alike_map some (h.format hosts _)
  · exact (S.agreeing c).alike_pure none

/-- Orderly native code unwinds if evaluation does. -/
theorem codeAlike_entries (h : r.AgreesIn (entries c) r') : CodeAlike (entries c) r r' c :=
  codeAlike_of_orderly h (hosts_entries c) fun _ hk => hk.2.2.2

/-- A call is unwound if what is evaluated inside it is. -/
theorem alike_evaluateCall_entries (h : r.AgreesIn (entries c) r') (call : Term) :
    ((entries c).agreeing c).Alike (r.evaluateCall c call) (r'.evaluateCall c call) := by
  have henter : ∀ k : Kernel, k.Unwound c none (k.enter c) := fun k =>
    k.unwound_updateContext c c (fun _ => rfl) (fun _ => rfl) fun _ => rfl
  refine h.evaluateCall (hosts_entries c) (codeAlike_entries h)
    (fun k hk _ => (entries c).keeps hk (henter k)) (fun _ _ _ => .refl c _)
    (fun k _ _ args => ?_) (fun k k' result _ hleaves => ?_) call
  · exact ((k.enter c).unwound_updateContext c c (f := fun x => { x with limitReported := true })
      (fun _ => rfl) (fun _ => rfl) fun _ => rfl).trans (.of_eq rfl rfl rfl rfl)
  exact (hleaves.since (henter k)).unwound fun _ h =>
    h.updateContext (fun _ => rfl) (fun _ => rfl) fun _ => rfl

/-- With any amount of fuel, evaluation in the context leaves it unwound. -/
theorem agreesIn_entries (c : ContextId) (fuel : Nat) :
    (ofFuel fuel).AgreesIn (entries c) (ofFuel fuel) := by
  induction fuel with
  | zero =>
      have hfails : ∀ k, (unwinding c).Fails .outOfFuel k k := fun k => .refl c k
      exact ⟨fun c t => (calm_throw hfails).alike, fun c lhs rhs t => (calm_throw hfails).alike⟩
  | succ fuel ih =>
      have hosts := hosts_entries c
      refine ⟨fun c' t k hk => ?_, fun c' lhs rhs t k hk => ?_⟩
      · obtain rfl := hk.1
        exact alike_evaluateFully hosts (ih.rewritesAlike c') (Callees.rules_true _ .own)
          (alike_evaluateCall_entries ih) (resets_entries c') t k hk
      · obtain rfl := hk.1
        exact ih.rewriteWith hosts lhs rhs t k hk

end Evaluator

/-! ## evaluations unwind -/

namespace Kernel

variable {k : Kernel} {c : ContextId}

/-- How an evaluation leaves the kernel. -/
theorem Orderly.unwound_evaluateWith (hk : k.Orderly) (hc : c.index < k.contexts.size)
    (hempty : k.pendingException c = none) (fuel : Nat) (t : Term) :
    (unwinding c).Leaves k ((evaluateWith fuel c t).run k).1 ((evaluateWith fuel c t).run k).2 :=
  ((Evaluator.agreesIn_entries c fuel).evaluate c t k ⟨rfl, hc, hempty, hk⟩).leaves

/-- Evaluation without failing leaves the exception slot empty. -/
theorem Orderly.pending_evaluateTop (hk : k.Orderly) (hc : c.index < k.contexts.size)
    (hempty : k.pendingException c = none) (t : Term) :
    ((evaluateTop c t).run k).2.pendingException c = none := by
  have hshare : (Termwise.share t).run k = (.ok (k.share t).1, (k.share t).2) := rfl
  have hleaves := Orderly.unwound_evaluateWith (k := (k.share t).2) (hk.of_symbols_eq rfl) hc hempty
    (2 ^ 62) (k.share t).1
  change (unwinding c).Leaves _ ((evaluate c (k.share t).1).run (k.share t).2).1
    ((evaluate c (k.share t).1).run (k.share t).2).2 at hleaves
  rw [evaluateTop, EvalM.run_bind_ok hshare, EvalM.run_bind_ok (EvalM.run_outcome _ _)]
  revert hleaves
  generalize ((evaluate c (k.share t).1).run (k.share t).2).2 = k'
  intro hleaves
  cases hresult : ((evaluate c (k.share t).1).run (k.share t).2).1 with
  | ok value =>
      rw [hresult] at hleaves
      exact hleaves.pending hc hempty
  | error e =>
      rw [hresult] at hleaves
      cases e with
      | thrown value => exact hleaves.catchException.pending hc hempty
      | _ => exact hleaves.pending hc hempty

/-- A new kernel is orderly. -/
theorem orderly_new (config : Config) : (new config).Orderly := by
  have hall : (new {}).symbols.all SymbolRecord.isOrderly = true := by decide +kernel
  exact orderly_of_all hall

/-- Where native code is orderly and the exception slot of a context empty, an evaluation in the
context leaves open the gathers that were, each with what it had collected and possibly more at
the end; it leaves in the slot just what it threw; and evaluation without failing leaves the slot
empty. -/
theorem Orderly.evaluateWith_unwinds (hk : k.Orderly) (hc : c.index < k.contexts.size)
    (hempty : k.pendingException c = none) (t : Term) :
    (∀ fuel,
      List.Forall₂ GatherFrame.Grown (k.context c).gathers
        (((evaluateWith fuel c t).run k).2.context c).gathers ∧
      ((evaluateWith fuel c t).run k).2.pendingException c =
        match ((evaluateWith fuel c t).run k).1 with
        | .error (.thrown value) => some value
        | _ => none) ∧
    ((evaluateTop c t).run k).2.pendingException c = none := by
  refine ⟨fun fuel => ?_, hk.pending_evaluateTop hc hempty t⟩
  have hleaves := hk.unwound_evaluateWith hc hempty fuel t
  cases hresult : ((evaluateWith fuel c t).run k).1 with
  | ok value =>
      rw [hresult] at hleaves
      exact ⟨hleaves.gathers hc, hleaves.pending hc hempty⟩
  | error e =>
      rw [hresult] at hleaves
      refine ⟨hleaves.gathers hc, (hleaves.pending hc hempty).trans ?_⟩
      cases e <;> rfl

/-- `Gather(Throw(1))`. -/
def gatherThrow : Term := .app .gather [.app .raise [.int 1]]

/-- Evaluating `Gather(Throw(1))` leaves no gather open, and in the slot what it threw. -/
theorem evaluateWith_unwinds_gather :
    (∀ fuel, List.Forall₂ GatherFrame.Grown []
        (((evaluateWith fuel ⟨0⟩ gatherThrow).run (new {}).newRoot.2).2.context ⟨0⟩).gathers ∧
      ((evaluateWith fuel ⟨0⟩ gatherThrow).run (new {}).newRoot.2).2.pendingException ⟨0⟩ =
        match ((evaluateWith fuel ⟨0⟩ gatherThrow).run (new {}).newRoot.2).1 with
        | .error (.thrown value) => some value
        | _ => none) ∧
      ((evaluateTop ⟨0⟩ gatherThrow).run (new {}).newRoot.2).2.pendingException ⟨0⟩ = none :=
  Orderly.evaluateWith_unwinds (k := (new {}).newRoot.2) (c := ⟨0⟩)
    ((orderly_new {}).of_symbols_eq rfl)
    (by decide) rfl gatherThrow

example : (((evaluateWith 4 ⟨0⟩ gatherThrow).run (new {}).newRoot.2).2.pendingException ⟨0⟩).any
    (· == .int 1) = true := by decide +kernel

end Kernel

end Termwise
