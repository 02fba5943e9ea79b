import Termwise.Proofs.Eval.Enduring
import Termwise.Proofs.Eval.Preserved
import Mathlib.Order.Bounds.Basic

/-!
# Termwise.Proofs.Eval.Deadlines

Time limits within time limits.  Each context has room for one deadline, which a call of
`timeConstrained` lowers and puts back.  Nested calls, on a context and on those spawned
from it, are followed by the limits that they set (`Kernel.Enclosed`):

1. while the bodies run, the deadline in force is the earliest of all the limits around,
   also those of ancestors (`Kernel.Enclosed.isLeast_deadline`);
2. when a call ends, every deadline is what it was, however its body ended;
3. a call reports that its time is up only if its own limit has run out.

Whatever evaluation does in between lets time pass and keeps deadlines
(`Kernel.passes_evaluateWith`).

What a call does not look at is whether a limit around it has run out as well: then it
takes the failure of its body for its own affair, and it is the next look at the clock that
fails again.
-/

namespace Termwise

namespace Kernel

/-- A later kernel: the clock was not turned back, no context was lost, and deadlines are as they
were; new contexts have none of their own. -/
structure Passes (k k' : Kernel) : Prop where
  clock : k.clock ≤ k'.clock
  size : k.contexts.size ≤ k'.contexts.size
  deadline : ∀ c, (k'.context c).deadline = (k.context c).deadline
  ancestors : ∀ c : ContextId, c.index < k.contexts.size →
    (k'.context c).ancestors = (k.context c).ancestors

variable {k₀ k k' k'' : Kernel} {c : ContextId} {calls : List (ContextId × Nat)}

theorem Passes.refl (k : Kernel) : k.Passes k :=
  ⟨Nat.le_refl _, Nat.le_refl _, fun _ => rfl, fun _ _ => rfl⟩

theorem Passes.trans (h : k.Passes k') (h' : k'.Passes k'') : k.Passes k'' where
  clock := Nat.le_trans h.clock h'.clock
  size := Nat.le_trans h.size h'.size
  deadline c := (h'.deadline c).trans (h.deadline c)
  ancestors c hc := (h'.ancestors c (Nat.lt_of_lt_of_le hc h.size)).trans (h.ancestors c hc)

theorem Minor.passes (h : k.Minor k') : k.Passes k' :=
  ⟨h.clock, Nat.le_of_eq h.stays.size.symm, h.deadline_eq, fun c _ => h.ancestors_eq c⟩

theorem Passes.of_eq (hclock : k'.clock = k.clock) (hcontexts : k'.contexts = k.contexts) :
    k.Passes k' := by
  refine ⟨Nat.le_of_eq hclock.symm, ?_, fun c => ?_, fun c _ => ?_⟩
  · rw [hcontexts]
  · rw [context, hcontexts, context]
  · rw [context, hcontexts, context]

theorem passes_updateContext (k : Kernel) (c : ContextId) {f : Context → Context}
    (hdeadline : ∀ x, (f x).deadline = x.deadline)
    (hancestors : ∀ x, (f x).ancestors = x.ancestors) : k.Passes (k.updateContext c f) where
  clock := Nat.le_refl _
  size := by simp [updateContext]
  deadline c' := context_updateContext_of_eq k c c' hdeadline
  ancestors c' _ := context_updateContext_of_eq k c c' hancestors

theorem passes_stamp (k : Kernel) (c : ContextId) (t : Term) (generation : Option Nat) :
    k.Passes (k.stamp c t generation) := by
  unfold stamp markEvaluated
  repeat' split
  all_goals exact .of_eq rfl rfl

theorem passes_spawnChild (k : Kernel) (c : ContextId) : k.Passes (k.spawnChild c).2 := by
  have hcontext : ∀ c' : ContextId, c'.index ≠ k.contexts.size →
      (k.spawnChild c).2.context c' = k.context c' := fun c' hc' => by
    simp only [spawnChild, context, Array.getD_eq_getD_getElem?, Array.getElem?_push, if_neg hc']
  refine ⟨Nat.le_refl _, by simp [spawnChild], fun c' => ?_, fun c' hc' => ?_⟩
  · by_cases hnew : c'.index = k.contexts.size
    · simp [spawnChild, context, Array.getD_eq_getD_getElem?, hnew, default]
    · rw [hcontext c' hnew]
  · rw [hcontext c' (Nat.ne_of_lt hc')]

/-! ## setting and lifting a limit -/

theorem deadline_setDeadline (k : Kernel) (c c' : ContextId) (d : Nat) :
    ((k.setDeadline c d).context c').deadline =
      if c = c' ∧ c.index < k.contexts.size then d else (k.context c').deadline := by
  split
  next h =>
    obtain ⟨rfl, hc⟩ := h
    exact congrArg Context.deadline (context_updateContext_self k _ hc)
  next h =>
    by_cases hcc : c = c'
    · have hout : k.contexts.size ≤ c.index := Nat.le_of_not_lt fun hc => h ⟨hcc, hc⟩
      exact congrArg Context.deadline (context_updateContext_of_size_le k _ c' hout)
    · exact congrArg Context.deadline (context_updateContext_of_ne k _ hcc)

theorem ancestors_setDeadline (k : Kernel) (c c' : ContextId) (d : Nat) :
    ((k.setDeadline c d).context c').ancestors = (k.context c').ancestors :=
  context_updateContext_of_eq k c c' fun _ => rfl

theorem size_setDeadline (k : Kernel) (c : ContextId) (d : Nat) :
    (k.setDeadline c d).contexts.size = k.contexts.size := by
  simp [setDeadline, updateContext]

/-- A limit that is lifted again leaves nothing behind. -/
theorem Passes.lift {nanos : Nat} (h : (k.constrain c nanos).Passes k') :
    k.Passes (k'.setDeadline c (k.context c).deadline) := by
  have hsize := h.size
  rw [constrain, size_setDeadline] at hsize
  refine ⟨h.clock, ?_, fun c' => ?_, fun c' hc' => ?_⟩
  · rwa [size_setDeadline]
  · have hown := h.deadline c'
    rw [constrain, deadline_setDeadline] at hown
    rw [deadline_setDeadline]
    by_cases hcc : c = c'
    · subst hcc
      by_cases hc : c.index < k'.contexts.size
      · rw [if_pos ⟨rfl, hc⟩]
      · rw [if_neg fun h => hc h.2, hown, if_neg fun h => hc (Nat.lt_of_lt_of_le h.2 hsize)]
    · rw [if_neg fun h => hcc h.1, hown, if_neg fun h => hcc h.1]
  · rw [ancestors_setDeadline, h.ancestors c' (by rwa [constrain, size_setDeadline]), constrain,
      ancestors_setDeadline]

/-! ## what evaluation does meanwhile -/

theorem enduring_passes : Enduring Kernel.Passes where
  refl := .refl
  trans := .trans
  minor h := h.passes
  stamp c t _ := passes_stamp _ c t _
  spawnChild := passes_spawnChild
  enter k c := k.passes_updateContext c (fun _ => rfl) fun _ => rfl
  leave k c := k.passes_updateContext c (fun _ => rfl) fun _ => rfl
  putRules _ _ _ := .of_eq rfl rfl
  limit k c := by
    have hset := fun reported => k.passes_updateContext c
      (f := fun x => { x with limitReported := reported }) (fun _ => rfl) fun _ => rfl
    exact ⟨fun _ => (hset true).trans (.of_eq rfl rfl), hset false⟩
  lifts h := h.lift

/-- An evaluation lets time pass and keeps deadlines, with native code of any kind. -/
theorem passes_evaluateWith (k : Kernel) (fuel : Nat) (c : ContextId) (t : Term) :
    k.Passes ((evaluateWith fuel c t).run k).2 :=
  enduring_passes.evaluateWith k fuel c t

/-! ## nested calls -/

/-- The kernels inside nested calls that set time limits, from a first kernel on; the context and
the limit of each call, the innermost first.  Between calls, and where calls have returned, time
passes. -/
inductive Enclosed (k₀ : Kernel) : List (ContextId × Nat) → Kernel → Prop
  /-- Outside all calls. -/
  | start : Enclosed k₀ [] k₀
  /-- Later. -/
  | later {calls : List (ContextId × Nat)} {k k' : Kernel} :
      Enclosed k₀ calls k → k.Passes k' → Enclosed k₀ calls k'
  /-- Inside one call more. -/
  | call {calls : List (ContextId × Nat)} {k : Kernel} {c : ContextId} (nanos : Nat) :
      Enclosed k₀ calls k → c.index < k.contexts.size →
        Enclosed k₀ ((c, k.expiry nanos) :: calls) (k.constrain c nanos)

/-- The limits that a context is under: those of the calls, on it or on a context it was spawned
from, and the deadlines these had in the first kernel. -/
def limits (k₀ : Kernel) (calls : List (ContextId × Nat)) (k : Kernel) (c : ContextId) : Set Nat :=
  {d | d = noDeadline ∨ ∃ owner ∈ k.line c, d = (k₀.context owner).deadline ∨ (owner, d) ∈ calls}

/-- What stands in a context is the earliest limit that was set in it. -/
theorem Enclosed.isLeast_own (hk : k₀.Enclosed calls k) (c : ContextId) :
    IsLeast {d | d = (k₀.context c).deadline ∨ (c, d) ∈ calls} (k.context c).deadline := by
  induction hk with
  | start => exact ⟨.inl rfl, fun d hd => by simpa using Nat.le_of_eq (hd.resolve_right nofun).symm⟩
  | later _ hpasses ih =>
      rw [hpasses.deadline]
      exact ih
  | @call calls k owner nanos _ howner ih =>
      rw [constrain, deadline_setDeadline]
      obtain ⟨hmem, hleast⟩ := ih
      split
      next h =>
        obtain ⟨rfl, -⟩ := h
        refine ⟨?_, ?_⟩
        · rcases Nat.le_total (k.context owner).deadline (k.expiry nanos) with hle | hle
          · rw [Nat.min_eq_left hle]
            exact hmem.imp_right (List.mem_cons_of_mem _)
          · rw [Nat.min_eq_right hle]
            exact .inr List.mem_cons_self
        · rintro d (hd | hd)
          · exact Nat.le_trans (Nat.min_le_left _ _) (hleast (.inl hd))
          · rcases List.mem_cons.mp hd with hd | hd
            · rw [(Prod.mk.inj hd).2]
              exact Nat.min_le_right _ _
            · exact Nat.le_trans (Nat.min_le_left _ _) (hleast (.inr hd))
      next h =>
        have hother : ∀ d, (c, d) ∈ (owner, k.expiry nanos) :: calls ↔ (c, d) ∈ calls := fun d => by
          rw [List.mem_cons, or_iff_right]
          exact fun hd => h ⟨(Prod.mk.inj hd).1.symm, howner⟩
        simp only [hother]
        exact ⟨hmem, hleast⟩

theorem isLeast_foldl_min (d : Nat) (ds : List Nat) :
    IsLeast {x | x = d ∨ x ∈ ds} (ds.foldl min d) := by
  induction ds generalizing d with
  | nil => exact ⟨.inl rfl, fun x hx => Nat.le_of_eq (hx.resolve_right nofun).symm⟩
  | cons e ds ih =>
      obtain ⟨hmem, hleast⟩ := ih (min d e)
      refine ⟨?_, ?_⟩
      · rcases hmem with hmem | hmem
        · rw [List.foldl_cons, hmem]
          rcases Nat.le_total d e with hle | hle
          · exact .inl (Nat.min_eq_left hle)
          · exact .inr (by rw [Nat.min_eq_right hle]; exact List.mem_cons_self)
        · exact .inr (List.mem_cons_of_mem _ hmem)
      · rintro x (rfl | hx)
        · exact Nat.le_trans (hleast (.inl rfl)) (Nat.min_le_left _ _)
        · rcases List.mem_cons.mp hx with rfl | hx
          · exact Nat.le_trans (hleast (.inl rfl)) (Nat.min_le_right _ _)
          · exact hleast (.inr hx)

theorem deadline_eq_foldl (k : Kernel) (c : ContextId) :
    k.deadline c = ((k.line c).map fun owner => (k.context owner).deadline).foldl min
      noDeadline := by
  rw [deadline, chain, line, List.foldl_map, List.foldl_cons, List.foldl_cons, List.foldl_map]

/-- The deadline in force is the earliest of all limits around. -/
theorem Enclosed.isLeast_deadline (hk : k₀.Enclosed calls k) (c : ContextId) :
    IsLeast (limits k₀ calls k c) (k.deadline c) := by
  obtain ⟨hmem, hleast⟩ := isLeast_foldl_min noDeadline
    ((k.line c).map fun owner => (k.context owner).deadline)
  rw [← deadline_eq_foldl] at hmem hleast
  refine ⟨hmem.imp_right fun h => ?_, ?_⟩
  · obtain ⟨owner, howner, heq⟩ := List.mem_map.mp h
    rw [← heq]
    exact ⟨owner, howner, (hk.isLeast_own owner).1⟩
  · rintro d (rfl | ⟨owner, howner, hd⟩)
    · exact hleast (.inl rfl)
    · exact Nat.le_trans (hleast (.inr (List.mem_map.mpr ⟨owner, howner, rfl⟩)))
        ((hk.isLeast_own owner).2 hd)

/-! ## what a call reports -/

theorem Passes.deadline_eq (h : k.Passes k') (hc : c.index < k.contexts.size) :
    k'.deadline c = k.deadline c := by
  have hown : ∀ owner, (k'.context owner).deadline = (k.context owner).deadline := h.deadline
  rw [deadline_eq_foldl, deadline_eq_foldl, line, line, h.ancestors c hc]
  simp only [hown]

/-- A deadline that has passed stays so. -/
theorem Passes.isLate (h : k.Passes k') {d : Nat} (hd : k.isLate d = true) :
    k'.isLate d = true := by
  have hclock := h.clock
  simp only [Kernel.isLate, Bool.and_eq_true, decide_eq_true_eq] at hd ⊢
  exact ⟨hd.1, Nat.le_trans hd.2 hclock⟩

/-- A look at the clock lets time pass, and fails by what has passed then. -/
theorem run_checkAbort_eq (k : Kernel) (c : ContextId) :
    (checkAbort c).run k =
      (if (k.elapse lookTime).aborting ||
          (k.elapse lookTime).isLate ((k.elapse lookTime).deadline c) then .error .aborted
        else .ok ⟨⟩, k.elapse lookTime) := by
  have hend : ∀ (late : Bool) (k' : Kernel),
      (if late then throw .aborted else pure ⟨⟩ : EvalM PUnit).run k' =
        (if late then .error .aborted else .ok ⟨⟩, k') := fun late k' => by
    cases late <;> rfl
  exact hend _ _

theorem passes_checkAbort (k : Kernel) (c : ContextId) :
    k.Passes ((checkAbort c).run k).2 := by
  rw [run_checkAbort_eq]
  exact (k.minor_elapse lookTime).passes

theorem run_checkAbort_of_late
    (h : (k.elapse lookTime).isLate ((k.elapse lookTime).deadline c) = true) :
    (checkAbort c).run k = (.error .aborted, k.elapse lookTime) := by
  rw [run_checkAbort_eq, if_pos (Bool.or_eq_true_iff.mpr (.inr h))]

theorem run_checkAbort_eq_error_iff : ((checkAbort c).run k).1 = .error .aborted ↔
    (k.elapse lookTime).aborting = true ∨
      (k.elapse lookTime).isLate ((k.elapse lookTime).deadline c) = true := by
  rw [run_checkAbort_eq, ← Bool.or_eq_true]
  split
  next h => exact ⟨fun _ => h, fun _ => rfl⟩
  next h => exact ⟨nofun, fun h' => absurd h' h⟩

/-- Where a deadline has passed the next look fails. -/
theorem run_checkAbort_of_isLate (h : k.isLate (k.deadline c) = true) :
    ((checkAbort c).run k).1 = .error .aborted :=
  run_checkAbort_eq_error_iff.mpr (.inr ((k.minor_elapse lookTime).passes.isLate h))

end Kernel

namespace EvalM

variable {α : Type} {k : Kernel} {expiry : Nat} {result : Except EvalError α}

/-- Time is up if the body was aborted, by no one's request, when the limit had run out. -/
theorem inTime_eq_none_iff : inTime k expiry result = .ok none ↔
    result = .error .aborted ∧ k.aborting = false ∧ expiry ≤ k.clock := by
  cases result with
  | ok value => simp [inTime]
  | error e =>
      cases e with
      | aborted =>
          dsimp only [inTime]
          split
          next h => simpa using h
          next h => simpa using h
      | _ => simp [inTime]

/-- An abort is passed on if it was requested, or the limit had not run out. -/
theorem inTime_aborted_iff : inTime k expiry (.error .aborted : Except EvalError α) =
    .error .aborted ↔ k.aborting = true ∨ k.clock < expiry := by
  dsimp only [inTime]
  split
  next h => simpa using h
  next h => simpa [Decidable.or_iff_not_imp_left] using h

end EvalM

namespace Kernel

variable {k₀ k : Kernel} {c : ContextId} {calls : List (ContextId × Nat)}

/-- A call that sets a time limit inside any others, whatever its body does that lets time pass.
While the body runs, the deadline in force is the earliest of all limits around; afterwards all
deadlines are what they were.  It is the limit of this call alone that decides whether it reports
that time is up; where the body was aborted and this limit has not run out, or an abort was
requested, it is aborted itself.  And where a limit around it has run out as well, every later look
at the clock fails. -/
theorem Enclosed.timeConstrained_reports {α : Type} (hk : k₀.Enclosed calls k)
    (hc : c.index < k.contexts.size) (nanos : Nat) (x : EvalM α)
    (hx : (k.constrain c nanos).Passes (x.run (k.constrain c nanos)).2) :
    let own := k.expiry nanos
    let ended := x.run (k.constrain c nanos)
    let call := (timeConstrained c nanos x).run k
    (∀ k', (k.constrain c nanos).Passes k' →
      ∀ c', IsLeast (limits k₀ ((c, own) :: calls) k' c') (k'.deadline c')) ∧
    k.Passes call.2 ∧
    (call.1 = .ok none ↔
      ended.1 = .error .aborted ∧ ended.2.aborting = false ∧ own ≤ ended.2.clock) ∧
    (ended.1 = .error .aborted →
      (call.1 = .error .aborted ↔ ended.2.aborting = true ∨ ended.2.clock < own)) ∧
    (ended.2.isLate (k.deadline c) = true →
      ∀ k', call.2.Passes k' → ((checkAbort c).run k').1 = .error .aborted) := by
  intro own ended call
  have hcall : call = (EvalM.inTime ended.2 own ended.1,
      ended.2.setDeadline c (k.context c).deadline) := EvalM.run_timeConstrained c nanos x k
  have hpasses : k.Passes call.2 := by
    rw [hcall]
    exact hx.lift
  refine ⟨fun k' hk' c' => ((hk.call nanos hc).later hk').isLeast_deadline c', hpasses, ?_,
    fun haborted => ?_, fun hlate k' hk' => ?_⟩
  · rw [hcall]
    exact EvalM.inTime_eq_none_iff
  · rw [hcall, haborted]
    exact EvalM.inTime_aborted_iff
  · have hlater : call.2.isLate (k.deadline c) = true := by
      rw [hcall]
      exact hlate
    refine run_checkAbort_of_isLate ?_
    rw [(hpasses.trans hk').deadline_eq hc]
    exact hk'.isLate hlater

/-- The kernel with one context, inside a call with a time limit. -/
def limitedKernel (nanos : Nat) : Kernel := (new {}).newRoot.2.constrain ⟨0⟩ nanos

theorem enclosed_limitedKernel (nanos : Nat) : (new {}).newRoot.2.Enclosed
    [(⟨0⟩, (new {}).newRoot.2.expiry nanos)] (limitedKernel nanos) :=
  .call nanos .start (by decide)

/-- A limit of 200 nanoseconds within one of 5000. -/
theorem timeConstrained_reports_inner :
    let k := limitedKernel 5000
    let call := (timeConstrained ⟨0⟩ 200 (checkAbort ⟨0⟩)).run k
    (new {}).newRoot.2.Enclosed [(⟨0⟩, (new {}).newRoot.2.expiry 5000)] k ∧ k.Passes call.2 ∧
      call.1 = .ok none := by
  intro k call
  have hk := enclosed_limitedKernel 5000
  have hc : (⟨0⟩ : ContextId).index < k.contexts.size := by decide
  have hended : (checkAbort ⟨0⟩).run (k.constrain ⟨0⟩ 200) =
      (.error .aborted, (k.constrain ⟨0⟩ 200).elapse lookTime) :=
    run_checkAbort_of_late (by decide +kernel)
  have hexpired : k.expiry 200 ≤ ((k.constrain ⟨0⟩ 200).elapse lookTime).clock := by
    decide +kernel
  obtain ⟨-, hpasses, htime, -⟩ := hk.timeConstrained_reports hc 200 (checkAbort ⟨0⟩)
    (passes_checkAbort _ _)
  rw [hended] at htime
  exact ⟨hk, hpasses, htime.mpr ⟨rfl, rfl, hexpired⟩⟩

/-- A limit of 200 nanoseconds within one of 500, and a body that ends when both have run out: the
inner call reports that time is up, though it was for the outer one to say. -/
theorem timeConstrained_misreports :
    let k := limitedKernel 500
    let ended := (checkAbort ⟨0⟩).run (k.constrain ⟨0⟩ 200)
    let call := (timeConstrained ⟨0⟩ 200 (checkAbort ⟨0⟩)).run k
    (new {}).newRoot.2.Enclosed [(⟨0⟩, (new {}).newRoot.2.expiry 500)] k ∧
      ended.1 = .error .aborted ∧ ended.2.isLate (k.deadline ⟨0⟩) = true ∧
      call.1 ≠ .error .aborted ∧ call.1 = .ok none := by
  intro k ended call
  have hended : ended = (.error .aborted, (k.constrain ⟨0⟩ 200).elapse lookTime) :=
    run_checkAbort_of_late (by decide +kernel)
  have hexpired : k.expiry 200 ≤ ((k.constrain ⟨0⟩ 200).elapse lookTime).clock := by
    decide +kernel
  have hlate : ((k.constrain ⟨0⟩ 200).elapse lookTime).isLate (k.deadline ⟨0⟩) = true := by
    decide +kernel
  have hcall : call = (EvalM.inTime ended.2 (k.expiry 200) ended.1,
      ended.2.setDeadline ⟨0⟩ (k.context ⟨0⟩).deadline) := EvalM.run_timeConstrained _ _ _ k
  have htime : call.1 = .ok none := by
    rw [hcall, hended, EvalM.inTime_eq_none_iff]
    exact ⟨rfl, rfl, hexpired⟩
  refine ⟨enclosed_limitedKernel 500, ?_, ?_, ?_, htime⟩
  · rw [hended]
  · rw [hended]
    exact hlate
  · rw [htime]
    exact nofun

end Kernel

end Termwise
