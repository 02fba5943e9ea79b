import Mathlib.Data.List.TakeWhile
import Termwise.Proofs.Eval.Match
import Termwise.Proofs.Pattern.Fits
import Termwise.Proofs.Rule.Dispatch

/-!
# Termwise.Proofs.Rule.Partial

What a rule rewrites when it applies to a part of a call of a flat head
(`Evaluator.rewriteWith_part`): a stretch of the arguments, or, for an orderless head,
any of them, that the left-hand side matches as a call of their own; the instantiated
right-hand side takes their place, and all other arguments are kept in order.  Nothing is
assumed of what tests, exceptions and defaults come out as, nor that symbols keep their
attributes.

The part is empty only if the left-hand side matches the call without arguments.  It then
comes first in every subject, and the rule applies to all subjects with arguments: a result
is put before the arguments, or, for an orderless head, the subject comes back as it
is, without the result (`part_of_empty_run`).
-/

namespace Termwise

/-! ## a result in the place of arguments -/

section Lists

variable {α : Type} {n : Nat} {xs taken left : List α} {p : α → Bool}

/-- A choice of what fails a test leaves what passes it. -/
theorem filter_of_mem_choices (h : (taken, left) ∈ choices n xs)
    (htaken : ∀ x ∈ taken, p x = false) (hleft : ∀ x ∈ left, p x = true) : xs.filter p = left := by
  induction xs generalizing n taken left with
  | nil =>
      cases n with
      | zero =>
          obtain ⟨rfl, rfl⟩ := mem_choices_zero.mp h
          rfl
      | succ n => cases h
  | cons x xs ih =>
      cases n with
      | zero =>
          obtain ⟨rfl, rfl⟩ := mem_choices_zero.mp h
          exact List.filter_eq_self.mpr hleft
      | succ n =>
          obtain ⟨more, rfl, hmore⟩ | ⟨more, rfl, hmore⟩ := mem_choices_cons.mp h
          · rw [List.forall_mem_cons] at htaken
            rw [List.filter_cons_of_neg (by simp [htaken.1]), ih hmore htaken.2 hleft]
          · rw [List.forall_mem_cons] at hleft
            rw [List.filter_cons_of_pos hleft.1, ih hmore htaken hleft.2]

/-- A list around the first item of a choice. -/
theorem exists_first_of_mem_choices {x : α} (h : (x :: taken, left) ∈ choices n xs) :
    ∃ before rest after, xs = before ++ x :: rest ∧ left = before ++ after ∧
      (taken, after) ∈ choices taken.length rest := by
  induction xs generalizing left with
  | nil => cases n <;> simp [choices] at h
  | cons y ys ih =>
      cases n with
      | zero => cases (mem_choices_zero.mp h).1
      | succ n =>
          obtain ⟨more, hcons, hmore⟩ | ⟨more, rfl, hmore⟩ := mem_choices_cons.mp h
          · obtain ⟨rfl, rfl⟩ := List.cons.inj hcons
            rw [← (mem_choices hmore).1] at hmore
            exact ⟨[], ys, left, rfl, rfl, hmore⟩
          · obtain ⟨before, rest, after, rfl, rfl, hafter⟩ := ih hmore
            exact ⟨y :: before, rest, after, rfl, rfl, hafter⟩

end Lists

namespace Rule

/-- A call with a result in the place of arguments, or the result alone where no others are left. -/
def inPlace (head : Term) (before : List Term) (result : Term) (after : List Term) : Term :=
  if before.isEmpty && after.isEmpty then result else .call head (before ++ result :: after)

theorem spliceRange_eq_inPlace (head : Term) (before run after : List Term) (result : Term) :
    spliceRange head (before ++ (run ++ after)) before.length after.length result =
      inPlace head before result after := by
  have hdrop : (before ++ (run ++ after)).drop ((before ++ (run ++ after)).length - after.length) =
      after := by
    rw [← List.append_assoc, List.length_append, Nat.add_sub_cancel, List.drop_left]
  rw [spliceRange, inPlace, List.take_left, hdrop]
  cases before <;> cases after <;> rfl

/-- The first argument that is not free has the result in its place. -/
theorem spliceFree_eq_inPlace {args : List Term} {x : Term × Nat} {taken left : List (Term × Nat)}
    (head result : Term) (h : (x :: taken, left) ∈ choices (x :: taken).length args.zipIdx) :
    ∃ before rest after, args = before ++ x.1 :: rest ∧
      (taken.map (·.1), after) ∈ choices taken.length rest ∧
      spliceFree head args (left.map (·.2)) result = inPlace head before result after := by
  obtain ⟨before, rest, after, hargs, hleft, hafter⟩ := exists_first_of_mem_choices h
  -- a position is that of a free argument exactly if its argument is free
  have hnodup : ((x :: taken ++ left).map (·.2)).Nodup := by
    rw [((mem_choices h).2.map _).nodup_iff, List.zipIdx_map_snd]
    exact List.nodup_range' 1
  rw [List.map_append, List.nodup_append] at hnodup
  have hfree : ∀ a ∈ left, (left.map (·.2)).contains a.2 = true := fun a ha => by
    rw [List.contains_iff_mem]
    exact List.mem_map_of_mem ha
  have htaken : ∀ a ∈ x :: taken, (left.map (·.2)).contains a.2 = false := fun a ha => by
    rw [Bool.eq_false_iff, ne_eq, List.contains_iff_mem]
    exact fun hmem => hnodup.2.2 _ (List.mem_map_of_mem ha) _ hmem rfl
  have hfree' := hfree
  rw [hleft, List.forall_mem_append, ← hleft] at hfree'
  rw [List.forall_mem_cons] at htaken
  have hbefore : args.zipIdx.takeWhile (fun a => (left.map (·.2)).contains a.2) = before := by
    rw [hargs, List.takeWhile_append_of_pos hfree'.1, List.takeWhile_cons,
      if_neg (Bool.eq_false_iff.mp htaken.1), List.append_nil]
  have hrest : (args.zipIdx.drop before.length).filter (fun a => (left.map (·.2)).contains a.2) =
      after := by
    rw [hargs, List.drop_left, List.filter_cons, if_neg (Bool.eq_false_iff.mp htaken.1),
      filter_of_mem_choices hafter htaken.2 hfree'.2]
  have hsplit : args = before.map (·.1) ++ x.1 :: rest.map (·.1) := by
    have hmap := congrArg (List.map (·.1)) hargs
    rwa [List.zipIdx_map_fst, List.map_append, List.map_cons] at hmap
  refine ⟨before.map (·.1), rest.map (·.1), after.map (·.1), hsplit, ?_, ?_⟩
  · simpa using mem_choices_map (·.1) hafter
  · have hlength : before.length < args.length := by
      have hlen := congrArg List.length hsplit
      simp only [List.length_append, List.length_map, List.length_cons] at hlen
      omega
    rw [spliceFree, inPlace]
    simp only [hbefore, hrest, if_pos hlength]
    rw [hleft]
    cases before <;> cases after <;> simp

/-- With all arguments free, the result is lost. -/
theorem spliceFree_all {args : List Term} (head result : Term) (hargs : args ≠ []) :
    spliceFree head args (args.zipIdx.map (·.2)) result = .call head args := by
  have hnone : (args.zipIdx.map (·.2)).isEmpty = false := by simpa using hargs
  have hfree : ∀ a ∈ args.zipIdx, (args.zipIdx.map (·.2)).contains a.2 = true := fun a ha => by
    rw [List.contains_iff_mem]
    exact List.mem_map_of_mem ha
  have hall : args.zipIdx.takeWhile (fun a => (args.zipIdx.map (·.2)).contains a.2) =
      args.zipIdx := List.takeWhile_eq_self_iff.mpr hfree
  rw [spliceFree, hnone]
  simp only [hall, List.drop_length]
  simp

/-! ## instantiated right-hand sides -/

/-- A term with its names filled in; a run that is left over at the top becomes a sequence. -/
def filled (body : Term) (b : Bindings) : Term :=
  let value := body.substitute b
  if value.isMarker then .app .sequence value.args else value

/-- Whether a right-hand side may become a result under the bindings of a match; one that carries a
test does so if the test may hold. -/
def Instantiates (w : Outcomes) (rhs : Term) (b : Bindings) (result : Term) : Prop :=
  match rhs with
  | .node _ (.symbol s) [body, test] =>
    if s = .condition then w.holds (test.substitute b) ∧ result = filled body b
    else result = filled rhs b
  | _ => result = filled rhs b

variable {m : Type → Type} [Monad m] {env : Surroundings m} {o : Observation m} {w : Outcomes}

theorem yields_instantiate (hw : env.Meets o w) (rhs : Term) (b : Bindings) :
    o.Yields (instantiate env rhs b) (Instantiates w rhs b) := by
  unfold instantiate
  dsimp only
  split
  · rename_i i s body test
    split
    · rename_i hs
      have htest : o.Gives (Pattern.holds env b test) fun v =>
          v = true → w.holds (test.substitute b) :=
        o.gives_bind (hw.evaluate _) fun v hv => o.gives_pure hv
      refine o.gives_bind htest fun v hv => ?_
      cases v with
      | false => exact Observation.yields_none
      | true =>
          refine Observation.yields_some ?_
          simp only [Instantiates, if_pos hs]
          exact ⟨hv rfl, rfl⟩
    · rename_i hs
      refine Observation.yields_some ?_
      simp only [Instantiates, if_neg hs]
      rfl
  · rename_i hother
    refine Observation.yields_some ?_
    unfold Instantiates
    split
    · exact absurd rfl (hother _ _ _ _)
    · rfl

/-! ## parts of calls -/

/-- What a rule may make of a call of a flat head when it applies to a part of it. -/
inductive Part (w : Outcomes) (lhs rhs : Term) (f : Symbol) (args : List Term) : Term → Prop
  /-- A stretch of the arguments, as a call of its own, is matched; the result takes its place. -/
  | stretch {attrs : Symbol → Attributes} {before run after : List Term} {b : Bindings}
      {result : Term} : w.attributes attrs → (attrs f).has .flat = true →
      (attrs f).has .orderless = false → args = before ++ (run ++ after) →
      (Pattern.ofTerm lhs).Fits w (.call (.symbol f) run) .empty b →
      Instantiates w rhs b result → Part w lhs rhs f args (inPlace (.symbol f) before result after)
  /-- Some arguments of an orderless head, as a call of their own, are matched; the result takes the
  place of the first one. -/
  | choice {attrs : Symbol → Attributes} {before rest taken after : List Term} {x : Term}
      {b : Bindings} {result : Term} : w.attributes attrs → (attrs f).has .flat = true →
      (attrs f).has .orderless = true → args = before ++ x :: rest →
      (taken, after) ∈ choices taken.length rest →
      (Pattern.ofTerm lhs).Fits w (.call (.symbol f) (x :: taken)) .empty b →
      Instantiates w rhs b result → Part w lhs rhs f args (inPlace (.symbol f) before result after)
  /-- The call of an orderless head without arguments is matched; the result is lost. -/
  | nothing {attrs : Symbol → Attributes} {b : Bindings} {result : Term} : w.attributes attrs →
      (attrs f).has .flat = true → (attrs f).has .orderless = true →
      (Pattern.ofTerm lhs).Fits w (.call (.symbol f) []) .empty b →
      Instantiates w rhs b result → Part w lhs rhs f args (.call (.symbol f) args)

/-- A part of a call is matched by what is matched inside the wrapper, if any. -/
theorem fits_of_unheld {p q : Pattern} {t : Term} {b b' : Bindings} (hp : p.unheld = q)
    (h : q.Fits w t b b') : p.Fits w t b b' := by
  cases p <;> cases hp <;> exact h

/-- A call of a flat head is matched when its head and its arguments are. -/
theorem fits_call_of_flat {attrs : Symbol → Attributes} {whole : Term} {head : Pattern}
    {slots : List Pattern} {f : Symbol} {run : List Term} {b b₁ b' : Bindings}
    (hattrs : w.attributes attrs) (hflat : (attrs f).has .flat = true)
    (hopen : whole.isLiteral attrs = false) (hhead : head.Fits w (.symbol f) b b₁)
    (hslots : if (attrs f).has .orderless
      then Pattern.FitsAnywhere w slots (some (.symbol f)) run b₁ b'
      else Pattern.FitsSlots w slots (some (.symbol f)) run b₁ b') :
    (Pattern.call whole head slots).Fits w (.call (.symbol f) run) b b' := by
  refine ⟨_, rfl, .inr ⟨attrs, hattrs, hopen, 0, .symbol f, run, b₁, rfl,
    hhead, attrs, hattrs, ?_⟩⟩
  change if (attrs f).has .orderless
    then Pattern.FitsAnywhere w slots (if (attrs f).has .flat then _ else _) run b₁ b'
    else Pattern.FitsSlots w slots (if (attrs f).has .flat then _ else _) run b₁ b'
  rwa [if_pos hflat]

/-- The call that a pattern reads as is a call of terms. -/
theorem eq_node_of_unheld {lhs whole : Term} {head : Pattern} {slots : List Pattern}
    (h : (Pattern.ofTerm lhs).unheld = .call whole head slots) : ∃ i g xs, whole = .node i g xs := by
  have hread := Pattern.every_ofTerm (r := fun _ => True)
    (fun _ _ _ _ => ⟨trivial, fun _ _ => trivial⟩) lhs trivial
  have hcall : ∃ s, Pattern.ofTerm s = .call whole head slots := by
    cases hp : Pattern.ofTerm lhs with
    | hold p =>
        rw [hp] at h hread
        obtain ⟨s, -, hs⟩ := hread.2.here
        exact ⟨s, hs.symm.trans h⟩
    | _ => exact ⟨lhs, by rw [hp] at h ⊢; exact h⟩
  obtain ⟨s, hs⟩ := hcall
  obtain ⟨rfl, i, g, xs, rfl, -, -⟩ := Pattern.eq_of_ofTerm_eq_call hs
  exact ⟨i, g, xs, rfl⟩

theorem yields_applyInside (hw : env.Meets o w) {attrs : Symbol → Attributes} {lhs rhs whole : Term}
    {head : Pattern} {slots : List Pattern} {f : Symbol} {args : List Term}
    (hattrs : w.attributes attrs) (hflat : (attrs f).has .flat = true)
    (hlhs : (Pattern.ofTerm lhs).unheld = .call whole head slots)
    (hwhole : (whole.key == .symbol f) = true) (hargs : args ≠ []) :
    o.Yields (applyInside env head slots rhs ((attrs f).has .orderless) (.symbol f) args)
      (Part w lhs rhs f args) := by
  have hopen : whole.isLiteral attrs = false := by
    obtain ⟨i, g, xs, rfl⟩ := eq_node_of_unheld hlhs
    exact Term.isLiteral_node_of_flat hwhole hflat
  have hfits : ∀ {run : List Term} {b₁ b : Bindings}, head.Fits w (.symbol f) .empty b₁ →
      (if (attrs f).has .orderless
        then Pattern.FitsAnywhere w slots (some (.symbol f)) run b₁ b
        else Pattern.FitsSlots w slots (some (.symbol f)) run b₁ b) →
      (Pattern.ofTerm lhs).Fits w (.call (.symbol f) run) .empty b := fun hhead hslots =>
    fits_of_unheld hlhs (fits_call_of_flat hattrs hflat hopen hhead hslots)
  unfold applyInside
  cases horderless : (attrs f).has .orderless with
  | true =>
      rw [horderless] at hfits
      refine Pattern.sound_search hw head fun b₁ hb₁ => ?_
      refine Pattern.sound_searchAnywhere hw slots fun b used left hused hb => ?_
      refine o.gives_bind (yields_instantiate hw rhs b) fun r hr => ?_
      cases r with
      | none => exact Observation.yields_none
      | some result =>
          refine Observation.yields_some ?_
          cases used with
          | nil =>
              obtain ⟨-, rfl⟩ := mem_choices_zero.mp hused
              rw [spliceFree_all _ _ hargs]
              exact .nothing hattrs hflat horderless (hfits hb₁ hb) (hr result rfl)
          | cons x taken =>
              obtain ⟨before, rest, after, rfl, hafter, hplace⟩ :=
                spliceFree_eq_inPlace (.symbol f) result hused
              rw [hplace]
              rw [← List.length_map (f := (·.1))] at hafter
              exact .choice hattrs hflat horderless rfl hafter (hfits hb₁ hb) (hr result rfl)
  | false =>
      rw [horderless] at hfits
      refine Observation.yields_findSomeM? fun start hstart => ?_
      refine Pattern.sound_search hw head fun b₁ hb₁ => ?_
      refine Pattern.sound_searchSlots hw slots fun b run after hsplit hb => ?_
      refine o.gives_bind (yields_instantiate hw rhs b) fun r hr => ?_
      cases r with
      | none => exact Observation.yields_none
      | some result =>
          refine Observation.yields_some ?_
          have hlen : (args.take start).length = start :=
            List.length_take_of_le (Nat.le_of_lt (List.mem_range.mp hstart))
          have hsplice : args = args.take start ++ (run ++ after) := by
            rw [← hsplit, List.take_append_drop]
          have hplace := spliceRange_eq_inPlace (.symbol f) (args.take start) run after result
          rw [← hsplice, hlen] at hplace
          rw [hplace]
          exact .stretch hattrs hflat horderless hsplice (hfits hb₁ hb) (hr result rfl)

end Rule

/-! ## what a search meets in a kernel -/

namespace Evaluator

/-- The kernels that a search in a context can make of a kernel: time passes, nodes are named, terms
are evaluated and defaults are looked up. -/
inductive Leads (r : Evaluator) (c : ContextId) (k : Kernel) : Kernel → Prop
  | refl : Leads r c k k
  | elapse {k' : Kernel} (n : Nat) : Leads r c k k' → Leads r c k (k'.elapse n)
  | share {k' : Kernel} (t : Term) : Leads r c k k' → Leads r c k (k'.share t).2
  | evaluate {k' k'' : Kernel} {t v : Term} : Leads r c k k' →
      (r.evaluate c t).run k' = (.ok v, k'') → Leads r c k k''
  | default? {k' k'' : Kernel} {slot : Slot} {d : Option Term} : Leads r c k k' →
      (r.default? c slot).run k' = (.ok d, k'') → Leads r c k k''

/-- What a search in a context can meet from a kernel on. -/
def outcomesFrom (r : Evaluator) (c : ContextId) (k : Kernel) : Outcomes where
  attributes attrs := ∃ k', r.Leads c k k' ∧ k'.attributes = attrs
  holds t := ∃ k' v k'', r.Leads c k k' ∧ (r.evaluate c t).run k' = (.ok v, k'') ∧
    v.isSymbol .isTrue = true
  default d := ∃ slot k' k'', r.Leads c k k' ∧ (r.default? c slot).run k' = (.ok (some d), k'')
  misses p t b := ∃ s k' s' k'', r.Leads c k k' ∧
    ((p.search (r.surroundings c) Unit t b fun _ => pure (some ())).run s).run k' =
      (.ok (none, s'), k'')

variable {r : Evaluator} {c : ContextId} {k : Kernel}

theorem leads_tick : (SearchM.whenDone (r.Leads c k)).Gives (r.surroundings c).tick
    fun _ => True := by
  intro s k' a s' k'' hk hrun
  by_cases hpoll : (s.steps + 1) % max 1 k'.config.pollInterval = 0
  · obtain ⟨hcheck, -⟩ := SearchM.run_lift_eq_ok ((run_tick_poll hpoll).symm.trans hrun)
    have hk'' : k'' = k'.elapse Kernel.lookTime := by rw [← kernel_run_checkAbort k' c, hcheck]
    exact ⟨hk'' ▸ hk.elapse _, trivial⟩
  · cases (run_tick_skip hpoll).symm.trans hrun
    exact ⟨hk, trivial⟩

/-- A search meets its outcomes. -/
theorem meets_outcomes (r : Evaluator) (c : ContextId) (k : Kernel) :
    (r.surroundings c).Meets (SearchM.whenDone (r.Leads c k)) (r.outcomesFrom c k) := by
  have hattributes : (SearchM.whenDone (r.Leads c k)).Gives (r.surroundings c).attributes
      (r.outcomesFrom c k).attributes := by
    intro s k' a s' k'' hk hrun
    cases hrun
    exact ⟨hk, k', hk, rfl⟩
  have hshare : ∀ t, (SearchM.whenDone (r.Leads c k)).Gives ((r.surroundings c).share t)
      fun s => s.strip = t.strip := by
    intro t s k' a s' k'' hk hrun
    cases hrun
    exact ⟨hk.share t, Term.strip_share t _⟩
  have henter : ∀ slot, (SearchM.whenDone (r.Leads c k)).Gives ((r.surroundings c).enter slot)
      fun _ => True := by
    intro slot s k' a s' k'' hk hrun
    cases hrun
    exact ⟨hk, trivial⟩
  have hevaluate : ∀ t, (SearchM.whenDone (r.Leads c k)).Gives ((r.surroundings c).evaluate t)
      fun v => v.isSymbol .isTrue = true → (r.outcomesFrom c k).holds t := by
    intro t s k' v s' k'' hk hrun
    obtain ⟨hrun, -⟩ := SearchM.run_lift_eq_ok hrun
    exact ⟨hk.evaluate hrun, fun hv => ⟨k', v, k'', hk, hrun, hv⟩⟩
  have hdefault : (SearchM.whenDone (r.Leads c k)).Yields (r.surroundings c).default?
      (r.outcomesFrom c k).default := by
    intro s k' d s' k'' hk hrun
    obtain ⟨steps, slot⟩ := s
    cases slot with
    | none =>
        cases hrun
        exact ⟨hk, fun _ h => by cases h⟩
    | some slot =>
        obtain ⟨hrun, -⟩ := SearchM.run_lift_eq_ok
          (hrun : ((liftM (r.default? c slot) : SearchM (Option Term)).run _).run k' = _)
        exact ⟨hk.default? hrun, fun x hx => ⟨slot, k', k'', hk, hx ▸ hrun⟩⟩
  refine ⟨leads_tick, hattributes, hshare, henter, hevaluate, hdefault, fun p t b hleads => ?_⟩
  intro s k' a s' k'' hk hrun
  exact ⟨(hleads s k' a s' k'' hk hrun).1, fun ha => ⟨s, k', s', k'', hk, ha ▸ hrun⟩⟩

/-- When a rule does not apply to a call as a whole and still rewrites it, it applies to a part of it,
and the result is what `Rule.Part` says. -/
theorem rewriteWith_part {lhs rhs result : Term} {i : Nat} {f : Symbol} {args : List Term}
    {k₁ k' : Kernel}
    (hwhole : (((Pattern.ofTerm lhs).search (r.surroundings c) Term (.node i (.symbol f) args) .empty
      (Rule.instantiate (r.surroundings c) rhs)).run' {}).run k = (.ok none, k₁))
    (hrun : (r.rewriteWith c lhs rhs (.node i (.symbol f) args)).run k = (.ok (some result), k')) :
    args ≠ [] ∧ ∃ part, Rule.Part (r.outcomesFrom c k) lhs rhs f args part ∧
      (result == part) = true := by
  have hw := meets_outcomes r c k
  obtain ⟨s₁, hwhole⟩ := SearchM.run_run'_eq_ok hwhole
  obtain ⟨found, k₂, hsearch, hshare⟩ := EvalM.run_bind_eq_ok hrun
  obtain ⟨s₂, hsearch⟩ := SearchM.run_run'_eq_ok hsearch
  have hk₁ : r.Leads c k k₁ := by
    have hyields := Pattern.sound_search hw (Pattern.ofTerm lhs) (Q := fun _ => True)
      (t := .node i (.symbol f) args) (b := .empty)
      fun b _ => Observation.gives_mono _ (Rule.yields_instantiate hw rhs b) fun _ _ _ _ => trivial
    exact (hyields {} k none s₁ k₁ .refl hwhole).1
  unfold Rule.rewrite at hsearch
  rw [StateT.run_bind, EvalM.run_bind_ok hwhole] at hsearch
  cases found with
  | none => cases hshare
  | some part =>
      dsimp only at hsearch
      cases hunheld : (Pattern.ofTerm lhs).unheld with
      | call whole head slots =>
          rw [hunheld] at hsearch
          have hyields : (SearchM.whenDone (r.Leads c k)).Yields (do
              let attrs := (← (r.surroundings c).attributes) f
              if attrs.has .flat && whole.key == .symbol f && !args.isEmpty then
                Rule.applyInside (r.surroundings c) head slots rhs (attrs.has .orderless) (.symbol f)
                  args
              else return none)
              fun x => args ≠ [] ∧ Rule.Part (r.outcomesFrom c k) lhs rhs f args x := by
            refine Observation.gives_bind _ hw.attributes fun attrs hattrs => ?_
            refine iteInduction (motive := fun x => (SearchM.whenDone (r.Leads c k)).Yields x
              fun x => args ≠ [] ∧ Rule.Part (r.outcomesFrom c k) lhs rhs f args x) (fun h => ?_)
              fun _ => Observation.yields_none
            simp only [Bool.and_eq_true, Bool.not_eq_true', List.isEmpty_eq_false_iff] at h
            obtain ⟨⟨hflat, hwhole⟩, hargs⟩ := h
            exact Observation.gives_mono _
              (Rule.yields_applyInside hw hattrs hflat hunheld hwhole hargs)
              fun _ hx a ha => ⟨hargs, hx a ha⟩
          obtain ⟨-, hpart⟩ := hyields s₁ k₁ (some part) s₂ k₂ hk₁ hsearch
          obtain ⟨hargs, hpart⟩ := hpart part rfl
          cases hshare
          exact ⟨hargs, part, hpart, (Term.beq_iff_strip _ _).mpr (Term.strip_share part _)⟩
      | _ =>
          rw [hunheld] at hsearch
          cases hsearch

/-- With `List` flat, `{1, x_} :> x` rewrites `{0, 1, 2, 3}` in part, to `{0, 2, 3}`. -/
theorem rewriteWith_part_of_list :
    ∃ result k', (still.rewriteWith ⟨0⟩
        (.app .list [.int 1, .app .pattern [.symbol ⟨40, "x"⟩, .app .blank []]])
        (.symbol ⟨40, "x"⟩) (.app .list [.int 0, .int 1, .int 2, .int 3])).run flatListKernel =
          (.ok (some result), k') ∧
      (result == .app .list [.int 0, .int 2, .int 3]) = true ∧
      ∃ part, Rule.Part (still.outcomesFrom ⟨0⟩ flatListKernel)
        (.app .list [.int 1, .app .pattern [.symbol ⟨40, "x"⟩, .app .blank []]])
        (.symbol ⟨40, "x"⟩) .list [.int 0, .int 1, .int 2, .int 3] part ∧
        (result == part) = true := by
  refine ⟨_, _, rfl, rfl, ?_⟩
  exact (rewriteWith_part (r := still) (c := ⟨0⟩) (k := flatListKernel) (i := 0) (f := .list)
    rfl rfl).2

/-- A call of one argument has a result in the place of that argument alone. -/
theorem inPlace_of_singleton {head x result : Term} {before run after : List Term}
    (hargs : [x] = before ++ (run ++ after)) (hrun : run ≠ []) :
    Rule.inPlace head before result after = result := by
  cases before with
  | cons y ys =>
      obtain ⟨-, hnil⟩ := List.cons.inj hargs
      exact absurd (List.append_eq_nil_iff.mp (List.append_eq_nil_iff.mp hnil.symm).2).1 hrun
  | nil =>
      cases run with
      | nil => exact absurd rfl hrun
      | cons y ys =>
          obtain ⟨-, hnil⟩ := List.cons.inj hargs
          obtain ⟨-, rfl⟩ := List.append_eq_nil_iff.mp hnil.symm
          rfl

/-- The kernel after `List` has been made flat and orderless. -/
def flatOrderlessListKernel : Kernel := newKernel.storeAttributes .list (.ofList [.flat, .orderless])

/-- With `List` flat, `{} :> 7` rewrites `{1}` to `{7, 1}`, and with `List` orderless as well, to
`{1}`: in the first result no argument has been consumed, in the second one 7 is lost, and neither
of them is `{1}` with 7 in the place of some arguments. -/
theorem part_of_empty_run :
    (∃ result k₁ k', (((Pattern.ofTerm (.app .list [])).search (still.surroundings ⟨0⟩) Term
          (.app .list [.int 1]) .empty (Rule.instantiate (still.surroundings ⟨0⟩)
          (.int 7))).run' {}).run flatListKernel = (.ok none, k₁) ∧
      (still.rewriteWith ⟨0⟩ (.app .list []) (.int 7) (.app .list [.int 1])).run flatListKernel =
        (.ok (some result), k') ∧ (result == .app .list [.int 7, .int 1]) = true ∧
      ∀ before run after, [.int 1] = before ++ (run ++ after) → run ≠ [] →
        (result == Rule.inPlace (.symbol .list) before (.int 7) after) = false) ∧
    (∃ result k₁ k', (((Pattern.ofTerm (.app .list [])).search (still.surroundings ⟨0⟩) Term
          (.app .list [.int 1]) .empty (Rule.instantiate (still.surroundings ⟨0⟩)
          (.int 7))).run' {}).run flatOrderlessListKernel = (.ok none, k₁) ∧
      (still.rewriteWith ⟨0⟩ (.app .list []) (.int 7) (.app .list [.int 1])).run
        flatOrderlessListKernel = (.ok (some result), k') ∧
      (result == .app .list [.int 1]) = true ∧
      ∀ before run after, [.int 1] = before ++ (run ++ after) → run ≠ [] →
        (result == Rule.inPlace (.symbol .list) before (.int 7) after) = false) := by
  refine ⟨⟨_, _, _, rfl, rfl, rfl, fun before run after hargs hrun => ?_⟩,
    ⟨_, _, _, rfl, rfl, rfl, fun before run after hargs hrun => ?_⟩⟩
  · rw [inPlace_of_singleton hargs hrun]
    rfl
  · rw [inPlace_of_singleton hargs hrun]
    rfl

end Evaluator

end Termwise
