import Termwise.Proofs.Eval.Run
import Termwise.Proofs.Pattern.FirstSolution

/-!
# Termwise.Proofs.Eval.Search

What a kernel shows to a search.  A search counts its steps, lets time pass, names
nodes and runs tests; of all this only the tests can change an attribute, and only
an abort, a deadline or a test can end the search early.  Defaults are seen only as
far as there are none (`Kernel.Undefaulted`).
-/

namespace Termwise

/-! ## naming nodes -/

theorem Text.Window.units_share (next : Nat) (w : Text.Window) :
    (w.share next).1.units = w.units := by
  unfold Text.Window.share
  split <;> rfl

theorem HostObject.share_fields (next : Nat) (h : HostObject) :
    (h.share next).1.kind = h.kind ∧ (h.share next).1.number = h.number := by
  unfold HostObject.share
  split <;> exact ⟨rfl, rfl⟩

namespace Term

mutual

/-- Naming the nodes of a term changes nothing but names. -/
theorem strip_share : ∀ (t : Term) (next : Nat), (t.share next).1.strip = t.strip
  | .node 0 head args, next => by
      simp only [share, strip, strip_share head, stripAll_shareAll args]
  | .node (_ + 1) _ _, _ => rfl
  | .text w, next => by simp only [share, strip, Text.Window.units_share]
  | .host h, next => by
      obtain ⟨hkind, hnumber⟩ := HostObject.share_fields next h
      simp only [share, strip, hkind, hnumber]
  | .magic _, _ | .int _, _ | .float _, _ | .symbol _, _ => rfl

theorem stripAll_shareAll : ∀ (ts : List Term) (next : Nat),
    stripAll (shareAll next ts).1 = stripAll ts
  | [], _ => rfl
  | t :: ts, next => by simp only [shareAll, stripAll, strip_share t, stripAll_shareAll ts]

end

end Term

/-! ## kernels -/

namespace Kernel

/-- No abort is pending in a context: none was asked for, and no deadline is set. -/
structure Quiet (k : Kernel) (c : ContextId) : Prop where
  aborting : k.aborting = false
  deadline : k.deadline c = noDeadline

theorem Quiet.share {k : Kernel} {c : ContextId} (h : k.Quiet c) (t : Term) :
    (k.share t).2.Quiet c := ⟨h.aborting, h.deadline⟩

theorem Quiet.elapse {k : Kernel} {c : ContextId} (h : k.Quiet c) (n : Nat) :
    (k.elapse n).Quiet c := ⟨h.aborting, h.deadline⟩

/-- No symbol has rules for its default. -/
def Undefaulted (k : Kernel) : Prop := ∀ s, k.rules? s .default = none

/-- A search sees given attributes, and finds no defaults where they are said to be absent. -/
structure Shows (k : Kernel) (attrs : Symbol → Attributes) (absent : Prop) : Prop where
  attributes : k.attributes = attrs
  undefaulted : absent → k.Undefaulted

section Shows

variable {k : Kernel} {attrs : Symbol → Attributes} {absent : Prop}

theorem shows_attributes (k : Kernel) : k.Shows k.attributes False := ⟨rfl, False.elim⟩

theorem Shows.share (h : k.Shows attrs absent) (t : Term) : (k.share t).2.Shows attrs absent :=
  ⟨h.attributes, h.undefaulted⟩

theorem Shows.elapse (h : k.Shows attrs absent) (n : Nat) : (k.elapse n).Shows attrs absent :=
  ⟨h.attributes, h.undefaulted⟩

end Shows

end Kernel

/-- Without a pending abort, looking for one only lets time pass. -/
theorem run_checkAbort {k : Kernel} {c : ContextId} (h : k.Quiet c) :
    (checkAbort c).run k = (.ok (), k.elapse Kernel.lookTime) := by
  have ha : (k.elapse Kernel.lookTime).aborting = false := h.aborting
  have hd : (k.elapse Kernel.lookTime).deadline c = noDeadline := h.deadline
  have hlate :
      (k.elapse Kernel.lookTime).isLate ((k.elapse Kernel.lookTime).deadline c) = false := by
    simp [Kernel.isLate, hd]
  change (if (k.elapse Kernel.lookTime).aborting ||
      (k.elapse Kernel.lookTime).isLate ((k.elapse Kernel.lookTime).deadline c)
    then throw .aborted else pure () : EvalM Unit).run (k.elapse Kernel.lookTime) = _
  rw [ha, hlate]
  rfl

/-- Looking for an abort lets time pass, whether or not there is one. -/
theorem kernel_run_checkAbort (k : Kernel) (c : ContextId) :
    ((checkAbort c).run k).2 = k.elapse Kernel.lookTime := by
  change ((if (k.elapse Kernel.lookTime).aborting ||
      (k.elapse Kernel.lookTime).isLate ((k.elapse Kernel.lookTime).deadline c)
    then throw .aborted else pure () : EvalM Unit).run (k.elapse Kernel.lookTime)).2 = _
  split <;> rfl

/-! ## tests -/

/-- From every kernel with the given attributes in which no abort is pending, the evaluations of
tests succeed, leave it so, and come out as a predicate of the test says. -/
structure Evaluator.DecidesTests (r : Evaluator) (c : ContextId) (attrs : Symbol → Attributes)
    (holds : Term → Bool) : Prop where
  evaluate : ∀ (t : Term) (k : Kernel), k.attributes = attrs → k.Quiet c →
    ∃ v k', (r.evaluate c t).run k = (.ok v, k') ∧ k'.attributes = attrs ∧ k'.Quiet c ∧
      v.isSymbol .isTrue = holds t
  /-- Equal tests come out alike. -/
  alike : ∀ t t' : Term, (t == t') = true → holds t = holds t'

namespace Evaluator

variable {r : Evaluator} {c : ContextId} {w : World}

/-! ## looking up -/

/-- A lookup tries the list made ready by the kernel as it is. -/
theorem run_find? (r : Evaluator) (c : ContextId) (list : RuleList) (subject : Term) (k : Kernel) :
    (r.find? c list subject).run k =
      ((list.ready k.attributes k.structureEpoch subject).find?
        (fun rule => rule.applyWith (r.rewrite c) subject) subject).run k := by
  have hget : (get : EvalM Kernel).run k = (.ok k, k) := rfl
  rw [find?, EvalM.run_bind_ok hget]

/-- Where no defaults are defined, none is found. -/
theorem run_default?_of_undefaulted {k : Kernel} (h : k.Undefaulted) (slot : Slot) :
    (r.default? c slot).run k = (.ok none, k) := by
  unfold default?
  cases slot.head.topmost? with
  | none => rfl
  | some s =>
      refine (EvalM.run_bind_ok (show (get : EvalM Kernel).run k = (.ok k, k) from rfl)).trans ?_
      rw [h s]
      rfl

theorem run_surroundings_default? {k : Kernel} (h : k.Undefaulted) (s : SearchState) :
    ((r.surroundings c).default?.run s).run k = (.ok (none, s), k) := by
  obtain ⟨steps, slot⟩ := s
  cases slot with
  | none => rfl
  | some slot => exact SearchM.run_lift_ok _ (run_default?_of_undefaulted h slot)

/-! ## counting steps -/

/-- A step that is a multiple of the interval looks for an abort. -/
theorem run_tick_poll {s : SearchState} {k : Kernel}
    (h : (s.steps + 1) % max 1 k.config.pollInterval = 0) :
    ((r.surroundings c).tick.run s).run k =
      ((liftM (checkAbort c) : SearchM Unit).run { s with steps := s.steps + 1 }).run k := by
  change ((if (s.steps + 1) % max 1 k.config.pollInterval = 0 then liftM (checkAbort c)
    else pure () : SearchM Unit).run { s with steps := s.steps + 1 }).run k = _
  rw [if_pos h]

/-- Any other step is only counted. -/
theorem run_tick_skip {s : SearchState} {k : Kernel}
    (h : ¬ (s.steps + 1) % max 1 k.config.pollInterval = 0) :
    ((r.surroundings c).tick.run s).run k = (.ok ((), { s with steps := s.steps + 1 }), k) := by
  change ((if (s.steps + 1) % max 1 k.config.pollInterval = 0 then liftM (checkAbort c)
    else pure () : SearchM Unit).run { s with steps := s.steps + 1 }).run k = _
  rw [if_neg h]
  rfl

/-! ## what a search finds -/

variable {attrs : Symbol → Attributes} {tests absent : Prop}

/-- A search without a pending abort succeeds if its tests do. -/
theorem show_succeeding (ht : tests → r.DecidesTests c w.attributes w.holds ∧ ¬ absent) :
    (r.surroundings c).Show
      (SearchM.succeeding fun k => k.Shows w.attributes absent ∧ k.Quiet c) w tests where
  tick := by
    intro s k hk
    by_cases hpoll : (s.steps + 1) % max 1 k.config.pollInterval = 0
    · exact ⟨(), _, _, (run_tick_poll hpoll).trans (SearchM.run_lift_ok _ (run_checkAbort hk.2)),
        ⟨hk.1.elapse _, hk.2.elapse _⟩, trivial⟩
    · exact ⟨(), _, k, run_tick_skip hpoll, hk, trivial⟩
  attributes := fun s k hk => ⟨k.attributes, s, k, rfl, hk, hk.1.attributes⟩
  share := fun t s k hk =>
    ⟨(k.share t).1, s, (k.share t).2, rfl, ⟨hk.1.share t, hk.2.share t⟩, Term.strip_share t _⟩
  enter := fun slot s k hk => ⟨(), { s with slot := some slot }, k, rfl, hk, trivial⟩
  evaluate := by
    intro h t t' htt s k hk
    obtain ⟨hdecides, hpresent⟩ := ht h
    obtain ⟨v, k', hrun, hattrs, hquiet, hv⟩ := hdecides.evaluate t k hk.1.attributes hk.2
    have halike := hdecides.alike t t' ((Term.beq_iff_strip t t').mpr htt)
    exact ⟨v, s, k', SearchM.run_lift_ok s hrun,
      ⟨⟨hattrs, fun habsent => (hpresent habsent).elim⟩, hquiet⟩, hv.trans halike⟩

/-- A search without tests that succeeds has seen one and the same attributes all along. -/
theorem show_whenDone (r : Evaluator) (c : ContextId) (w : World) (absent : Prop) :
    (r.surroundings c).Show (SearchM.whenDone fun k => k.Shows w.attributes absent) w False where
  tick := by
    intro s k a s' k' hk hrun
    by_cases hpoll : (s.steps + 1) % max 1 k.config.pollInterval = 0
    · obtain ⟨hcheck, -⟩ := SearchM.run_lift_eq_ok ((run_tick_poll hpoll).symm.trans hrun)
      have hk' : k' = k.elapse Kernel.lookTime := by
        rw [← kernel_run_checkAbort k c, hcheck]
      rw [hk']
      exact ⟨hk.elapse _, trivial⟩
    · cases (run_tick_skip hpoll).symm.trans hrun
      exact ⟨hk, trivial⟩
  attributes := by
    intro s k a s' k' hk hrun
    cases hrun
    exact ⟨hk, hk.attributes⟩
  share := by
    intro t s k a s' k' hk hrun
    cases hrun
    exact ⟨hk.share t, Term.strip_share t _⟩
  enter := by
    intro slot s k a s' k' hk hrun
    cases hrun
    exact ⟨hk, trivial⟩
  evaluate := fun h => h.elim

/-! ## matches -/

/-- Without a pending abort a match succeeds, if its tests do, with the first solution. -/
theorem run_match?_of_shows (holds : Term → Bool) (subject pattern : Term) {k : Kernel}
    (hk : k.Shows attrs absent) (ht : tests → r.DecidesTests c attrs holds ∧ ¬ absent)
    (hp : (Pattern.ofTerm pattern).Every (Pattern.SettledOr absent tests)) (hquiet : k.Quiet c) :
    ∃ answer k', (r.match? c subject pattern).run k = (.ok answer, k') ∧
      answer.map Bindings.strip =
        ((Pattern.ofTerm pattern).solutions ⟨attrs, holds, true⟩ subject .empty).head?.map
          Bindings.strip := by
  have he := show_succeeding (w := ⟨attrs, holds, true⟩) ht
  have hnone : absent → (SearchM.succeeding fun k' : Kernel =>
      k'.Shows attrs absent ∧ k'.Quiet c).Gives (r.surroundings c).default? (· = none) :=
    fun h s k' hk' => ⟨none, s, k', run_surroundings_default? (hk'.1.undefaulted h) s, hk', rfl⟩
  obtain ⟨answer, s', k', hrun, -, hanswer⟩ :=
    Pattern.gives_match? he hnone rfl hp rfl {} k ⟨hk, hquiet⟩
  exact ⟨answer, k', SearchM.run_run'_ok hrun, hanswer⟩

/-- Without a pending abort a match succeeds, if its tests do, with the first solution. -/
theorem run_match?_of_quiet (holds : Term → Bool) (subject pattern : Term) {k : Kernel}
    (ht : tests → r.DecidesTests c k.attributes holds)
    (hp : (Pattern.ofTerm pattern).Every (Pattern.Settled tests)) (hk : k.Quiet c) :
    ∃ answer k', (r.match? c subject pattern).run k = (.ok answer, k') ∧
      answer.map Bindings.strip =
        ((Pattern.ofTerm pattern).solutions ⟨k.attributes, holds, true⟩ subject .empty).head?.map
          Bindings.strip :=
  run_match?_of_shows holds subject pattern k.shows_attributes (fun h => ⟨ht h, id⟩)
    (hp.imp fun _ => Pattern.Settled.orAbsent) hk

/-- A match without tests that succeeds gives the first solution. -/
theorem run_match?_eq_ok_of_shows {subject pattern : Term} {k k' : Kernel}
    {answer : Option Bindings} (hk : k.Shows attrs absent)
    (hp : (Pattern.ofTerm pattern).Every (Pattern.SettledOr absent False))
    (hrun : (r.match? c subject pattern).run k = (.ok answer, k')) (holds : Term → Bool) :
    answer.map Bindings.strip =
      ((Pattern.ofTerm pattern).solutions ⟨attrs, holds, true⟩ subject .empty).head?.map
        Bindings.strip := by
  have he := show_whenDone r c ⟨attrs, holds, true⟩ absent
  have hnone : absent → (SearchM.whenDone fun k' : Kernel => k'.Shows attrs absent).Gives
      (r.surroundings c).default? (· = none) := by
    intro h s k₁ a s' k₁' hk₁ hrun₁
    cases (run_surroundings_default? (hk₁.undefaulted h) s).symm.trans hrun₁
    exact ⟨hk₁, rfl⟩
  obtain ⟨s', hrun'⟩ := SearchM.run_run'_eq_ok hrun
  exact (Pattern.gives_match? he hnone rfl hp rfl {} k _ s' k' hk hrun').2

/-- A match without tests that succeeds gives the first solution. -/
theorem run_match?_eq_ok {subject pattern : Term} {k k' : Kernel} {answer : Option Bindings}
    (hp : (Pattern.ofTerm pattern).Every (Pattern.Settled False))
    (hrun : (r.match? c subject pattern).run k = (.ok answer, k')) (holds : Term → Bool) :
    answer.map Bindings.strip =
      ((Pattern.ofTerm pattern).solutions ⟨k.attributes, holds, true⟩ subject .empty).head?.map
        Bindings.strip :=
  run_match?_eq_ok_of_shows k.shows_attributes (hp.imp fun _ => Pattern.Settled.orAbsent) hrun holds

/-! ## whether there is a match -/

/-- An answer that is the first solution tells whether there is one. -/
theorem isSome_iff_exists_solution {answer : Option Bindings} {solutions : List Bindings}
    (h : answer.map Bindings.strip = solutions.head?.map Bindings.strip) :
    answer.isSome = true ↔ ∃ b, b ∈ solutions := by
  have hsome := congrArg Option.isSome h
  rw [Option.isSome_map, Option.isSome_map] at hsome
  rw [hsome, List.isSome_head?]
  exact ⟨List.exists_mem_of_ne_nil _, fun ⟨_, hb⟩ => List.ne_nil_of_mem hb⟩

/-- While no abort is pending, asking for a match is answered by whether there is a solution. -/
theorem run_isMatch_iff_of_quiet (holds : Term → Bool) (subject pattern : Term) {k : Kernel}
    (ht : tests → r.DecidesTests c k.attributes holds)
    (hp : (Pattern.ofTerm pattern).Every (Pattern.Settled tests)) (hk : k.Quiet c) :
    ∃ v k', (r.isMatch c subject pattern).run k = (.ok v, k') ∧ (v = true ↔
      ∃ b, b ∈ (Pattern.ofTerm pattern).solutions ⟨k.attributes, holds, true⟩ subject .empty) := by
  obtain ⟨answer, k', hrun, hanswer⟩ := run_match?_of_quiet holds subject pattern ht hp hk
  exact ⟨answer.isSome, k', EvalM.run_bind_ok hrun, isSome_iff_exists_solution hanswer⟩

/-- Whether a subject matches is whether there is a solution. -/
theorem run_isMatch_eq_ok_of_shows {subject pattern : Term} {k k' : Kernel} {v : Bool}
    (hk : k.Shows attrs absent)
    (hp : (Pattern.ofTerm pattern).Every (Pattern.SettledOr absent False))
    (hrun : (r.isMatch c subject pattern).run k = (.ok v, k')) (holds : Term → Bool) :
    v = true ↔
      ∃ b, b ∈ (Pattern.ofTerm pattern).solutions ⟨attrs, holds, true⟩ subject .empty := by
  obtain ⟨answer, k₁, hmatch, hpure⟩ := EvalM.run_bind_eq_ok hrun
  cases hpure
  exact isSome_iff_exists_solution (run_match?_eq_ok_of_shows hk hp hmatch holds)

/-- Whether a subject matches is whether there is a solution. -/
theorem run_isMatch_eq_ok {subject pattern : Term} {k k' : Kernel} {v : Bool}
    (hp : (Pattern.ofTerm pattern).Every (Pattern.Settled False))
    (hrun : (r.isMatch c subject pattern).run k = (.ok v, k')) (holds : Term → Bool) :
    v = true ↔ ∃ b, b ∈ (Pattern.ofTerm pattern).solutions ⟨k.attributes, holds, true⟩ subject
      .empty :=
  run_isMatch_eq_ok_of_shows k.shows_attributes (hp.imp fun _ => Pattern.Settled.orAbsent) hrun
    holds

/-- Without a pending abort, asking for a match without tests succeeds. -/
theorem run_isMatch_of_shows (subject pattern : Term) {k : Kernel} (hk : k.Shows attrs absent)
    (hp : (Pattern.ofTerm pattern).Every (Pattern.SettledOr absent False)) (hquiet : k.Quiet c) :
    ∃ v k', (r.isMatch c subject pattern).run k = (.ok v, k') := by
  obtain ⟨answer, k', hrun, -⟩ := run_match?_of_shows (r := r) (fun _ => true) subject pattern hk
    False.elim hp hquiet
  exact ⟨answer.isSome, k', EvalM.run_bind_ok hrun⟩

/-- Without a pending abort, asking for a match without tests succeeds. -/
theorem run_isMatch_of_quiet (subject pattern : Term) {k : Kernel}
    (hp : (Pattern.ofTerm pattern).Every (Pattern.Settled False)) (hk : k.Quiet c) :
    ∃ v k', (r.isMatch c subject pattern).run k = (.ok v, k') :=
  run_isMatch_of_shows subject pattern k.shows_attributes
    (hp.imp fun _ => Pattern.Settled.orAbsent) hk

end Evaluator

end Termwise
