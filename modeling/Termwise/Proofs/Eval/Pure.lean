import Termwise.Proofs.Eval.Inert
import Termwise.Proofs.Eval.Lockstep
import Termwise.Proofs.Pattern.Placed

/-!
# Termwise.Proofs.Eval.Pure

Tests without side effects.  `Evaluator.Pure` says of an evaluator that from all kernels with
an invariant some terms, and all that look the same, are evaluated alike, and that the
invariant is kept.  If the tests of a left-hand side become such terms only, two searches from
such kernels correspond, whatever else the kernels hold: left-hand sides that agree up to a
renaming match the same subjects, and rules apply to the same ones.

A left-hand side without tests asks for nothing.  Then no more is needed than that no abort is
pending and that attributes stay as they are (`pure_of_nothing`).  And tests that are symbols for
which nothing is found, like `True`, have no side effects (`pure_of_idle`).
-/

namespace Termwise

open Correspondence Likeness

/-- Some terms, and default values if they may be looked up, are evaluated without side effects on
kernels with an invariant: these stay among themselves while time passes, nodes are named and
tests run; no abort is pending in them and symbols have the same attributes; and from
whichever of them, what looks the same comes out alike. -/
structure Evaluator.Pure (r : Evaluator) (c : ContextId) (inv : Kernel → Prop)
    (asks : Term → Prop) (defaults : Prop) : Prop where
  quiet : ∀ {k : Kernel}, inv k → k.Quiet c
  attributes : ∀ {k k' : Kernel}, inv k → inv k' → k'.attributes = k.attributes
  elapse : ∀ {k : Kernel} (n : Nat), inv k → inv (k.elapse n)
  share : ∀ {k : Kernel} (t : Term), inv k → inv (k.share t).2
  evaluate : ∀ {k k' : Kernel} {t t' : Term}, inv k → inv k' → asks t → t.strip = t'.strip →
    inv ((r.evaluate c t).run k).2 ∧ inv ((r.evaluate c t').run k').2 ∧
      bare.Outcomes () bare.Like ((r.evaluate c t).run k).1 ((r.evaluate c t').run k').1
  default? : defaults → ∀ {k k' : Kernel} {slot slot' : Slot}, inv k → inv k' →
    bare.Slots () slot slot' →
    inv ((r.default? c slot).run k).2 ∧ inv ((r.default? c slot').run k').2 ∧
      bare.Outcomes () bare.Maybe ((r.default? c slot).run k).1 ((r.default? c slot').run k').1

/-- Runs from kernels with an invariant, whose terms correspond when they look the same. -/
def Twins.among (inv : Kernel → Prop) : Twins Unit where
  likeness := .bare
  Kernels _ _ k k' := inv k ∧ inv k'
  Gathers _ _ _ _ := True
  gathers_later _ h := h
  Generations _ _ := True

/-- What a rule asks for, in matches of its left-hand side and for its right-hand side, under
bindings of some names. -/
structure Rule.AsksOnly (names : Symbol → Prop) (asks : Term → Prop) (defaults : Prop)
    (rule : Rule) : Prop where
  lhs : (Pattern.ofTerm rule.lhs).Every (Pattern.AsksOnly names asks defaults)
  rhs : ∀ (i : Nat) (body test : Term), rule.rhs = .node i (.symbol .condition) [body, test] →
    ∀ b : Bindings, (∀ e ∈ b.entries, names e.1) → asks (test.substitute b)

namespace Evaluator.Pure

variable {r : Evaluator} {c : ContextId} {inv : Kernel → Prop} {asks : Term → Prop}
  {defaults : Prop} {names : Symbol → Prop} {k k' : Kernel} {N : Naming}
  {lhs lhs' rhs rhs' t t' : Term}

/-! ## surroundings -/

theorem run_tick (h : r.Pure c inv asks defaults) (hk : inv k) (s : SearchState) :
    ∃ k', ((r.surroundings c).tick.run s).run k = (.ok ((), { s with steps := s.steps + 1 }), k') ∧
      inv k' := by
  by_cases hpoll : (s.steps + 1) % max 1 k.config.pollInterval = 0
  · have hcheck := SearchM.run_lift_ok { s with steps := s.steps + 1 } (run_checkAbort (h.quiet hk))
    exact ⟨_, (run_tick_poll hpoll).trans hcheck, h.elapse _ hk⟩
  · exact ⟨k, run_tick_skip hpoll, hk⟩

theorem alike_share (h : r.Pure c inv asks defaults) (ht : t.strip = t'.strip) :
    ((Twins.among inv).running 0).Alike () bare.Like (Termwise.share t) (Termwise.share t') :=
  fun _ k k' _ hk => by
    refine ⟨(), le_rfl, ⟨h.share t hk.1, h.share t' hk.2⟩, .ok ?_⟩
    exact (Term.strip_share t _).trans (ht.trans (Term.strip_share t' _).symm)

theorem surroundings (h : r.Pure c inv asks defaults) :
    (r.callees c).surroundings.Correspond (r.callees c).surroundings bare
      ((Requests.all bare).only asks defaults)
      (((Twins.among inv).running 0).state bare.Searches bare.lasting_searches) where
  tick _ := fun _ s s' _ hs _ k k' _ hk => by
    obtain ⟨k₁, hrun, hk₁⟩ := h.run_tick hk.1 s
    obtain ⟨k₁', hrun', hk₁'⟩ := h.run_tick hk.2 s'
    refine ⟨(), le_rfl, ?_⟩
    rw [← Evaluator.surroundings_eq, hrun, hrun']
    exact ⟨⟨hk₁, hk₁'⟩, .ok ⟨trivial, congrArg (· + 1) hs.steps, hs.slot⟩⟩
  attributes _ := by
    have hget : ((Twins.among inv).running 0).Alike ()
        (fun _ k k' => k'.attributes = k.attributes) get get := fun _ k k' _ hk =>
      ⟨(), le_rfl, hk, .ok (h.attributes hk.1 hk.2)⟩
    refine Correspondence.alike_bind _ (alike_lift (lasting_const _) hget) fun _ k k' _ hk => ?_
    exact Correspondence.alike_pure _ fun _ _ => hk.symm
  evaluate ht := alike_lift (lasting_like _) fun _ k k' _ hk => by
    obtain ⟨hinv, hinv', hresult⟩ := h.evaluate hk.1 hk.2 ht.1 ht.2
    exact ⟨(), le_rfl, ⟨hinv, hinv'⟩, hresult⟩
  share ht := alike_lift (lasting_like _) (h.alike_share ht)
  enter index count hhead := alike_modifyState fun _ hs => ⟨hs.steps, .some ⟨hhead, rfl, rfl⟩⟩
  default? hdefaults _ := by
    refine Correspondence.alike_bind _ alike_getState fun _ s s' _ hs => ?_
    have hslot := hs.slot
    generalize s.slot = o, s'.slot = o' at hslot
    cases hslot with
    | none => exact answers_none
    | some hslot =>
        refine alike_lift (lasting_like _).maybe fun _ k k' _ hk => ?_
        obtain ⟨hinv, hinv', hresult⟩ := h.default? hdefaults hk.1 hk.2 hslot
        exact ⟨(), le_rfl, ⟨hinv, hinv'⟩, hresult⟩

/-! ## matches -/

/-- Left-hand sides that correspond up to their names match the same subjects. -/
theorem isMatch (h : r.Pure c inv asks defaults)
    (hlhs : bare.Renames N (.all bare) () (fun _ => False) (.ofTerm lhs) (.ofTerm lhs'))
    (hasks : (Pattern.ofTerm lhs).Every (Pattern.AsksOnly names asks defaults))
    (ht : t.strip = t'.strip) (hk : inv k) (hk' : inv k') :
    bare.Outcomes () (fun _ => Eq) ((r.isMatch c t lhs).run k).1
      ((r.isMatch c t' lhs').run k').1 := by
  obtain ⟨⟨⟩, -, -, hresult⟩ :=
    Callees.correspond_isMatch h.surroundings (hlhs.only hasks) ht () k k' le_rfl ⟨hk, hk'⟩
  exact hresult

/-! ## rewriting -/

/-- A rule makes of subjects that look the same results that do. -/
theorem applyWith (h : r.Pure c inv asks defaults) {rule : Rule}
    (hasks : rule.AsksOnly names asks defaults) (ht : t.strip = t'.strip) :
    ((Twins.among inv).running 0).Answers () bare.Like (rule.applyWith (r.rewriteWith c) t)
      (rule.applyWith (r.rewriteWith c) t') := by
  have he := h.surroundings
  have hlhs := ((patterns_ofTerm (L := bare) (w := ()) (t := rule.lhs) rfl).renames
    fun _ => False).only hasks.lhs
  refine Rule.correspond_applyWith ⟨rfl, rfl, rfl⟩ ht (Callees.correspond_rewriteWith he
    (Rule.placeable_like _) hlhs (fun _ hb => ?_) (fun _ => h.alike_share) ht)
  refine Rule.correspond_instantiate he rfl hb.whole.entries fun hrhs hrhs' => ?_
  obtain ⟨-, -, hsides⟩ := Term.node.inj (hrhs.symm.trans hrhs')
  obtain ⟨rfl, -⟩ := List.cons.inj (List.cons.inj hsides).2
  exact ⟨hasks.rhs _ _ _ hrhs _ hb.names, like_substitute hb.whole.entries rfl⟩

/-- Right-hand sides without a test make something of every match, so left-hand sides that
correspond up to their names then apply to the same subjects. -/
theorem rewriteWith_unconditional (h : r.Pure c inv asks defaults)
    (hlhs : bare.Renames N (.all bare) () (fun _ => False) (.ofTerm lhs) (.ofTerm lhs'))
    (hasks : (Pattern.ofTerm lhs).Every (Pattern.AsksOnly names asks defaults))
    (hrhs : Rule.isConditional rhs = false) (hrhs' : Rule.isConditional rhs' = false)
    (ht : t.strip = t'.strip) :
    ((Twins.among inv).running 0).Answers () (fun _ _ _ => True) (r.rewriteWith c lhs rhs t)
      (r.rewriteWith c lhs' rhs' t') := by
  refine Callees.correspond_rewriteWith h.surroundings Rule.placeable_true (hlhs.only hasks) (fun _ _ => ?_)
    (fun _ _ _ k k' _ hk => ⟨(), le_rfl, ⟨h.share _ hk.1, h.share _ hk.2⟩, .ok trivial⟩) ht
  rw [Rule.instantiate_of_not_conditional hrhs, Rule.instantiate_of_not_conditional hrhs']
  exact Correspondence.alike_pure _ fun _ _ => .some trivial

end Evaluator.Pure

/-! ## what has no side effects -/

/-- No abort is pending, symbols have their attributes, and nothing is found for some of them. -/
structure Kernel.Resting (c : ContextId) (attrs : Symbol → Attributes) (idle : Symbol → Prop)
    (k : Kernel) : Prop where
  quiet : k.Quiet c
  attributes : k.attributes = attrs
  idle : ∀ s, idle s → k.Idle c s

theorem Kernel.Resting.of_definitions {c : ContextId} {attrs : Symbol → Attributes}
    {idle : Symbol → Prop} {k k' : Kernel} (h : k.Resting c attrs idle)
    (hk : k.SameDefinitions k') : k'.Resting c attrs idle where
  quiet := hk.quiet h.quiet
  attributes := by
    rw [← h.attributes]
    funext s
    rw [Kernel.attributes, hk.record_eq, Kernel.attributes]
  idle s hs := (h.idle s hs).of_definitions hk

/-- A symbol that is not bound stays. -/
theorem Term.substitute_symbol_of_unbound {s : Symbol} {b : Bindings}
    (h : ∀ e ∈ b.entries, e.1 ≠ s) : (Term.symbol s).substitute b = .symbol s := by
  have hnone : b.get? s = none := by
    rw [Bindings.get?, Option.map_eq_none_iff, List.find?_eq_none]
    exact fun e he hname => h e he (beq_iff_eq.mp hname)
  rw [Term.substitute, Term.substitute?, hnone]
  rfl

namespace Evaluator

/-- Where nothing is asked for, nothing has side effects. -/
theorem pure_of_nothing (r : Evaluator) (c : ContextId) (attrs : Symbol → Attributes)
    (idle : Symbol → Prop) :
    r.Pure c (Kernel.Resting c attrs idle) (fun _ => False) False where
  quiet h := h.quiet
  attributes h h' := h'.attributes.trans h.attributes.symm
  elapse n h := ⟨h.quiet.elapse n, h.attributes, h.idle⟩
  share t h := ⟨h.quiet.share t, h.attributes, h.idle⟩
  evaluate _ _ hasks := hasks.elim
  default? h := h.elim

/-- Symbols for which nothing is found are evaluated without side effects. -/
theorem pure_of_idle (n : Nat) (c : ContextId) (attrs : Symbol → Attributes)
    (idle : Symbol → Prop) :
    (ofFuel (n + 1)).Pure c (Kernel.Resting c attrs idle) (fun t => ∃ s, idle s ∧ t = .symbol s)
      False where
  __ := pure_of_nothing (ofFuel (n + 1)) c attrs idle
  evaluate := by
    rintro k k' _ t' hk hk' ⟨s, hs, rfl⟩ ht
    obtain rfl : t' = .symbol s := eq_symbol (L := bare) (w := ()) ht
    obtain ⟨k₁, hrun, hsame⟩ := exists_run_evaluateWith_of_idle (hk.idle s hs) hk.quiet n
    obtain ⟨k₁', hrun', hsame'⟩ := exists_run_evaluateWith_of_idle (hk'.idle s hs) hk'.quiet n
    rw [ofFuel, hrun, hrun']
    exact ⟨hk.of_definitions hsame, hk'.of_definitions hsame', .ok rfl⟩

end Evaluator

end Termwise
