import Termwise.Eval.Define
import Termwise.Proofs.Eval.Match
import Termwise.Proofs.Pattern.Scoped

/-!
# Termwise.Proofs.Eval.Scoped

Implicit defaults in a kernel belong to the slot being filled.  Where every slot of a
pattern is timely (`Pattern.TimelySlots`), a search does exactly what the search does
that hands each slot down to the optional arguments in it (`search_eq_searchScoped`):
the default is looked up for the head, position and number of slots of the call that is
being matched there, whatever was tried and given up before.
-/

namespace Termwise

/-! ## the slot entered last -/

/-- Whether the slot entered last is a given one, if one is given. -/
def SearchState.InScope (scope : Option Slot) (s : SearchState) : Prop :=
  ∀ slot ∈ scope, s.slot = some slot

namespace SearchM

variable {α β : Type} {scope : Option Slot}

/-- If the action succeeds in a scope, it stays in it, and the result is known. -/
def staying (scope : Option Slot) : Observation SearchM where
  Gives x p := ∀ s k a s' k', s.InScope scope → (x.run s).run k = (.ok (a, s'), k') →
    s'.InScope scope ∧ p a
  gives_pure hp s k a s' k' hs hrun := by
    cases hrun
    exact ⟨hs, hp⟩
  gives_bind {α β x f p q} hx hf s k b s'' k'' hs hrun := by
    rw [StateT.run_bind] at hrun
    obtain ⟨⟨a, s'⟩, k', hx', hf'⟩ := EvalM.run_bind_eq_ok hrun
    obtain ⟨hs', ha⟩ := hx s k a s' k' hs hx'
    exact hf a ha s' k' b s'' k'' hs' hf'
  gives_mono hx hpq s k a s' k' hs hrun := by
    obtain ⟨hs', ha⟩ := hx s k a s' k' hs hrun
    exact ⟨hs', hpq a ha⟩

/-- The two actions do the same in a scope. -/
def AgreeIn (scope : Option Slot) (x y : SearchM α) : Prop :=
  ∀ s : SearchState, s.InScope scope → x.run s = y.run s

theorem agreeIn_of_eq {x y : SearchM α} (h : x = y) : AgreeIn scope x y := fun _ _ => by rw [h]

theorem eq_of_agreeIn {x y : SearchM α} (h : AgreeIn none x y) : x = y :=
  funext fun s => h s nofun

/-- What follows an action that stays in the scope. -/
theorem agreeIn_bind {x : SearchM α} {f g : α → SearchM β} {p : α → Prop}
    (hx : (staying scope).Gives x p) (h : ∀ a, p a → AgreeIn scope (f a) (g a)) :
    AgreeIn scope (x >>= f) (x >>= g) := by
  intro s hs
  funext k
  change ((x >>= f).run s).run k = ((x >>= g).run s).run k
  rcases hrun : (x.run s).run k with ⟨e | ⟨a, s'⟩, k'⟩
  · rw [run_bind_error hrun, run_bind_error hrun]
  · obtain ⟨hs', ha⟩ := hx s k a s' k' hs hrun
    rw [run_bind_ok hrun, run_bind_ok hrun, h a ha s' hs']

/-- What follows actions that do the same, wherever that leads. -/
theorem agreeIn_bind_same {x y : SearchM α} {f : α → SearchM β} (h : AgreeIn scope x y) :
    AgreeIn scope (x >>= f) (y >>= f) := by
  intro s hs
  rw [StateT.run_bind, StateT.run_bind, h s hs]

theorem agreeIn_guard {ρ : Type} {c : Bool} {x y : SearchM (Option ρ)} (h : AgreeIn scope x y) :
    AgreeIn scope (Pattern.guardM c x) (Pattern.guardM c y) := by
  cases c with
  | true => exact h
  | false => exact agreeIn_of_eq rfl

end SearchM

namespace Evaluator

open Pattern SearchM

variable {r : Evaluator} {c : ContextId}

/-- The default for a slot, looked up during a search. -/
def defaultIn (r : Evaluator) (c : ContextId) (slot : Slot) : SearchM (Option Term) :=
  liftM (r.default? c slot)

theorem staying_tick (scope : Option Slot) :
    (staying scope).Gives (r.surroundings c).tick fun _ => True := by
  intro s k a s' k' hs hrun
  by_cases hpoll : (s.steps + 1) % max 1 k.config.pollInterval = 0
  · obtain ⟨-, rfl⟩ := SearchM.run_lift_eq_ok ((run_tick_poll hpoll).symm.trans hrun)
    exact ⟨hs, trivial⟩
  · cases (run_tick_skip hpoll).symm.trans hrun
    exact ⟨hs, trivial⟩

/-- After a slot has been entered, its default is the one that is asked for. -/
theorem agreeIn_default? (slot : Slot) :
    AgreeIn (some slot) (r.surroundings c).default? (r.defaultIn c slot) := by
  rintro ⟨steps, last⟩ hs
  cases hs slot rfl
  rfl

/-- A slot that is just being entered is the scope of what follows. -/
theorem enter_bind_eq {α : Type} {slot : Slot} {x y : SearchM α} (h : AgreeIn (some slot) x y) :
    (do (r.surroundings c).enter slot; x) = (do (r.surroundings c).enter slot; y) := by
  funext s
  exact h { s with slot := some slot } fun _ hslot => hslot

/-! ## idle patterns -/

section Idle

variable {scope : Option Slot} {t : Term}

theorem single?_of_run_nil (ht : t.run = []) : t.single? = none := by
  cases hx : t.single? with
  | none => rfl
  | some x =>
      rw [Term.single?_eq_some_iff, ht] at hx
      cases hx

/-- What fails right after a step. -/
theorem staying_of_step {ρ : Type} {f : Unit → SearchM (Option ρ)} (h : f () = pure none) :
    (staying scope).Gives ((r.surroundings c).tick >>= f) (· = none) :=
  (staying scope).gives_bind (staying_tick scope) fun _ _ => h ▸ (staying scope).gives_pure rfl

theorem staying_guard {ρ : Type} {g : Bool} {x : SearchM (Option ρ)}
    (h : (staying scope).Gives x (· = none)) : (staying scope).Gives (guardM g x) (· = none) := by
  cases g with
  | true => exact h
  | false => exact (staying scope).gives_pure rfl

mutual

/-- An idle pattern fails on an empty run and stays in the scope. -/
theorem staying_of_idle (ht : t.run = []) : ∀ (p : Pattern), p.idle = true → ∀ {ρ : Type}
    {b : Bindings} {k : Bindings → SearchM (Option ρ)},
    (staying scope).Gives (p.search (r.surroundings c) ρ t b k) (· = none)
  | .atom _, _, ρ, b, k | .literal _, _, ρ, b, k | .blank _, _, ρ, b, k => by
      rw [search]
      refine staying_of_step ?_
      rw [single?_of_run_nil ht]
      rfl
  | .blankSequence _, _, ρ, b, k => by
      rw [search]
      refine staying_of_step ?_
      rw [ht]
      rfl
  | .call _ _ _, _, ρ, b, k => by
      rw [search]
      refine staying_of_step ?_
      rw [single?_of_run_nil ht]
  | .named x p, h, ρ, b, k => by
      rw [search]
      refine (staying scope).gives_bind (staying_tick scope) fun _ _ => ?_
      split
      · exact staying_guard (staying_of_idle ht p h)
      · exact staying_of_idle ht p h
  | .condition p _, h, ρ, b, k | .tested p _, h, ρ, b, k | .hold p, h, ρ, b, k
  | .longest p, h, ρ, b, k | .shortest p, h, ρ, b, k => by
      rw [search]
      exact (staying scope).gives_bind (staying_tick scope) fun _ _ => staying_of_idle ht p h
  | .alternatives ps, h, ρ, b, k => by
      rw [search]
      exact (staying scope).gives_bind (staying_tick scope) fun _ _ => staying_of_allIdle ht ps h
  | .repeated _ _ least _, h, ρ, b, k => by
      rw [search]
      refine staying_of_step ?_
      have hleast : ¬ least ≤ 0 := Nat.not_le.mpr (of_decide_eq_true h)
      rw [ht, searchRepeated, decide_eq_false hleast]
      rfl
  | .sequence (p :: ps), h, ρ, b, k => by
      rw [search]
      refine staying_of_step ?_
      rw [ht, searchSlots, List.length_nil, counts_eq_nil_of_takesSome h]
      rfl
  | .except no, h, ρ, b, k => by
      rw [search]
      refine (staying scope).gives_bind (staying_tick scope) fun _ _ =>
        (staying scope).gives_bind (staying_of_idle ht no h) fun a ha => ?_
      subst ha
      rw [single?_of_run_nil ht]
      exact (staying scope).gives_pure rfl
  | .exceptThen no p, h, ρ, b, k => by
      rw [idle, Bool.and_eq_true] at h
      rw [search]
      refine (staying scope).gives_bind (staying_tick scope) fun _ _ =>
        (staying scope).gives_bind (staying_of_idle ht no h.1) fun a ha => ?_
      subst ha
      exact staying_of_idle ht p h.2

theorem staying_of_allIdle (ht : t.run = []) : ∀ (ps : List Pattern), allIdle ps = true →
    ∀ {ρ : Type} {b : Bindings} {k : Bindings → SearchM (Option ρ)},
    (staying scope).Gives (searchChoices (r.surroundings c) ps ρ t b k) (· = none)
  | [], _, ρ, b, k => (staying scope).gives_pure rfl
  | p :: ps, h, ρ, b, k => by
      rw [allIdle, Bool.and_eq_true] at h
      rw [searchChoices]
      refine (staying scope).gives_bind (staying_of_idle ht p h.1) fun a ha => ?_
      subst ha
      exact staying_of_allIdle ht ps h.2

end

end Idle

/-! ## the same search -/

/-- When a search may ask by `ask` instead of asking as in `search`: the question is never reached,
or the scope is a slot that is asked in time. -/
def Fair (r : Evaluator) (c : ContextId) (scope : Option Slot) (ask : SearchM (Option Term))
    (t : Term) (asks timely : Bool) : Prop :=
  ask = (r.surroundings c).default? ∨ t.run ≠ [] ∨ asks = false ∨
    ∃ slot, scope = some slot ∧ ask = r.defaultIn c slot ∧ timely = true

section Fair

variable {scope : Option Slot} {ask : SearchM (Option Term)} {t : Term}

theorem fair_default (asks timely : Bool) :
    Fair r c scope (r.surroundings c).default? t asks timely := .inl rfl

/-- A choice is asked fairly if its first pattern is, and if the others are: those wherever the
search for the first one leads, unless that one is idle. -/
theorem Fair.cons {p : Pattern} {ps : List Pattern}
    (h : Fair r c scope ask t (anyAsks (p :: ps)) (timelyChoices (p :: ps))) :
    Fair r c scope ask t p.asks p.timely ∧
      (Fair r c none ask t (anyAsks ps) (timelyChoices ps) ∨
        t.run = [] ∧ p.idle = true ∧ Fair r c scope ask t (anyAsks ps) (timelyChoices ps)) := by
  obtain hask | ht | hnone | ⟨slot, hscope, hask, htimely⟩ := h
  · exact ⟨.inl hask, .inl (.inl hask)⟩
  · exact ⟨.inr (.inl ht), .inl (.inr (.inl ht))⟩
  · rw [anyAsks, Bool.or_eq_false_iff] at hnone
    exact ⟨.inr (.inr (.inl hnone.1)), .inl (.inr (.inr (.inl hnone.2)))⟩
  · rw [timelyChoices, Bool.and_eq_true, Bool.and_eq_true, Bool.or_eq_true,
      Bool.not_eq_true'] at htimely
    obtain ⟨⟨hfirst, hidle | hnone⟩, hrest⟩ := htimely
    · refine ⟨.inr (.inr (.inr ⟨slot, hscope, hask, hfirst⟩)), ?_⟩
      by_cases ht : t.run = []
      · exact .inr ⟨ht, hidle, .inr (.inr (.inr ⟨slot, hscope, hask, hrest⟩))⟩
      · exact .inl (.inr (.inl ht))
    · exact ⟨.inr (.inr (.inr ⟨slot, hscope, hask, hfirst⟩)), .inl (.inr (.inr (.inl hnone)))⟩

end Fair

mutual

/-- Where a slot is asked fairly, the two searches do the same in its scope. -/
theorem agreeIn_search : ∀ (p : Pattern), p.Every TimelySlots → ∀ {scope : Option Slot}
    {ask : SearchM (Option Term)} {t : Term}, Fair r c scope ask t p.asks p.timely → ∀ {ρ : Type}
    {b : Bindings} {k : Bindings → SearchM (Option ρ)},
    AgreeIn scope (p.search (r.surroundings c) ρ t b k)
      (p.searchScoped (r.surroundings c) (r.defaultIn c) ask ρ t b k)
  | .atom _, _, scope, ask, t, _, ρ, b, k | .literal _, _, scope, ask, t, _, ρ, b, k
  | .blank _, _, scope, ask, t, _, ρ, b, k | .blankSequence _, _, scope, ask, t, _, ρ, b, k
  | .blankNullSequence _, _, scope, ask, t, _, ρ, b, k => by
      rw [search, searchScoped]
      exact agreeIn_of_eq rfl
  | .named x p, hp, scope, ask, t, h, ρ, b, k => by
      rw [search, searchScoped]
      refine agreeIn_bind (staying_tick scope) fun _ _ => ?_
      cases b.get? x with
      | some v => exact agreeIn_guard (agreeIn_search p hp.2 h)
      | none => exact agreeIn_search p hp.2 h
  | .condition p _, hp, scope, ask, t, h, ρ, b, k | .tested p _, hp, scope, ask, t, h, ρ, b, k
  | .hold p, hp, scope, ask, t, h, ρ, b, k | .longest p, hp, scope, ask, t, h, ρ, b, k
  | .shortest p, hp, scope, ask, t, h, ρ, b, k => by
      rw [search, searchScoped]
      exact agreeIn_bind (staying_tick scope) fun _ _ => agreeIn_search p hp.2 h
  | .alternatives ps, hp, scope, ask, t, h, ρ, b, k => by
      rw [search, searchScoped]
      exact agreeIn_bind (staying_tick scope) fun _ _ => agreeIn_searchChoices ps hp.2 h
  | .optional p (some d), hp, scope, ask, t, h, ρ, b, k => by
      rw [search, searchScoped]
      simp only [eq_of_agreeIn (agreeIn_search p hp.2 (fair_default _ _))]
      exact agreeIn_of_eq rfl
  | .optional p none, hp, scope, ask, t, h, ρ, b, k => by
      rw [search, searchScoped]
      simp only [eq_of_agreeIn (agreeIn_search p hp.2 (fair_default _ _))]
      refine agreeIn_bind (staying_tick scope) fun _ _ => ?_
      by_cases hempty : (t.isMarker && t.args.isEmpty) = true
      · simp only [if_pos hempty]
        obtain rfl | ht | hnone | ⟨slot, rfl, rfl, -⟩ := h
        · exact agreeIn_of_eq rfl
        · exact (ht (Term.run_eq_nil_iff.mpr hempty)).elim
        · cases hnone
        · exact agreeIn_bind_same (agreeIn_default? slot)
      · simp only [if_neg hempty]
        exact agreeIn_of_eq rfl
  | .repeated p _ _ _, hp, scope, ask, t, h, ρ, b, k => by
      rw [search, searchScoped]
      have hone : p.search (r.surroundings c) ρ =
          p.searchScoped (r.surroundings c) (r.defaultIn c) (r.surroundings c).default? ρ := by
        funext t b k
        exact eq_of_agreeIn (agreeIn_search p hp.2 (fair_default _ _))
      rw [hone]
      exact agreeIn_of_eq rfl
  | .sequence ps, hp, scope, ask, t, h, ρ, b, k => by
      rw [search, searchScoped]
      simp only [searchSlots_eq ps hp.2 hp.1]
      exact agreeIn_of_eq rfl
  | .except no, hp, scope, ask, t, h, ρ, b, k => by
      rw [search, searchScoped]
      simp only [eq_of_agreeIn (agreeIn_search no hp.2 (fair_default _ _))]
      exact agreeIn_of_eq rfl
  | .exceptThen no p, hp, scope, ask, t, h, ρ, b, k => by
      rw [search, searchScoped]
      simp only [eq_of_agreeIn (agreeIn_search no hp.2.1 (fair_default _ _)),
        eq_of_agreeIn (agreeIn_search p hp.2.2 (fair_default _ _))]
      exact agreeIn_of_eq rfl
  | .call _ head ps, hp, scope, ask, t, h, ρ, b, k => by
      rw [search, searchScoped]
      simp only [eq_of_agreeIn (agreeIn_search head hp.2.1 (fair_default _ _)),
        searchSlots_eq ps hp.2.2 hp.1, searchAnywhere_eq ps hp.2.2 hp.1]
      exact agreeIn_of_eq rfl

theorem agreeIn_searchChoices : ∀ (ps : List Pattern), AllEvery TimelySlots ps →
    ∀ {scope : Option Slot} {ask : SearchM (Option Term)} {t : Term},
    Fair r c scope ask t (anyAsks ps) (timelyChoices ps) → ∀ {ρ : Type} {b : Bindings}
    {k : Bindings → SearchM (Option ρ)},
    AgreeIn scope (searchChoices (r.surroundings c) ps ρ t b k)
      (searchChoicesScoped (r.surroundings c) (r.defaultIn c) ps ask ρ t b k)
  | [], _, scope, ask, t, _, ρ, b, k => by
      rw [searchChoices, searchChoicesScoped]
      exact agreeIn_of_eq rfl
  | p :: ps, hp, scope, ask, t, h, ρ, b, k => by
      obtain ⟨hfirst, hrest⟩ := h.cons
      have hone := @agreeIn_search p hp.1 scope ask t hfirst ρ b k
      rw [searchChoices, searchChoicesScoped]
      obtain hrest | ⟨ht, hidle, hrest⟩ := hrest
      · simp only [eq_of_agreeIn (agreeIn_searchChoices ps hp.2 hrest)]
        exact agreeIn_bind_same hone
      · -- the first one is idle, so the others are tried in the same scope
        intro s hs
        refine Eq.trans ?_ (agreeIn_bind_same hone s hs)
        refine agreeIn_bind (staying_of_idle ht p hidle) (fun a ha => ?_) s hs
        subst ha
        exact agreeIn_searchChoices ps hp.2 hrest

theorem searchSlots_eq : ∀ (ps : List Pattern), AllEvery TimelySlots ps →
    (∀ p ∈ ps, p.timely = true) → ∀ {ρ : Type} {flat : Option Term} {head : Term}
    {count index : Nat} {args : List Term} {b : Bindings}
    {k : Bindings → List Term → SearchM (Option ρ)},
    searchSlots (r.surroundings c) ps ρ flat head count index args b k =
      searchSlotsScoped (r.surroundings c) (r.defaultIn c) ps ρ flat head count index args b k
  | [], _, _, ρ, flat, head, count, index, args, b, k => by rw [searchSlots, searchSlotsScoped]
  | p :: ps, hp, htimely, ρ, flat, head, count, index, args, b, k => by
      obtain ⟨hfirst, hrest⟩ := List.forall_mem_cons.mp htimely
      rw [searchSlots, searchSlotsScoped]
      simp only [searchSlots_eq ps hp.2 hrest, enter_bind_eq
        (agreeIn_search p hp.1 (.inr (.inr (.inr ⟨_, rfl, rfl, hfirst⟩))))]

theorem searchAnywhere_eq : ∀ (ps : List Pattern), AllEvery TimelySlots ps →
    (∀ p ∈ ps, p.timely = true) → ∀ {ρ : Type} {flat : Option Term} {head : Term}
    {count index : Nat} {free : List (Term × Nat)} {b : Bindings}
    {k : Bindings → List (Term × Nat) → SearchM (Option ρ)},
    searchAnywhere (r.surroundings c) ps ρ flat head count index free b k =
      searchAnywhereScoped (r.surroundings c) (r.defaultIn c) ps ρ flat head count index free b k
  | [], _, _, ρ, flat, head, count, index, free, b, k => by
      rw [searchAnywhere, searchAnywhereScoped]
  | p :: ps, hp, htimely, ρ, flat, head, count, index, free, b, k => by
      obtain ⟨hfirst, hrest⟩ := List.forall_mem_cons.mp htimely
      rw [searchAnywhere, searchAnywhereScoped]
      simp only [searchAnywhere_eq ps hp.2 hrest, enter_bind_eq
        (agreeIn_search p hp.1 (.inr (.inr (.inr ⟨_, rfl, rfl, hfirst⟩))))]

end

/-- In a pattern of timely slots, whatever is asked for the default of an argument left out is
asked for the slot it stands in: a search does what the search does that hands its slot down to
each optional argument, and so does the filling of the slots of a call, in order or in any order,
by which a rule rewrites a part of a call. -/
theorem search_eq_searchScoped (r : Evaluator) (c : ContextId) (p : Pattern)
    (hp : p.Every TimelySlots) :
    (∀ (ρ : Type) (t : Term) (b : Bindings) (k : Bindings → SearchM (Option ρ)),
      p.search (r.surroundings c) ρ t b k =
        p.searchScoped (r.surroundings c) (r.defaultIn c) (r.surroundings c).default? ρ t b k) ∧
    ∀ (whole : Term) (head : Pattern) (ps : List Pattern), p = call whole head ps →
      ∀ (ρ : Type) (flat : Option Term) (f : Term) (count index : Nat) (b : Bindings),
        (∀ (xs : List Term) (k : Bindings → List Term → SearchM (Option ρ)),
          searchSlots (r.surroundings c) ps ρ flat f count index xs b k =
            searchSlotsScoped (r.surroundings c) (r.defaultIn c) ps ρ flat f count index xs b k) ∧
        ∀ (free : List (Term × Nat)) (k : Bindings → List (Term × Nat) → SearchM (Option ρ)),
          searchAnywhere (r.surroundings c) ps ρ flat f count index free b k =
            searchAnywhereScoped (r.surroundings c) (r.defaultIn c) ps ρ flat f count index free b
              k := by
  refine ⟨fun ρ t b k => eq_of_agreeIn (agreeIn_search p hp (fair_default _ _)), ?_⟩
  rintro whole head ps rfl ρ flat f count index b
  exact ⟨fun xs k => searchSlots_eq ps hp.2.2 hp.1, fun free k => searchAnywhere_eq ps hp.2.2 hp.1⟩

/-- The bindings of the first match, every implicit default being that of its slot. -/
def matchScoped? (r : Evaluator) (c : ContextId) (subject pattern : Term) :
    EvalM (Option Bindings) :=
  ((ofTerm pattern).searchScoped (r.surroundings c) (r.defaultIn c) (r.surroundings c).default?
    Bindings subject .empty fun b => pure (some b)).run' {}

/-- A new kernel in which an argument left out of a list has the default 5. -/
def defaultKernel : Kernel :=
  ((setDefault .list (.app .defaultValue [.symbol .list]) (.int 5)).run newKernel).2

/-- A new kernel in which the first of two arguments of a list has the default `True` and the second
one the default 0. -/
def placesKernel : Kernel :=
  ((do
    setDefault .list (.app .defaultValue [.symbol .list, .int 1, .int 2]) (.symbol .isTrue)
    setDefault .list (.app .defaultValue [.symbol .list, .int 2, .int 2]) (.int 0)).run newKernel).2

/-- `{7 | Optional(x_)}` matches `{}` by looking up the default of the slot of the list, and binds
`x` to 5. -/
theorem search_eq_searchScoped_list :
    (still.match? ⟨0⟩ (.app .list []) (.app .list [.app .alternatives [.int 7,
      .app .optional [.app .pattern [.symbol ⟨40, "x"⟩, .app .blank []]]]])).run defaultKernel =
        (still.matchScoped? ⟨0⟩ (.app .list []) (.app .list [.app .alternatives [.int 7,
          .app .optional [.app .pattern [.symbol ⟨40, "x"⟩, .app .blank []]]]])).run
            defaultKernel ∧
      ((still.matchScoped? ⟨0⟩ (.app .list []) (.app .list [.app .alternatives [.int 7,
        .app .optional [.app .pattern [.symbol ⟨40, "x"⟩, .app .blank []]]]])).run
          defaultKernel).1 = .ok (some ⟨[(⟨40, "x"⟩, .int 5)]⟩) := by
  constructor
  · unfold match? Pattern.match? matchScoped?
    rw [(search_eq_searchScoped still ⟨0⟩ _ (by decide)).1]
  · rfl

/-- After a pattern sequence that was tried and given up, the default is looked up for a slot of
that sequence: `{PatternSequence(Optional(True, 1)) | Optional(_)}` does not match `{}`.  After an
alternative that went on to the next slot, it is looked up for that slot:
`{___ | Optional(x_), _ /; x}` does not match `{1}` although the default of the first slot is
`True`. -/
theorem match?_default_of_other_slot :
    (((still.match? ⟨0⟩ (.app .list []) (.app .list [.app .alternatives [
        .app .patternSequence [.app .optional [.symbol .isTrue, .int 1]],
        .app .optional [.app .blank []]]])).run defaultKernel).1.toOption.map Option.isSome =
          some false ∧
      ((still.matchScoped? ⟨0⟩ (.app .list []) (.app .list [.app .alternatives [
        .app .patternSequence [.app .optional [.symbol .isTrue, .int 1]],
        .app .optional [.app .blank []]]])).run defaultKernel).1.toOption.map Option.isSome =
          some true) ∧
    ((still.match? ⟨0⟩ (.app .list [.int 1]) (.app .list [.app .alternatives [
        .app .blankNullSequence [],
        .app .optional [.app .pattern [.symbol ⟨40, "x"⟩, .app .blank []]]],
      .app .condition [.app .blank [], .symbol ⟨40, "x"⟩]])).run placesKernel).1.toOption.map
        Option.isSome = some false ∧
      ((still.matchScoped? ⟨0⟩ (.app .list [.int 1]) (.app .list [.app .alternatives [
        .app .blankNullSequence [],
        .app .optional [.app .pattern [.symbol ⟨40, "x"⟩, .app .blank []]]],
      .app .condition [.app .blank [], .symbol ⟨40, "x"⟩]])).run placesKernel).1.toOption.map
        Option.isSome = some true := by
  decide +kernel

end Evaluator

end Termwise
