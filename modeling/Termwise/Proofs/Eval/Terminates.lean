import Termwise.Eval.Evaluate
import Termwise.Proofs.Eval.Match
import Termwise.Proofs.Eval.Native
import Termwise.Proofs.Rule.History

/-!
# Termwise.Proofs.Eval.Terminates

Evaluation ends.  In a plain kernel the fuel that evaluation uses up is bounded by the
recursion limit alone: three units for each level of calls (evaluate a call, rewrite it
with a rule, rewrite with a default value that the rule asks for) and two more.  The
rewritings of one term are bounded by the iteration limit and one more.

It has to be plain: a symbol with a rule that tests the symbol itself is evaluated
without end, since no call is entered on the way (`Kernel.AsksItself`).
-/

namespace Termwise

/-! ## room for calls -/

/-- A context of a plain kernel in which calls may be nested a number of levels deeper, at most. -/
structure Kernel.Room (k : Kernel) (c : ContextId) (levels : Nat) : Prop where
  context : c.index < k.contexts.size
  limit : k.config.maxRecursion ≤ k.depth c + levels
  plain : k.Plain

theorem Kernel.Room.keeps {k k' : Kernel} {c : ContextId} {levels : Nat} (h : k.Room c levels)
    (hk : k.Keeps k') : k'.Room c levels where
  context := Nat.lt_of_lt_of_le h.context hk.size
  limit := by rw [hk.config, hk.depth c h.context]; exact h.limit
  plain := hk.plain h.plain

/-- Inside a call there is one level less. -/
theorem Kernel.Room.enter {k : Kernel} {c : ContextId} {levels : Nat} (h : k.Room c (levels + 1)) :
    (k.enter c).Room c levels where
  context := by simpa [Kernel.enter, Kernel.updateContext] using h.context
  limit := by
    have hlimit := h.limit
    have hdepth := Kernel.depth_enter h.context
    change k.config.maxRecursion ≤ _
    omega
  plain := h.plain.of_symbols_eq rfl

/-- A child has as much room as its parent. -/
theorem Kernel.Room.spawnChild {k : Kernel} {c : ContextId} {levels : Nat} (h : k.Room c levels) :
    (k.spawnChild c).2.Room (k.spawnChild c).1 levels := by
  obtain ⟨hkeeps, hindex, hdepth⟩ := k.keeps_spawnChild c
  exact ⟨hindex, by rw [hkeeps.config, hdepth]; exact h.limit, hkeeps.plain h.plain⟩

/-- Fuel does not run out, and the kernel is left as by an evaluation that has ended. -/
def ending : Contract where
  Ok := Kernel.Keeps
  Fails e k k' := e ≠ .outOfFuel ∧ k.Keeps k'
  refl := .refl
  trans := .trans
  trans_fails h h' := ⟨h'.1, h.trans h'.2⟩

/-- Evaluation starts where there is room for so many levels of calls. -/
def rooms (levels : Nat) : ending.Scope where
  From c k := k.Room c levels
  keeps h hk := h.keeps hk

theorem lenient_rooms (levels : Nat) : (rooms levels).Lenient :=
  .of_stays (fun h => h.keeps) (fun h => h.2) (fun h k => ⟨h.1, .refl k⟩)
    (fun hfuel _ k => ⟨hfuel, .refl k⟩) fun h => ⟨(Kernel.keeps_spawnChild _ _).1, h.spawnChild⟩

theorem resets_rooms (levels : Nat) (c : ContextId) : (rooms levels).Resets c := fun _ _ hleaves =>
  (lenient_rooms levels).leaves hleaves (Kernel.stays_setLimitReported _ c false).keeps

/-- Two actions do the same from a kernel on; fuel does not run out, and the kernel is left as by an
evaluation that has ended. -/
def EvalM.AgreeFrom {α : Type} (k : Kernel) (x y : EvalM α) : Prop := ending.AgreeFrom k x y

namespace EvalM

variable {α : Type} {k : Kernel} {x y : EvalM α}

theorem AgreeFrom.run_eq (h : AgreeFrom k x y) : y.run k = x.run k := Contract.AgreeFrom.run_eq h

theorem AgreeFrom.ne_outOfFuel (h : AgreeFrom k x y) : (x.run k).1 ≠ .error .outOfFuel := by
  have hleaves := Contract.AgreeFrom.leaves h
  intro hfuel
  rw [hfuel] at hleaves
  exact hleaves.1 rfl

theorem AgreeFrom.keeps (h : AgreeFrom k x y) : k.Keeps (x.run k).2 := by
  have hleaves := Contract.AgreeFrom.leaves h
  cases hresult : (x.run k).1 with
  | ok a => rwa [hresult] at hleaves
  | error e =>
      rw [hresult] at hleaves
      exact hleaves.2

/-- An action inside a call. -/
theorem AgreeFrom.inCall {c : ContextId} (hc : c.index < k.contexts.size)
    (h : AgreeFrom (k.enter c) x y) :
    AgreeFrom k (do modify fun k => k.enter c; x.ensuring fun k => k.leave c)
      (do modify fun k => k.enter c; y.ensuring fun k => k.leave c) :=
  Contract.AgreeFrom.inCall h fun result k' hleaves => by
    cases result with
    | ok a => exact Kernel.Keeps.of_enter hc hleaves
    | error e => exact ⟨hleaves.1, hleaves.2.of_enter hc⟩

/-- Adding a plain rule keeps rules plain. -/
theorem agreeFrom_insertRule {s : Symbol} {mode : AccessMode} {cache : RuleCache} {rule : Rule}
    (hrule : cache.Plain rule.lhs rule.rhs) :
    AgreeFrom k (insertRule s mode cache rule) (insertRule s mode cache rule) := by
  refine (lenient_rooms 0).calm_changeRules (fun k opened hopen => ?_)
    (fun k store k' hopen => ?_) k
  · exact (Kernel.stays_openRules hopen).1.keeps
  · refine ((Kernel.stays_putRules k' (Kernel.not_gone_of_openRules hopen) cache
      fun hk => ?_).trans (Kernel.stays_bump _)).keeps
    exact ((Kernel.stays_openRules hopen).2 store cache rfl hk).insert hrule

end EvalM

/-- A form that a search can settle asks for no implicit default. -/
theorem Pattern.Settled.asks {tests : Prop} {p : Pattern} (h : Pattern.Settled tests p) :
    Pattern.Asks tests False p := by
  unfold Pattern.Settled at h
  unfold Pattern.Asks
  split at h <;> simp_all

namespace Evaluator

open EvalM

variable {r r' : Evaluator} {c : ContextId} {levels : Nat}

/-! ## calls -/

/-- Refusing a call uses no fuel. -/
theorem agreeFrom_refuse_room (c : ContextId) (k : Kernel) (call : Term) :
    EvalM.AgreeFrom k (refuse c call) (refuse c call) :=
  agreeFrom_refuse ((lenient_rooms 0).hosts c) (fun _ => ⟨nofun, .refl k⟩)
    (fun _ args => (k.stays_reportLimit c args).keeps) call

/-- Where no call may be entered, calls are refused. -/
theorem alike_evaluateCall_zero (r r' : Evaluator) (c : ContextId) (call : Term) :
    ((rooms 0).agreeing c).Alike (r.evaluateCall c call) (r'.evaluateCall c call) := by
  refine Contract.alike_get fun k hk => AgreeFrom.inCall hk.context (Contract.AgreeFrom.get ?_)
  have hbeyond : (k.enter c).config.maxRecursion < (k.enter c).depth c := by
    rw [Kernel.depth_enter hk.context]
    exact Nat.lt_succ_of_le hk.limit
  rw [if_pos hbeyond, if_pos hbeyond]
  exact agreeFrom_refuse_room c _ call

/-- In a plain kernel native code does the same with evaluators that agree. -/
theorem codeAlike_rooms (h : r.AgreesIn (rooms levels) r') (c : ContextId) :
    CodeAlike (rooms levels) r r' c := fun k hk s usage code hget call =>
  h.run (lenient_rooms levels) c
    (fun kind hkind => (hk.plain.code s usage kind (by rw [hget, hkind])).elim) call k hk

/-- Inside a call there is one level less. -/
theorem alike_evaluateCall_succ (h : r.AgreesIn (rooms levels) r') (c : ContextId) (call : Term) :
    ((rooms (levels + 1)).agreeing c).Alike (r.evaluateCall c call) (r'.evaluateCall c call) := by
  refine Contract.alike_get fun k hk => AgreeFrom.inCall hk.context (Contract.AgreeFrom.get ?_)
  split
  · exact agreeFrom_refuse_room c _ call
  · exact h.evaluateEntered ((lenient_rooms levels).hosts c) (codeAlike_rooms h c) hk.enter call

/-! ## levels -/

theorem rules_rooms (levels : Nat) (c : ContextId) (cache : RuleCache) :
    Callees.Rules ((rooms levels).From c) cache cache.Plain := fun _ hk _ _ hlist =>
  hk.plain.rules? hlist

/-- Rules for symbols themselves evaluate nothing. -/
theorem alike_rewriteWith_own {C : Contract} {S : C.Scope} (hosts : S.Hosts c) (r r' : Evaluator)
    {lhs rhs : Term} (h : RuleCache.own.Plain lhs rhs) (t : Term) :
    (S.agreeing c).Alike (r.rewriteWith c lhs rhs t) (r'.rewriteWith c lhs rhs t) := by
  obtain ⟨hlhs, hrhs⟩ := h
  have hcallees := alike_callees hosts r r'
  have hasks : (Pattern.ofTerm lhs).Every (Pattern.Asks False False) :=
    hlhs.imp fun p => Pattern.Settled.asks
  exact Callees.alike_rewriteWith (Callees.alike_surroundings hcallees False.elim False.elim)
    hcallees.share hasks (by simp [hrhs]) t

theorem rewritesAlike_own (c : ContextId) (levels fuel fuel' : Nat) :
    RewritesAlike (rooms levels) (ofFuel (fuel + 1)) (ofFuel (fuel' + 1)) c
      RuleCache.own.Plain := fun _ _ t h =>
  alike_rewriteWith_own ((lenient_rooms levels).hosts c) (ofFuel fuel) (ofFuel fuel') h t

/-- Default values evaluate tests at most. -/
theorem rewritesAlike_default {fuel fuel' : Nat}
    (h : ∀ t, ((rooms levels).agreeing c).Alike (evaluateWith fuel c t) (evaluateWith fuel' c t)) :
    RewritesAlike (rooms levels) (ofFuel (fuel + 1)) (ofFuel (fuel' + 1)) c
      RuleCache.default.Plain := by
  intro lhs rhs t hlhs
  have hcallees := alike_callees ((lenient_rooms levels).hosts c) (ofFuel fuel) (ofFuel fuel')
  have hasks : (Pattern.ofTerm lhs).Every (Pattern.Asks True False) :=
    Pattern.Every.imp (fun p => Pattern.Settled.asks) hlhs
  exact Callees.alike_rewriteWith (Callees.alike_surroundings hcallees (fun _ => h) False.elim)
    hcallees.share hasks (fun _ => trivial) t

/-- A rewriting evaluates tests and looks up defaults. -/
theorem alike_rewriteWith_ofFuel {fuel fuel' : Nat}
    (h : ∀ t, ((rooms levels).agreeing c).Alike (evaluateWith fuel c t) (evaluateWith fuel' c t))
    (h' : ∀ t, ((rooms levels).agreeing c).Alike (evaluateWith (fuel + 1) c t)
      (evaluateWith (fuel' + 1) c t)) (lhs rhs t : Term) :
    ((rooms levels).agreeing c).Alike (Termwise.rewriteWith (fuel + 2) c lhs rhs t)
      (Termwise.rewriteWith (fuel' + 2) c lhs rhs t) := by
  have hcallees := alike_callees ((lenient_rooms levels).hosts c) (ofFuel (fuel + 1))
    (ofFuel (fuel' + 1))
  have hdefault := Callees.alike_default? hcallees (rewritesAlike_default h)
    (rules_rooms levels c .default)
  have he := Callees.alike_surroundings hcallees (fun _ : True => h') fun _ : True => hdefault
  exact Callees.alike_rewriteWith he hcallees.share (Pattern.every_asks_ofTerm lhs)
    (fun _ => trivial) t

/-- With room for so many levels of calls, three units of fuel for each of them and two more are
as good as any more fuel. -/
theorem alike_evaluateWith (levels fuel fuel' : Nat) (hfuel : 3 * levels + 2 ≤ fuel)
    (hfuel' : 3 * levels + 2 ≤ fuel') (c : ContextId) (t : Term) :
    ((rooms levels).agreeing c).Alike (evaluateWith fuel c t) (evaluateWith fuel' c t) := by
  have hosts := (lenient_rooms levels).hosts c
  have hown := rules_rooms levels c .own
  induction levels generalizing fuel fuel' c t with
  | zero =>
      obtain ⟨f, rfl⟩ : ∃ f, fuel = f + 1 + 1 := ⟨fuel - 2, by omega⟩
      obtain ⟨f', rfl⟩ : ∃ f', fuel' = f' + 1 + 1 := ⟨fuel' - 2, by omega⟩
      exact alike_evaluateFully hosts (rewritesAlike_own c 0 f f') hown
        (alike_evaluateCall_zero _ _ c) (resets_rooms 0 c) t
  | succ levels ih =>
      obtain ⟨f, rfl⟩ : ∃ f, fuel = f + 2 + 1 := ⟨fuel - 3, by omega⟩
      obtain ⟨f', rfl⟩ : ∃ f', fuel' = f' + 2 + 1 := ⟨fuel' - 3, by omega⟩
      have ih := fun fuel fuel' hfuel hfuel' c t => ih fuel fuel' hfuel hfuel' c t
        ((lenient_rooms levels).hosts c) (rules_rooms levels c .own)
      have hinside : AgreesIn (rooms levels) (ofFuel (f + 2)) (ofFuel (f' + 2)) :=
        { evaluate := fun c t => ih (f + 2) (f' + 2) (by omega) (by omega) c t
          rewrite := fun c lhs rhs t => alike_rewriteWith_ofFuel
            (fun t => ih f f' (by omega) (by omega) c t)
            (fun t => ih (f + 1) (f' + 1) (by omega) (by omega) c t) lhs rhs t }
      exact alike_evaluateFully hosts (rewritesAlike_own c _ (f + 1) (f' + 1)) hown
        (alike_evaluateCall_succ hinside c) (resets_rooms _ c) t

/-! ## rewritings -/

/-- So many rounds in a row that rewrite, each one what the one before it left. -/
inductive Rewritings (r : Evaluator) (c : ContextId) : Nat → Term × Kernel → Term × Kernel → Prop
  /-- No round. -/
  | none (p : Term × Kernel) : Rewritings r c 0 p p
  /-- One round more, in front. -/
  | round {n : Nat} {t next : Term} {k k' : Kernel} {p : Term × Kernel} :
    (r.evaluateRound c t).run k = (.ok (.rewritten next), k') →
      Rewritings r c n (next, k') p → Rewritings r c (n + 1) (t, k) p

/-- What an evaluation answers when its last round came out so; nothing if that was not the last. -/
def answer? : Except EvalError Step → Option (Except EvalError Term)
  | .ok (.done value) => some (.ok value)
  | .ok (.rewritten _) => none
  | .error e => some (.error e)

/-- A round with an answer is the last one. -/
theorem run_evaluateRounds_of_answer? {t : Term} {k : Kernel} {answer : Except EvalError Term}
    (h : answer? ((r.evaluateRound c t).run k).1 = some answer) (left : Nat) :
    ((r.evaluateRounds c left t).run k).1 = answer := by
  rcases hround : (r.evaluateRound c t).run k with ⟨result, k'⟩
  rw [hround] at h
  cases left <;> rw [evaluateRounds]
  all_goals
    cases result with
    | error e =>
        rw [run_bind_error hround]
        exact Option.some.inj h
    | ok step =>
        cases step with
        | done value =>
            rw [run_bind_ok hround]
            exact Option.some.inj h
        | rewritten next => cases h

theorem exists_of_answer?_eq_none {t : Term} {k : Kernel}
    (h : answer? ((r.evaluateRound c t).run k).1 = none) :
    ∃ next k', (r.evaluateRound c t).run k = (.ok (.rewritten next), k') := by
  rcases hround : (r.evaluateRound c t).run k with ⟨result, k'⟩
  rw [hround] at h
  rcases result with e | value | next
  · cases h
  · cases h
  · exact ⟨next, k', rfl⟩

/-- How rounds end that have so many rewritings left: with the answer of a round, or, after one
rewriting too many, with the term held. -/
theorem rewritings_evaluateRounds (r : Evaluator) (c : ContextId) (left : Nat) (t : Term)
    (k : Kernel) :
    ∃ n t' k', Rewritings r c n (t, k) (t', k') ∧
      ((n ≤ left ∧ answer? ((r.evaluateRound c t').run k').1 =
          some ((r.evaluateRounds c left t).run k).1) ∨
        (n = left + 1 ∧ ∃ held, ((r.evaluateRounds c left t).run k).1 = .ok held ∧
          (held == .app .hold [t']) = true)) := by
  induction left generalizing t k with
  | zero =>
      cases hanswer : answer? ((r.evaluateRound c t).run k).1 with
      | some answer =>
          refine ⟨0, t, k, .none _, .inl ⟨Nat.le_refl 0, ?_⟩⟩
          rw [hanswer, run_evaluateRounds_of_answer? hanswer]
      | none =>
          obtain ⟨next, k₁, hround⟩ := exists_of_answer?_eq_none hanswer
          refine ⟨1, next, k₁, .round hround (.none _), .inr ⟨rfl, ?_⟩⟩
          rw [evaluateRounds, run_bind_ok hround]
          exact ⟨_, rfl, (Term.beq_iff_strip _ _).mpr (Term.strip_share _ _)⟩
  | succ left ih =>
      cases hanswer : answer? ((r.evaluateRound c t).run k).1 with
      | some answer =>
          refine ⟨0, t, k, .none _, .inl ⟨Nat.zero_le _, ?_⟩⟩
          rw [hanswer, run_evaluateRounds_of_answer? hanswer]
      | none =>
          obtain ⟨next, k₁, hround⟩ := exists_of_answer?_eq_none hanswer
          obtain ⟨n, t', k', hrewritings, hend⟩ := ih next k₁
          refine ⟨n + 1, t', k', .round hround hrewritings, ?_⟩
          rw [evaluateRounds, run_bind_ok hround]
          exact hend.imp (fun h => ⟨Nat.succ_le_succ h.1, h.2⟩) fun h => ⟨by rw [h.1], h.2⟩

theorem run_evaluateFully (r : Evaluator) (c : ContextId) (t : Term) (k : Kernel) :
    ((r.evaluateFully c t).run k).1 =
      ((r.evaluateRounds c k.config.maxIterations t).run k).1 := by
  change ((if k.depth c = 0 then EvalM.ensuring _ _ else _ : EvalM Term).run k).1 = _
  split <;> rfl

end Evaluator

/-! ## evaluations end -/

/-- In a plain kernel every evaluation ends: it comes out alike with all fuel from an amount on that
depends on the recursion limit alone.  And whatever is evaluated on the way, by whatever evaluator,
is rewritten at most once more often than the iteration limit says. -/
theorem Kernel.Plain.evaluateWith_ends {k : Kernel} {c : ContextId} (hk : k.Plain)
    (hc : c.index < k.contexts.size) (t : Term) :
    (∃ result k', result ≠ .error .outOfFuel ∧ ∀ fuel, 3 * k.config.maxRecursion + 2 ≤ fuel →
        (evaluateWith fuel c t).run k = (result, k')) ∧
      ∀ (r : Evaluator) (c' : ContextId) (t₀ : Term) (k₀ : Kernel), ∃ n t' k',
        r.Rewritings c' n (t₀, k₀) (t', k') ∧
          ((n ≤ k₀.config.maxIterations ∧ Evaluator.answer? ((r.evaluateRound c' t').run k').1 =
              some ((r.evaluateFully c' t₀).run k₀).1) ∨
            (n = k₀.config.maxIterations + 1 ∧
              ∃ held, ((r.evaluateFully c' t₀).run k₀).1 = .ok held ∧
                (held == .app .hold [t']) = true)) := by
  constructor
  · have hroom : k.Room c k.config.maxRecursion := ⟨hc, Nat.le_add_left _ _, hk⟩
    have hagree : ∀ fuel, 3 * k.config.maxRecursion + 2 ≤ fuel → EvalM.AgreeFrom k
        (evaluateWith (3 * k.config.maxRecursion + 2) c t) (evaluateWith fuel c t) :=
      fun fuel hfuel =>
        Evaluator.alike_evaluateWith _ _ fuel (Nat.le_refl _) hfuel c t k hroom
    exact ⟨_, _, (hagree _ (Nat.le_refl _)).ne_outOfFuel,
      fun fuel hfuel => (hagree fuel hfuel).run_eq⟩
  · intro r c' t₀ k₀
    rw [Evaluator.run_evaluateFully]
    exact Evaluator.rewritings_evaluateRounds r c' _ t₀ k₀

/-- A new kernel with one context, and with symbols `x`, `y` and `z`. -/
def namedKernel (config : Config) : Kernel :=
  (((Kernel.new config).newRoot.2.addSymbol "x").addSymbol "y").addSymbol "z"

theorem intern_eq_namedKernel (config : Config) :
    ((((Kernel.new config).newRoot.2.intern "x").2.intern "y").2.intern "z").2 =
      namedKernel config := by
  have hnew : ∀ name ∈ ["x", "y", "z"], (Kernel.new config).newRoot.2.lookup? name = none := by
    change ∀ name ∈ ["x", "y", "z"], (Symbol.system.map fun s => (s.name, s)).lookup name = none
    decide
  exact Kernel.foldl_intern_of_lookup?_eq_none (by decide) hnew

/-- The kernel with two levels for calls and three rewritings, after `x(y_) :> {x(y)}`. -/
def growingKernel : Kernel :=
  let k := namedKernel { maxRecursion := 2, maxIterations := 3 }
  let x : Term := .symbol ⟨38, "x"⟩
  let y : Term := .symbol ⟨39, "y"⟩
  ((insertRule ⟨38, "x"⟩ .write .down (.make k.attributes
    (.node 0 x [.app .pattern [y, .app .blank []]]) (.app .list [.node 0 x [y]]) .delayed)).run k).2

theorem plain_growingKernel : growingKernel.Plain := by
  have hnamed : (namedKernel { maxRecursion := 2, maxIterations := 3 }).Plain := by
    rw [← intern_eq_namedKernel]
    refine Kernel.Keeps.plain ?_ (Kernel.plain_new { maxRecursion := 2, maxIterations := 3 })
    exact (Kernel.keeps_newRoot _).trans ((Kernel.stays_intern _ "x").trans
      ((Kernel.stays_intern _ "y").trans (Kernel.stays_intern _ "z"))).keeps
  have hrule : ∀ lhs rhs, RuleCache.down.Plain lhs rhs := fun _ _ => trivial
  exact (EvalM.agreeFrom_insertRule (hrule _ _)).keeps.plain hnamed

/-- Eight units of fuel are enough for `x(1)`, although its evaluation is nested without end but for
the recursion limit. -/
theorem evaluateWith_ends_growing : ∃ result k', result ≠ .error .outOfFuel ∧
    ∀ fuel, 8 ≤ fuel → (evaluateWith fuel ⟨0⟩ (.node 0 (.symbol ⟨38, "x"⟩) [.int 1])).run
      growingKernel = (result, k') :=
  (plain_growingKernel.evaluateWith_ends (c := ⟨0⟩) (by decide)
    (.node 0 (.symbol ⟨38, "x"⟩) [.int 1])).1

/-! ## an evaluation without end -/

/-- `body /; s`. -/
def Term.provided (body : Term) (id : Nat) (s : Symbol) : Term :=
  .node id (.symbol .condition) [body, .symbol s]

/-- A symbol has neither value nor rules but one, to rewrite to a term if the symbol itself
evaluates to `True`. -/
structure Kernel.AsksItself (k : Kernel) (c : ContextId) (s : Symbol) (body : Term) : Prop where
  live : (k.record s).removed = false
  unbound : (k.localValue? c s).or (k.value? s) = none
  rules : ∃ attrs id, k.rules? s .own =
    some (RuleList.empty.insert (.make attrs (.symbol s) (body.provided id s) .delayed))
  quiet : k.Quiet c

theorem Kernel.AsksItself.elapse {k : Kernel} {c : ContextId} {s : Symbol} {body : Term}
    (h : k.AsksItself c s body) (n : Nat) : (k.elapse n).AsksItself c s body :=
  ⟨h.live, h.unbound, h.rules, h.quiet.elapse n⟩

theorem Kernel.AsksItself.share {k : Kernel} {c : ContextId} {s : Symbol} {body : Term}
    (h : k.AsksItself c s body) (t : Term) : (k.share t).2.AsksItself c s body :=
  ⟨h.live, h.unbound, h.rules, h.quiet.share t⟩

/-- The one candidate for a symbol in a list of one rule with a test. -/
theorem RuleList.candidates_provided (attrs attrs' : Symbol → Attributes) (epoch : Nat)
    (s : Symbol) (body : Term) (id : Nat) :
    let r : Rule := .make attrs (.symbol s) (body.provided id s) .delayed
    ((empty.insert r).ready attrs' epoch (.symbol s)).candidates (.symbol s) = [r] := by
  intro r
  have hdispatch : r.dispatch = some (.symbol s) := rfl
  have hinsert : empty.insert r = ⟨[], [r], 1, none⟩ := rfl
  simp [hinsert, hdispatch, ready, candidates, needsTable, prepared, makeTable, constant?, isEmpty,
    DispatchTable.candidates, DispatchTable.addKey, DispatchTable.merge, Term.key]

namespace Evaluator

open EvalM

variable {r : Evaluator} {c : ContextId} {s : Symbol} {body : Term}

/-- A live symbol has its value, or else what its own rules say. -/
theorem run_evaluateSymbol {k : Kernel} (r : Evaluator) (c : ContextId)
    (hlive : (k.record s).removed = false) :
    (r.evaluateSymbol c s).run k =
      match (k.localValue? c s).or (k.value? s) with
      | some value => (.ok (some value), k)
      | none => (r.findRule? c s .own (.symbol s)).run k := by
  have hget : (get : EvalM Kernel).run k = (.ok k, k) := rfl
  rw [evaluateSymbol, run_bind_ok hget, if_neg (by simp [hlive])]
  cases (k.localValue? c s).or (k.value? s) <;> rfl

/-- The action runs out of fuel in every kernel in which the symbol asks itself. -/
def Starves {α : Type} (c : ContextId) (s : Symbol) (body : Term) (x : EvalM α) : Prop :=
  ∀ k : Kernel, k.AsksItself c s body → ∃ k', x.run k = (.error .outOfFuel, k')

/-- Rewriting evaluates the symbol for the test. -/
theorem starves_rewriteWith (h : Starves c s body (r.evaluate c (.symbol s))) (id : Nat) :
    Starves c s body (r.rewriteWith c (.symbol s) (body.provided id s) (.symbol s)) := by
  intro k hk
  obtain ⟨s₁, k₁, hk₁, htick⟩ : ∃ s₁ k₁, k₁.AsksItself c s body ∧
      ((r.surroundings c).tick.run {}).run k = (.ok ((), s₁), k₁) := by
    by_cases hpoll : (0 + 1) % max 1 k.config.pollInterval = 0
    · exact ⟨_, _, hk.elapse _,
        (run_tick_poll hpoll).trans (SearchM.run_lift_ok _ (run_checkAbort hk.quiet))⟩
    · exact ⟨_, k, hk, run_tick_skip hpoll⟩
  obtain ⟨k', htest⟩ := h k₁ hk₁
  have hright : ((Rule.instantiate (r.surroundings c) (body.provided id s) .empty).run s₁).run k₁ =
      (.error .outOfFuel, k') :=
    SearchM.run_bind_error (SearchM.run_bind_error (SearchM.run_lift_error s₁ htest))
  have hsearch : (((Pattern.ofTerm (.symbol s)).search (r.surroundings c) Term (.symbol s) .empty
      (Rule.instantiate (r.surroundings c) (body.provided id s))).run {}).run k =
        (.error .outOfFuel, k') := by
    have hequal : (Term.symbol s).single?.any (· == .symbol s) = true :=
      beq_self_eq_true (Term.symbol s)
    refine (SearchM.run_bind_ok htick).trans ?_
    rw [Pattern.guardM, if_pos hequal]
    exact hright
  exact ⟨k', run_bind_error (run_bind_error (SearchM.run_bind_error hsearch))⟩

/-- Evaluating the symbol tries its one rule. -/
theorem starves_evaluateRound
    (h : ∀ id, Starves c s body (r.rewrite c (.symbol s) (body.provided id s) (.symbol s))) :
    Starves c s body (r.evaluateRound c (.symbol s)) := by
  intro k hk
  let k₁ := ((k.elapse Kernel.lookTime).share (.symbol s)).2
  have hk₁ : k₁.AsksItself c s body := (hk.elapse _).share _
  have hget : (get : EvalM Kernel).run k₁ = (.ok k₁, k₁) := rfl
  have hshare : (share (.symbol s)).run (k.elapse Kernel.lookTime) = (.ok (.symbol s), k₁) := rfl
  obtain ⟨attrs, id, hrules⟩ := hk₁.rules
  obtain ⟨k', hrewrite⟩ := h id k₁ hk₁
  have hsymbol : (r.evaluateSymbol c s).run k₁ = (.error .outOfFuel, k') := by
    rw [run_evaluateSymbol r c hk₁.live, hk₁.unbound]
    dsimp only
    rw [findRule?, run_bind_ok hget, hrules]
    dsimp only
    rw [run_find?, RuleList.find?]
    change ((RuleList.candidates _ _).findSomeM? _ : EvalM (Option Term)).run _ = _
    rw [RuleList.candidates_provided]
    exact run_bind_error hrewrite
  refine ⟨k', ?_⟩
  rw [evaluateRound, run_bind_ok (run_checkAbort hk.quiet), run_bind_ok hshare]
  exact run_bind_error hsymbol

theorem starves_evaluateFully
    (h : ∀ id, Starves c s body (r.rewrite c (.symbol s) (body.provided id s) (.symbol s))) :
    Starves c s body (r.evaluateFully c (.symbol s)) := by
  intro k hk
  obtain ⟨k', hround⟩ := starves_evaluateRound h k hk
  have hanswer : answer? ((r.evaluateRound c (.symbol s)).run k).1 = some (.error .outOfFuel) := by
    rw [hround, answer?]
  have hfully := (run_evaluateFully r c (.symbol s) k).trans
    (run_evaluateRounds_of_answer? hanswer k.config.maxIterations)
  exact ⟨_, Prod.ext hfully rfl⟩

/-- No amount of fuel is enough for a symbol that asks itself. -/
theorem starves_ofFuel (fuel : Nat) : Starves c s body ((ofFuel fuel).evaluate c (.symbol s)) ∧
    ∀ id, Starves c s body
      ((ofFuel fuel).rewrite c (.symbol s) (body.provided id s) (.symbol s)) := by
  induction fuel with
  | zero => exact ⟨fun k _ => ⟨k, rfl⟩, fun _ k _ => ⟨k, rfl⟩⟩
  | succ fuel ih => exact ⟨starves_evaluateFully ih.2, starves_rewriteWith ih.1⟩

/-- A symbol whose value is another one is rewritten to that. -/
theorem run_evaluateRound_of_value {k : Kernel} {s' : Symbol} (r : Evaluator)
    (hquiet : k.Quiet c) (hlive : (k.record s).removed = false)
    (hvalue : (k.localValue? c s).or (k.value? s) = some (.symbol s')) (hne : s' ≠ s) :
    (r.evaluateRound c (.symbol s)).run k = (.ok (.rewritten (.symbol s')),
      (((k.elapse Kernel.lookTime).share (.symbol s)).2.share (.symbol s')).2) := by
  let k₁ := ((k.elapse Kernel.lookTime).share (.symbol s)).2
  have hlive₁ : (k₁.record s).removed = false := hlive
  have hvalue₁ : (k₁.localValue? c s).or (k₁.value? s) = some (.symbol s') := hvalue
  have hsymbol : (r.evaluateSymbol c s).run k₁ = (.ok (some (.symbol s')), k₁) := by
    rw [run_evaluateSymbol r c hlive₁, hvalue₁]
  have hstep : (pure (Step.rewritten (.symbol s')) : EvalM Step).run k₁ =
      (.ok (.rewritten (.symbol s')), k₁) := rfl
  have hshare : (share (.symbol s)).run (k.elapse Kernel.lookTime) = (.ok (.symbol s), k₁) := rfl
  have hshare' : (share (.symbol s')).run k₁ = (.ok (.symbol s'), (k₁.share (.symbol s')).2) := rfl
  have hchanged : ¬ (Term.symbol s' == Term.symbol s) = true := fun h => hne (beq_iff_eq.mp h)
  rw [evaluateRound, run_bind_ok (run_checkAbort hquiet), run_bind_ok hshare]
  refine (run_bind_ok hsymbol).trans ((run_bind_ok hstep).trans ((run_bind_ok hshare').trans ?_))
  rw [if_neg hchanged]
  rfl

end Evaluator

theorem reached_namedKernel (config : Config) : Reached (namedKernel config) .empty := by
  rw [← intern_eq_namedKernel]
  exact .kernel (.intern "z") (.kernel (.intern "y") (.kernel (.intern "x")
    (.kernel .context (.new config))))

/-- The kernel after `x := y` and `y := z`. -/
def chainKernel : Kernel :=
  let k := namedKernel { maxIterations := 1 }
  let k := (k.updateRecord ⟨38, "x"⟩ fun r => { r with value := some (.symbol ⟨39, "y"⟩) }).bump
  (k.updateRecord ⟨39, "y"⟩ fun r => { r with value := some (.symbol ⟨40, "z"⟩) }).bump

/-- After `x :> 1 /; x` the evaluation of `x` is nested without end, whatever the limits.  And with
one rewriting allowed, after `x := y` and `y := z`, two of them are made before `x` is held. -/
theorem evaluation_without_end :
    (∃ k, Reached k .empty ∧ 0 < k.config.maxRecursion ∧ 0 < k.config.maxIterations ∧
      ∀ fuel, ∃ k', (evaluateWith fuel ⟨0⟩ (.symbol ⟨38, "x"⟩)).run k =
        (.error .outOfFuel, k')) ∧
    ∃ k, Reached k .empty ∧ k.config.maxIterations = 1 ∧
      (∀ r : Evaluator, ∃ k', r.Rewritings ⟨0⟩ 2 (.symbol ⟨38, "x"⟩, k) (.symbol ⟨40, "z"⟩, k')) ∧
      ∃ held, (∀ fuel, ((evaluateWith (fuel + 1) ⟨0⟩ (.symbol ⟨38, "x"⟩)).run k).1 = .ok held) ∧
        (held == .app .hold [.symbol ⟨40, "z"⟩]) = true := by
  constructor
  · have hreached := Reached.kernel (.define ⟨0⟩ (.symbol ⟨38, "x"⟩)
      (.app .condition [.int 1, .symbol ⟨38, "x"⟩]) .delayed) (reached_namedKernel {})
    refine ⟨_, hreached, Nat.zero_lt_succ 255, Nat.zero_lt_succ 4095, fun fuel => ?_⟩
    refine (@Evaluator.starves_ofFuel ⟨0⟩ ⟨38, "x"⟩ (.int 1) fuel).1 _ ⟨rfl, rfl, ?_, ⟨rfl, rfl⟩⟩
    exact ⟨(namedKernel {}).attributes, 1, rfl⟩
  · have hreached : Reached chainKernel .empty := .kernel
      (.define ⟨0⟩ (.symbol ⟨39, "y"⟩) (.symbol ⟨40, "z"⟩) .immediate)
      (.kernel (.define ⟨0⟩ (.symbol ⟨38, "x"⟩) (.symbol ⟨39, "y"⟩) .immediate)
        (reached_namedKernel { maxIterations := 1 }))
    refine ⟨chainKernel, hreached, rfl, fun r => ?_, .node 1 (.symbol .hold) [.symbol ⟨40, "z"⟩],
      fun fuel => rfl, by decide⟩
    have hfirst : (r.evaluateRound ⟨0⟩ (.symbol ⟨38, "x"⟩)).run chainKernel =
        (.ok (.rewritten (.symbol ⟨39, "y"⟩)), _) :=
      r.run_evaluateRound_of_value ⟨rfl, rfl⟩ rfl rfl (by decide)
    exact ⟨_, .round hfirst (.round
      (r.run_evaluateRound_of_value ⟨rfl, rfl⟩ rfl rfl (by decide)) (.none _))⟩

end Termwise
