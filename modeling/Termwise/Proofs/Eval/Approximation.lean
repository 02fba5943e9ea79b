import Termwise.Proofs.Eval.Enduring
import Termwise.Proofs.Eval.Stable
import Termwise.Proofs.Pattern.Renaming

/-!
# Termwise.Proofs.Eval.Approximation

Which exact numbers an approximation leaves where no symbol has an approximation of its own
(`Kernel.Exact`, which no evaluation changes).  Arguments are approximated before the call
around them is evaluated again, and of what that evaluation brings only an atom is approximated.
So exact numbers stay in three places (`Approximated`):

1. in heads;
2. in the arguments that a call held when it was approximated;
3. in a call that its evaluation has put in the place of an approximated one.

Which evaluations of approximated calls there have been is told by an approximation that keeps
a record of them (`Evaluator.approximateRecorded`).
-/

namespace Termwise

/-! ## terms without exact numbers -/

namespace Term

mutual

/-- Whether a term has no integer but in heads and in held arguments. -/
def inexact (attrs : Symbol → Attributes) : Term → Bool
  | .int _ => false
  | .node i f xs => inexactArgs attrs ((Term.node i f xs).headAttributes attrs) 1 xs
  | _ => true

/-- Whether arguments that are not held have no such integers, the first one being at a given
position. -/
def inexactArgs (attrs : Symbol → Attributes) (own : Attributes) : Nat → List Term → Bool
  | _, [] => true
  | i, x :: xs => (own.holds i || inexact attrs x) && inexactArgs attrs own (i + 1) xs

end

theorem inexactArgs_of {attrs : Symbol → Attributes} {own : Attributes} {i : Nat} {xs : List Term}
    (h : ∀ j x, xs[j]? = some x → own.holds (i + j) = false → x.inexact attrs = true) :
    inexactArgs attrs own i xs = true := by
  induction xs generalizing i with
  | nil => rfl
  | cons x xs ih =>
      rw [inexactArgs, Bool.and_eq_true, Bool.or_eq_true]
      refine ⟨?_, ih fun j y hy hheld => h (j + 1) y hy (by rwa [Nat.add_right_comm] at hheld)⟩
      cases hheld : own.holds i with
      | true => exact .inl rfl
      | false => exact .inr (h 0 x rfl hheld)

end Term

open Contract

/-! ## evaluation adds no approximation -/

/-- A kernel has no approximation if none of its records has one. -/
theorem Kernel.exact_of_all {k : Kernel} (h : k.symbols.all fun r =>
    ((r.rules.getD {}).get .approx).isEmpty && r.code.approx.isNone) : k.Exact := by
  have hrecord := fun s => Bool.and_eq_true_iff.mp (record_of_all h s rfl)
  exact ⟨fun s => (rules?_eq_none_iff k s .approx).mpr (hrecord s).1,
    fun s => Option.isNone_iff_eq_none.mp (hrecord s).2⟩

/-- Whatever happens, no approximation is added. -/
def exacting : Contract := .always Kernel.StaysExact .refl .trans

/-- Evaluation starts anywhere. -/
def exactly : exacting.Scope where
  From _ _ := True
  keeps _ _ := trivial

theorem lenient_exactly : exactly.Lenient where
  minor h := h.staysExact
  stamp c _ k t _ := k.staysExact_stamp c t _
  ok_of_fails h := h
  again _ := .refl
  errors _ _ := .refl
  child _ := ⟨.of_symbols_eq rfl, trivial⟩
  constrains _ _ := trivial
  lifts {c k _ nanos _} h := by
    have hset : k.StaysExact (k.constrain c nanos) := .of_symbols_eq rfl
    exact always_leaves_iff.mpr
      ((hset.trans (always_leaves_iff.mp h)).trans (.of_symbols_eq rfl))

theorem calm_define_exacting (c : ContextId) (lhs rhs : Term) (kind : RuleKind) :
    exacting.Calm (define c lhs rhs kind) := by
  refine lenient_exactly.defining.calm_define c (fun s cache rule hcache k => ?_) lhs rhs kind
  exact agreeFrom_changeRules _ (fun _ _ hopen => (Kernel.minor_openRules hopen).staysExact)
    fun _ k' _ _ _ => k'.staysExact_putRules s fun _ h => absurd h hcache

theorem Kernel.staysExact_evaluateWith (k : Kernel) (fuel : Nat) (c : ContextId) (t : Term) :
    k.StaysExact ((evaluateWith fuel c t).run k).2 := by
  have hagree := lenient_exactly.agreesIn (fun _ _ => trivial) calm_define_exacting
    (fun _ _ => .of_symbols_eq rfl) (fun _ _ => .of_symbols_eq rfl)
    (fun _ _ => ⟨fun _ => .of_symbols_eq rfl, .of_symbols_eq rfl⟩) fuel
  exact always_leaves_iff.mp (hagree.evaluate c t k trivial).leaves

/-! ## evaluations of approximated calls -/

/-- The evaluation of a call whose arguments have been approximated. -/
structure Reevaluation where
  /-- The call. -/
  call : Term
  /-- The attributes of its head when its arguments were approximated. -/
  attributes : Attributes
  /-- What the call was evaluated to. -/
  value : Term

/-- What an approximation leaves that has made these evaluations: besides heads, integers are left
in arguments that were held, and in a call that was put in the place of an approximated one. -/
inductive Approximated (log : List Reevaluation) : Term → Prop
  /-- An atom, but no integer. -/
  | atom {t : Term} : t.kind ≠ .expr → t.kind ≠ .integer → Approximated log t
  /-- A call that was evaluated to itself. -/
  | kept {e : Reevaluation} {i : Nat} {f : Term} {xs : List Term} : e ∈ log →
      (e.value == e.call) = true → (e.call == .node i f xs) = true →
      (∀ j x, xs[j]? = some x → e.attributes.holds (j + 1) = false → Approximated log x) →
      Approximated log (.node i f xs)
  /-- A call that another one was evaluated to. -/
  | brought {e : Reevaluation} {t : Term} : e ∈ log → e.value.kind = .expr →
      (e.value == e.call) = false → (e.value == t) = true → Approximated log t

namespace Approximated

variable {log log' : List Reevaluation} {t : Term}

theorem mono (hlog : log ⊆ log') (h : Approximated log t) : Approximated log' t := by
  induction h with
  | atom hcall hint => exact .atom hcall hint
  | kept he hsame hcall _ ih => exact .kept (hlog he) hsame hcall ih
  | brought he hcall hother ht => exact .brought (hlog he) hcall hother ht

/-- Identities of nodes do not count. -/
theorem congr (h : Approximated log t) : ∀ {v : Term}, (t == v) = true → Approximated log v := by
  induction h with
  | @atom t hcall hint =>
      intro v hv
      have hkind : t.kind = v.kind := by
        rw [← Term.kind_strip t, (Term.beq_iff_strip t v).mp hv, Term.kind_strip]
      exact .atom (hkind ▸ hcall) (hkind ▸ hint)
  | kept he hsame hcall _ ih =>
      intro v hv
      have hstrip := (Term.beq_iff_strip _ _).mp hv
      cases v with
      | node j g ys =>
          refine .kept he hsame (Term.beq_trans hcall hv) fun n y hy hheld => ?_
          have hargs := congrArg Term.args hstrip
          rw [Term.args_strip, Term.args_strip] at hargs
          have hplace := congrArg (·[n]?) hargs
          simp only [Term.args, List.getElem?_map, hy] at hplace
          obtain ⟨x, hx, hxy⟩ := Option.map_eq_some_iff.mp hplace
          exact ih n x hx hheld ((Term.beq_iff_strip x y).mpr hxy)
      | _ => cases hstrip
  | brought he hcall hother ht => exact fun hv => .brought he hcall hother (Term.beq_trans ht hv)

/-- Where attributes are the same throughout and evaluation puts no other call in the place of an
approximated one, no integers are left but in heads and in held arguments. -/
theorem inexact {attrs : Symbol → Attributes}
    (hlog : ∀ e ∈ log, e.attributes = e.call.headAttributes attrs ∧
      (e.value.kind = .expr → (e.value == e.call) = true)) (h : Approximated log t) :
    t.inexact attrs = true := by
  induction h with
  | @atom t hcall hint =>
      cases t with
      | int n => exact absurd rfl hint
      | node i f xs => exact absurd rfl hcall
      | _ => rfl
  | @kept e i f xs he _ hcall _ ih =>
      have hattrs : e.attributes = (Term.node i f xs).headAttributes attrs := by
        rw [(hlog e he).1, ← Term.headAttributes_strip, (Term.beq_iff_strip _ _).mp hcall,
          Term.headAttributes_strip]
      rw [Term.inexact, ← hattrs]
      exact Term.inexactArgs_of fun j x hx hheld => ih j x hx (by rwa [Nat.add_comm] at hheld)
  | brought he hcall hother =>
      rw [(hlog _ he).2 hcall] at hother
      cases hother

end Approximated

namespace Evaluator

/-! ## keeping a record -/

/-- Approximate what a call whose arguments are approximated was evaluated to. -/
def approximateEvaluated (r : Evaluator) (c : ContextId) (value : Term) : EvalM Term :=
  match value with
  | .node .. =>
    match value.topmost? with
    | none => return value
    | some s => do
      match ← r.approximateWith c s value with
      | some result => r.evaluate c result
      | none => return value
  | atom => r.approximateAtom c atom

theorem approximateCall_eq (r : Evaluator) (c : ContextId) (t : Term) :
    r.approximateCall c t = (do r.approximateEvaluated c (← r.evaluate c t)) := rfl

mutual

/-- Approximate an evaluated term and record the evaluations of approximated calls. -/
def recordValue (r : Evaluator) (c : ContextId) : Term → EvalM (Term × List Reevaluation)
  | .node id head args => do
    checkAbort c
    let attrs := (Term.node id head args).headAttributes (← get).attributes
    let (args, log) ← recordArgs r c attrs 1 args
    let value ← r.evaluate c (.call head args)
    return (← r.approximateEvaluated c value, ⟨.call head args, attrs, value⟩ :: log)
  | t => return (← r.approximateAtom c t, [])

/-- Approximate the arguments that are not held, the first one being at a given position, and record
the evaluations of approximated calls. -/
def recordArgs (r : Evaluator) (c : ContextId) (attrs : Attributes) :
    Nat → List Term → EvalM (List Term × List Reevaluation)
  | _, [] => return ([], [])
  | i, t :: ts => do
    let (value, own) ← if attrs.holds i then pure (t, []) else recordValue r c t
    let (values, log) ← recordArgs r c attrs (i + 1) ts
    return (value :: values, own ++ log)

end

/-- An approximation that records the evaluations of approximated calls. -/
def approximateRecorded (r : Evaluator) (c : ContextId) (t : Term) :
    EvalM (Term × List Reevaluation) := do
  r.recordValue c (← r.evaluate c t)

mutual

theorem map_fst_recordValue (r : Evaluator) (c : ContextId) : ∀ t : Term,
    Prod.fst <$> r.recordValue c t = r.approximateValue c t
  | .node id head args => by
      rw [recordValue, approximateValue, map_bind]
      refine bind_congr fun _ => ?_
      rw [map_bind]
      refine bind_congr fun k => ?_
      have hattrs : (Term.node id head args).headAttributes k.attributes =
          match head with
          | .symbol s => k.attributes s
          | _ => .none := by
        cases head <;> rfl
      dsimp only
      rw [hattrs, ← map_fst_recordArgs r c _ 1 args, bind_map_left, map_bind]
      refine bind_congr fun p => ?_
      rw [approximateCall_eq]
      simp
  | .magic _ | .int _ | .float _ | .text _ | .symbol _ | .host _ => by
      rw [recordValue, approximateValue] <;> simp

theorem map_fst_recordArgs (r : Evaluator) (c : ContextId) (attrs : Attributes) :
    ∀ (i : Nat) (ts : List Term),
      Prod.fst <$> r.recordArgs c attrs i ts = r.approximateArgs c attrs i ts
  | _, [] => by simp [recordArgs, approximateArgs]
  | i, t :: ts => by
      rw [recordArgs, approximateArgs]
      split
      · simp [← map_fst_recordArgs r c attrs (i + 1) ts]
      · simp [← map_fst_recordArgs r c attrs (i + 1) ts, ← map_fst_recordValue r c t]

end

/-! ## what is recorded -/

variable {r : Evaluator} {c : ContextId}

theorem gives_checkAbort_exact :
    (EvalM.whenDone Kernel.Exact).Gives (checkAbort c) fun _ => True := by
  intro k a k' hk hrun
  have hk' : k' = k.elapse Kernel.lookTime := by rw [← kernel_run_checkAbort k c, hrun]
  have hexact : k.StaysExact (k.elapse Kernel.lookTime) := .of_symbols_eq rfl
  exact ⟨hk' ▸ hexact hk, trivial⟩

/-- No symbol approximates a term. -/
theorem gives_approximateWith (s : Symbol) (t : Term) :
    (EvalM.whenDone Kernel.Exact).Gives (r.approximateWith c s t) (· = none) := by
  intro k result k' hk hrun
  have hget : (get : EvalM Kernel).run k = (.ok k, k) := rfl
  have hrule : (r.findRule? c s .approx t).run k = (.ok none, k) := by
    rw [findRule?, EvalM.run_bind_ok hget, hk.rules s]
    rfl
  rw [approximateWith, EvalM.run_bind_ok hrule] at hrun
  dsimp only at hrun
  rw [EvalM.run_bind_ok hget, hk.code s] at hrun
  cases hrun
  exact ⟨hk, rfl⟩

theorem gives_approximateAtom (log : List Reevaluation) {t : Term} (ht : t.kind ≠ .expr) :
    (EvalM.whenDone Kernel.Exact).Gives (r.approximateAtom c t) (Approximated log) := by
  let o := EvalM.whenDone Kernel.Exact
  refine o.gives_bind gives_checkAbort_exact fun _ _ => ?_
  cases t with
  | int n => exact o.gives_pure (.atom nofun nofun)
  | symbol s =>
      refine o.gives_bind (gives_approximateWith s _) fun result hnone => ?_
      subst hnone
      exact o.gives_pure (.atom nofun nofun)
  | node i f xs => exact absurd rfl ht
  | _ => exact o.gives_pure (.atom nofun nofun)

/-- A call comes back as it is, or an atom comes of it, or another call. -/
theorem gives_approximateEvaluated {log : List Reevaluation} {e : Reevaluation} {i : Nat} {f : Term}
    {xs : List Term} (he : e ∈ log) (hcall : e.call = .node i f xs)
    (hargs : ∀ j x, xs[j]? = some x → e.attributes.holds (j + 1) = false → Approximated log x) :
    (EvalM.whenDone Kernel.Exact).Gives (r.approximateEvaluated c e.value) (Approximated log) := by
  let o := EvalM.whenDone Kernel.Exact
  unfold approximateEvaluated
  cases hvalue : e.value with
  | node j g ys =>
      have hleft : Approximated log (.node j g ys) := by
        cases hsame : (e.value == e.call) with
        | true =>
            have hkept : Approximated log (.node i f xs) :=
              .kept he hsame (by rw [hcall]; exact BEq.rfl) hargs
            exact hkept.congr (by rwa [hvalue, hcall, Term.beq_symm] at hsame)
        | false => exact .brought he (by rw [hvalue]; rfl) hsame (by rw [hvalue]; exact BEq.rfl)
      dsimp only
      cases (Term.node j g ys).topmost? with
      | none => exact o.gives_pure hleft
      | some s =>
          refine o.gives_bind (gives_approximateWith s _) fun result hnone => ?_
          subst hnone
          exact o.gives_pure hleft
  | _ => exact gives_approximateAtom log nofun

/-- Evaluation adds no approximation. -/
def KeepsExact (r : Evaluator) : Prop :=
  ∀ (c : ContextId) (t : Term) (k : Kernel), k.StaysExact ((r.evaluate c t).run k).2

theorem KeepsExact.gives_evaluate (hr : r.KeepsExact) (t : Term) :
    (EvalM.whenDone Kernel.Exact).Gives (r.evaluate c t) fun _ => True := by
  intro k v k' hk hrun
  have hexact := hr c t k hk
  rw [hrun] at hexact
  exact ⟨hexact, trivial⟩

mutual

theorem gives_recordValue (hr : r.KeepsExact) : ∀ t : Term,
    (EvalM.whenDone Kernel.Exact).Gives (r.recordValue c t) fun p => Approximated p.2 p.1
  | .node id head args => by
      let o := EvalM.whenDone Kernel.Exact
      rw [recordValue]
      refine o.gives_bind gives_checkAbort_exact fun _ _ => ?_
      have hget : o.Gives get fun _ => True := fun k _ _ hk hrun => by
        cases hrun
        exact ⟨hk, trivial⟩
      refine o.gives_bind hget fun k _ => o.gives_bind (gives_recordArgs hr _ 1 args) fun p hp => ?_
      refine o.gives_bind (hr.gives_evaluate _) fun value _ => ?_
      let e : Reevaluation :=
        ⟨.call head p.1, (Term.node id head args).headAttributes k.attributes, value⟩
      have hargs : ∀ j x, p.1[j]? = some x → e.attributes.holds (j + 1) = false →
          Approximated (e :: p.2) x := fun j x hx hheld =>
        (hp j x hx (by rwa [Nat.add_comm])).mono (List.subset_cons_self e p.2)
      exact o.gives_bind
        (gives_approximateEvaluated List.mem_cons_self (e := e) rfl hargs) fun v hv =>
          o.gives_pure hv
  | .magic _ | .int _ | .float _ | .text _ | .symbol _ | .host _ => by
      rw [recordValue]
      · exact Observation.gives_bind _ (gives_approximateAtom [] nofun) fun v hv =>
          Observation.gives_pure _ hv
      · exact nofun

/-- The arguments that are not held are approximated. -/
theorem gives_recordArgs (hr : r.KeepsExact) (attrs : Attributes) : ∀ (i : Nat) (ts : List Term),
    (EvalM.whenDone Kernel.Exact).Gives (r.recordArgs c attrs i ts) fun p =>
      ∀ j x, p.1[j]? = some x → attrs.holds (i + j) = false → Approximated p.2 x
  | _, [] => by
      rw [recordArgs]
      exact Observation.gives_pure _ fun _ _ hx => by cases hx
  | i, t :: ts => by
      let o := EvalM.whenDone Kernel.Exact
      rw [recordArgs]
      have hrest : ∀ p : Term × List Reevaluation,
          (attrs.holds i = false → Approximated p.2 p.1) →
          o.Gives (do
            let (values, log) ← r.recordArgs c attrs (i + 1) ts
            return (p.1 :: values, p.2 ++ log)) fun q =>
              ∀ j x, q.1[j]? = some x → attrs.holds (i + j) = false → Approximated q.2 x := by
        refine fun p hp => o.gives_bind (gives_recordArgs hr attrs (i + 1) ts) fun q hq =>
          o.gives_pure fun j x hx hheld => ?_
        cases j with
        | zero =>
            cases hx
            exact (hp hheld).mono (List.subset_append_left _ _)
        | succ j =>
            have hlater := hq j x hx (by rwa [Nat.add_right_comm])
            exact hlater.mono (List.subset_append_right _ _)
      split
      · rename_i hheld
        exact hrest (t, []) fun hfree => by rw [hheld] at hfree; cases hfree
      · exact o.gives_bind (gives_recordValue hr t) fun p hp => hrest p fun _ => hp

end

/-- Where no symbol has an approximation of its own, an approximation leaves integers in heads, in
arguments that a call held when it was approximated, and in calls that their evaluation has put in
the place of approximated ones; and in heads and held arguments alone where attributes are the same
throughout and evaluation has put no call in the place of another one. -/
theorem approximated_of_run_approximate {fuel : Nat} {c : ContextId} {t v : Term} {k k' : Kernel}
    (hk : k.Exact) (hrun : ((ofFuel fuel).approximate c t).run k = (.ok v, k')) :
    ∃ log, ((ofFuel fuel).approximateRecorded c t).run k = (.ok (v, log), k') ∧
      Approximated log v ∧
      ∀ attrs : Symbol → Attributes,
        (∀ e ∈ log, e.attributes = e.call.headAttributes attrs ∧
          (e.value.kind = .expr → (e.value == e.call) = true)) →
        v.inexact attrs = true := by
  have hr : (ofFuel fuel).KeepsExact := fun c t k => k.staysExact_evaluateWith fuel c t
  have hmap : Prod.fst <$> (ofFuel fuel).approximateRecorded c t =
      (ofFuel fuel).approximate c t := by
    rw [approximateRecorded, map_bind, approximate]
    exact bind_congr fun v => map_fst_recordValue _ c v
  have hgives : (EvalM.whenDone Kernel.Exact).Gives ((ofFuel fuel).approximateRecorded c t)
      fun p => Approximated p.2 p.1 :=
    Observation.gives_bind _ (hr.gives_evaluate t) fun v _ => gives_recordValue hr v
  rw [← hmap, map_eq_pure_bind] at hrun
  obtain ⟨⟨v', log⟩, k₁, hrecorded, hpure⟩ := EvalM.run_bind_eq_ok hrun
  cases hpure
  have hv := (hgives k _ k' hk hrecorded).2
  exact ⟨log, hrecorded, hv, fun attrs hlog => hv.inexact hlog⟩

/-- The kernel after `x(_Real) :> {1}` and with the first argument of `y` held. -/
def heldKernel : Kernel :=
  ((define ⟨0⟩ (.app ⟨38, "x"⟩ [.app .blank [.symbol .real]]) (.app .list [.int 1])
    .delayed).run (namedKernel {})).2.storeAttributes ⟨39, "y"⟩ (.ofList [.holdFirst])

theorem exact_heldKernel : heldKernel.Exact := Kernel.exact_of_all (by decide +kernel)

/-- `y(1, x(2), 3)` is approximated to `y(1, {1}, 3.)`: one integer is held, the other one is in a
list that the evaluation of `x(2.)` has brought.  `y(1, 3)` is evaluated to itself when its second
argument is approximated, and then has no integer but the one that is held. -/
theorem approximated_held : heldKernel.Exact ∧
    (∃ v k' log,
      (full.approximate ⟨0⟩ (.app ⟨39, "y"⟩ [.int 1, .app ⟨38, "x"⟩ [.int 2], .int 3])).run
          heldKernel = (.ok v, k') ∧
        (v == .app ⟨39, "y"⟩ [.int 1, .app .list [.int 1], .float (Term.nearest 3)]) = true ∧
        Approximated log v) ∧
    ∃ v k', (full.approximate ⟨0⟩ (.app ⟨39, "y"⟩ [.int 1, .int 3])).run heldKernel = (.ok v, k') ∧
      v.inexact heldKernel.attributes = true := by
  have hrun : succeedsWith (fun v _ =>
      v == .app ⟨39, "y"⟩ [.int 1, .app .list [.int 1], .float (Term.nearest 3)])
      ((full.approximate ⟨0⟩ (.app ⟨39, "y"⟩ [.int 1, .app ⟨38, "x"⟩ [.int 2], .int 3])).run
        heldKernel) = true := by decide +kernel
  obtain ⟨v, k', hv, hequal⟩ := exists_of_succeedsWith hrun
  obtain ⟨log, -, hlog, -⟩ := approximated_of_run_approximate exact_heldKernel hv
  have hkept : succeedsWith (fun _ _ => true)
      ((full.approximate ⟨0⟩ (.app ⟨39, "y"⟩ [.int 1, .int 3])).run heldKernel) = true := by
    decide +kernel
  obtain ⟨w, k₁, hw, -⟩ := exists_of_succeedsWith hkept
  obtain ⟨kept, hrecorded, -, hinexact⟩ := approximated_of_run_approximate exact_heldKernel hw
  refine ⟨exact_heldKernel, ⟨v, k', log, hv, hequal, hlog⟩, w, k₁, hw, hinexact _ fun e he => ?_⟩
  have hall : (((full.approximateRecorded ⟨0⟩ (.app ⟨39, "y"⟩ [.int 1, .int 3])).run
      heldKernel).1.toOption.map Prod.snd).any (fun log => log.all fun e =>
        decide (e.attributes = e.call.headAttributes heldKernel.attributes) &&
          (e.value == e.call)) = true := by decide +kernel
  have hsame : ∀ e ∈ kept, e.attributes = e.call.headAttributes heldKernel.attributes ∧
      (e.value == e.call) = true := by
    rw [show full = ofFuel (2 ^ 62) from rfl, hrecorded] at hall
    simpa [Except.toOption] using hall
  exact ⟨(hsame e he).1, fun _ => (hsame e he).2⟩

/-- `x(2)` is approximated to `{1}`, with an integer that is neither in a head nor held. -/
theorem approximate_leaves_integer : heldKernel.Exact ∧ ∃ v k',
    (full.approximate ⟨0⟩ (.app ⟨38, "x"⟩ [.int 2])).run heldKernel = (.ok v, k') ∧
      (v == .app .list [.int 1]) = true ∧ v.inexact heldKernel.attributes = false ∧
      v.inexact k'.attributes = false := by
  have hrun : succeedsWith (fun v k' => v == .app .list [.int 1] &&
        !v.inexact heldKernel.attributes && !v.inexact k'.attributes)
      ((full.approximate ⟨0⟩ (.app ⟨38, "x"⟩ [.int 2])).run heldKernel) = true := by decide +kernel
  obtain ⟨v, k', hv, hresult⟩ := exists_of_succeedsWith hrun
  simp only [Bool.and_eq_true, Bool.not_eq_true'] at hresult
  exact ⟨exact_heldKernel, v, k', hv, hresult.1.1, hresult.1.2, hresult.2⟩

end Evaluator

end Termwise
