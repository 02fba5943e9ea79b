import Termwise.Eval.Evaluate
import Termwise.Proofs.Eval.Callees
import Termwise.Proofs.Eval.Run
import Termwise.Proofs.Pattern.Parking

/-!
# Termwise.Proofs.Eval.FirstError

No error gets lost in a search.  Matching, rewriting, looking up and replacing evaluate
terms (tests, right-hand sides with a condition, implicit defaults), also below a pattern
that is excluded, in a choice that fails in the end, or for a part of the arguments of a
flat head; and they look for aborts.  As soon as one of these requests fails, its error
is the outcome, and there is no further request.

The requests are kept in a log (`LoggedM`), which the evaluator does without: `loggedCallees`
are what a search calls, with a log, and the searches that call them park their errors
(`Proofs.Pattern.Parking`).  They have the results of the evaluator and do to the kernel
what it does (`Accounts`), and the log shows an error at most as its last entry, which is
then the outcome (`FirstError`).
-/

namespace Termwise

/-! ## searches that park their errors -/

namespace Callees

variable {m : Type → Type} [Monad m] {ρ : Type}

/-- The result of a search that parks its errors; the error if there is one. -/
def settle (x : ParkedM SearchState EvalError m (Option ρ)) : ExceptT EvalError m (Option ρ) :=
  ExceptT.mk do return (ParkedM.finish (← x.run ({}, none))).map Prod.fst

variable (e : Callees (ExceptT EvalError m))

/-- The bindings of the first match of a subject, as `match?` finds them. -/
def matchParked? (subject pattern : Term) : ExceptT EvalError m (Option Bindings) :=
  settle ((Pattern.ofTerm pattern).searchParked e.surroundings Bindings subject .empty
    fun b => pure (some b))

/-- One rewriting of a subject, as `rewriteWith` does it. -/
def rewriteParked (lhs rhs subject : Term) : ExceptT EvalError m (Option Term) := do
  e.shareResult (← settle (Rule.rewriteParked e.surroundings lhs rhs subject))

variable [LawfulMonad m]

theorem settle_eq {x : ParkedM SearchState EvalError m (Option ρ)}
    {y : StateT SearchState (ExceptT EvalError m) (Option ρ)} (h : x.Parks y) :
    settle x = y.run' {} := by
  refine ExceptT.ext ?_
  change (do return (ParkedM.finish (← x.run ({}, none))).map Prod.fst) =
    (Prod.fst <$> y.run {}).run
  rw [ExceptT.run_map, ← h {}, ← map_eq_pure_bind, Functor.map_map]

theorem matchParked?_eq (subject pattern : Term) :
    e.matchParked? subject pattern = e.match? subject pattern :=
  settle_eq (Pattern.parks_search e.surroundings _ fun b => ParkedM.parks_pure (some b))

theorem rewriteParked_eq (lhs rhs subject : Term) :
    e.rewriteParked lhs rhs subject = e.rewriteWith lhs rhs subject := by
  unfold rewriteParked rewriteWith
  rw [settle_eq (Rule.parks_rewrite e.surroundings lhs rhs subject)]

end Callees

/-! ## the log -/

/-- What a search asks for. -/
inductive Request where
  /-- Evaluate a term. -/
  | evaluate (t : Term)
  /-- Look for an abort. -/
  | poll
  /-- Rewrite a subject without any fuel. -/
  | rewrite (lhs rhs subject : Term)

/-- A request and the error it ended with. -/
structure LogEntry where
  /-- What was asked for. -/
  request : Request
  /-- The error it ended with. -/
  error? : Option EvalError

/-- An action on a kernel that keeps a log, the latest entry last. -/
abbrev LoggedM := ExceptT EvalError (StateM (Kernel × List LogEntry))

/-- The error of an outcome. -/
def errorOf? {α : Type} : Except EvalError α → Option EvalError
  | .ok _ => none
  | .error e => some e

namespace LoggedM

variable {α : Type}

/-- Run an action that is no request. -/
def quietly (x : EvalM α) : LoggedM α := ExceptT.mk fun s =>
  let (result, k) := x.run s.1
  (result, k, s.2)

/-- Run an action as a request. -/
def asking (request : Request) (x : EvalM α) : LoggedM α := ExceptT.mk fun s =>
  let (result, k) := x.run s.1
  (result, k, s.2 ++ [⟨request, errorOf? result⟩])

end LoggedM

/-- What searches with so much fuel call in a context, with a log of what they ask for. -/
def Callees.logged (fuel : Nat) (c : ContextId)
    (rewrite : Term → Term → Term → LoggedM (Option Term)) : Callees LoggedM where
  kernel := .quietly get
  share t := .quietly (Termwise.share t)
  poll := .asking .poll (checkAbort c)
  evaluate t := .asking (.evaluate t) (evaluateWith fuel c t)
  rewrite := rewrite

/-- Rewrite a subject, as `rewriteWith` does; what is searched for on the way is kept in the log as
well. -/
def rewriteLogged (c : ContextId) : Nat → Term → Term → Term → LoggedM (Option Term)
  | 0, lhs, rhs, subject => .asking (.rewrite lhs rhs subject) (rewriteWith 0 c lhs rhs subject)
  | fuel + 1, lhs, rhs, subject =>
    (Callees.logged fuel c (rewriteLogged c fuel)).rewriteParked lhs rhs subject

/-- What the searches of the evaluator with so much fuel call in a context, with a log. -/
def loggedCallees (fuel : Nat) (c : ContextId) : Callees LoggedM :=
  .logged fuel c (rewriteLogged c fuel)

/-! ## accounts -/

/-- No request failed, or only the last one, and its error is the outcome. -/
def FirstError {α : Type} (log : List LogEntry) : Except EvalError α → Prop
  | .ok _ => ∀ entry ∈ log, entry.error? = none
  | .error e => ∃ before last, log = before ++ [last] ∧ (∀ entry ∈ before, entry.error? = none) ∧
      last.error? = some e

/-- The one action does to the kernel what the other one does and has its outcome, which is the
first error of a request in what it adds to the log. -/
def Accounts {α : Type} (x : LoggedM α) (y : EvalM α) : Prop :=
  ∀ k log, ∃ added, x.run (k, log) = ((y.run k).1, (y.run k).2, log ++ added) ∧
    FirstError added (y.run k).1

theorem FirstError.append {α β : Type} {log added : List LogEntry} {a : α}
    {outcome : Except EvalError β} (hlog : FirstError log (.ok a : Except EvalError α))
    (hadded : FirstError added outcome) : FirstError (log ++ added) outcome := by
  have hfree {more : List LogEntry} (hmore : ∀ entry ∈ more, entry.error? = none) :
      ∀ entry ∈ log ++ more, entry.error? = none := by
    rintro entry hentry
    exact (List.mem_append.mp hentry).elim (hlog entry) (hmore entry)
  cases outcome with
  | ok b => exact hfree hadded
  | error e =>
      obtain ⟨before, last, rfl, hbefore, hlast⟩ := hadded
      exact ⟨log ++ before, last, (List.append_assoc ..).symm, hfree hbefore, hlast⟩

theorem FirstError.singleton {α : Type} (request : Request) (outcome : Except EvalError α) :
    FirstError [⟨request, errorOf? outcome⟩] outcome := by
  cases outcome with
  | ok a => exact fun entry hentry => by rw [List.mem_singleton.mp hentry]; rfl
  | error e => exact ⟨[], _, rfl, fun _ h => absurd h List.not_mem_nil, rfl⟩

/-- Accounts compose. -/
def accounting : Congruence LoggedM EvalM where
  Alike := Accounts
  alike_pure a k log := ⟨[], by rw [List.append_nil]; rfl, fun _ h => absurd h List.not_mem_nil⟩
  alike_bind {α β x y f g} hx hf k log := by
    obtain ⟨added, hrun, hfirst⟩ := hx k log
    change ∃ more, ExceptT.bindCont f (x.run (k, log)).1 (x.run (k, log)).2 = _ ∧ _
    rw [hrun]
    rcases hy : y.run k with ⟨r, k'⟩
    rw [hy] at hfirst
    cases r with
    | ok a =>
        obtain ⟨more, hrun', hfirst'⟩ := hf a k' (log ++ added)
        refine ⟨added ++ more, ?_, ?_⟩
        · rw [EvalM.run_bind_ok hy, ← List.append_assoc]
          exact hrun'
        · rw [EvalM.run_bind_ok hy]
          exact hfirst.append hfirst'
    | error e =>
        rw [EvalM.run_bind_error hy]
        exact ⟨added, rfl, hfirst⟩

/-! ## what searches call -/

variable {α : Type}

theorem accounts_quietly {x : EvalM α} (hx : ∀ k, errorOf? (x.run k).1 = none) :
    Accounts (.quietly x) x := by
  intro k log
  refine ⟨[], by rw [List.append_nil]; rfl, ?_⟩
  have hok := hx k
  rcases h : (x.run k).1 with e | a
  · rw [h] at hok
    cases hok
  · exact fun _ h => absurd h List.not_mem_nil

theorem accounts_asking (request : Request) (x : EvalM α) : Accounts (.asking request x) x :=
  fun _ _ => ⟨_, rfl, FirstError.singleton request _⟩

theorem alike_loggedCallees (fuel : Nat) (c : ContextId) :
    (loggedCallees fuel c).Alike ((Evaluator.ofFuel fuel).callees c) accounting
      fun _ => True := by
  have hkernel : Accounts (.quietly get) (get : EvalM Kernel) := accounts_quietly fun _ => rfl
  have hshare (t : Term) : Accounts (.quietly (share t)) (share t) := accounts_quietly fun _ => rfl
  refine ⟨?_, hshare, accounts_asking .poll (checkAbort c)⟩
  exact fun h => accounting.alike_bind hkernel fun k => h k trivial

/-- Searches get the same from outside if rewriting is accounted for. -/
theorem alike_loggedSurroundings {fuel : Nat} {c : ContextId}
    (hrewrite : (loggedCallees fuel c).RewritesAlike ((Evaluator.ofFuel fuel).callees c) accounting
      fun _ _ => True) :
    (loggedCallees fuel c).surroundings.Alike ((Evaluator.ofFuel fuel).callees c).surroundings
      (accounting.state SearchState) True True :=
  have he := alike_loggedCallees fuel c
  Callees.alike_surroundings he (fun _ _ => accounts_asking _ _)
    fun _ => Callees.alike_default? he hrewrite (Callees.rules_true _ .default)

theorem accounts_rewriteParked {fuel : Nat} {c : ContextId}
    (hrewrite : (loggedCallees fuel c).RewritesAlike ((Evaluator.ofFuel fuel).callees c) accounting
      fun _ _ => True) (lhs rhs subject : Term) :
    Accounts ((loggedCallees fuel c).rewriteParked lhs rhs subject)
      ((Evaluator.ofFuel fuel).rewriteWith c lhs rhs subject) := by
  rw [Callees.rewriteParked_eq, Evaluator.rewriteWith_eq]
  exact Callees.alike_rewriteWith (alike_loggedSurroundings hrewrite)
    (alike_loggedCallees fuel c).share (Pattern.every_asks_ofTerm lhs) (fun _ => trivial) subject

theorem accounts_rewrite (fuel : Nat) (c : ContextId) :
    (loggedCallees fuel c).RewritesAlike ((Evaluator.ofFuel fuel).callees c) accounting
      fun _ _ => True := by
  induction fuel with
  | zero =>
      exact fun lhs rhs t _ => accounts_asking (.rewrite lhs rhs t) (rewriteWith 0 c lhs rhs t)
  | succ fuel ih => exact fun lhs rhs t _ => accounts_rewriteParked ih lhs rhs t

/-! ## searches -/

/-- Matching, rewriting, looking up and replacing, all or the whole: when a request fails it is the
last one, and its error is the outcome; when none does they succeed. -/
theorem Evaluator.search_reports_first_error (fuel : Nat) (c : ContextId) :
    (∀ subject pattern, Accounts ((loggedCallees fuel c).matchParked? subject pattern)
      ((ofFuel fuel).match? c subject pattern)) ∧
    (∀ lhs rhs subject, Accounts ((loggedCallees fuel c).rewriteParked lhs rhs subject)
      ((ofFuel fuel).rewriteWith c lhs rhs subject)) ∧
    (∀ list subject, Accounts ((loggedCallees fuel c).find? list subject)
      ((ofFuel fuel).find? c list subject)) ∧
    ∀ everywhere rules t, Accounts ((loggedCallees fuel c).replace everywhere rules t)
      ((ofFuel fuel).replace c everywhere rules t) := by
  have hrewrite := accounts_rewrite fuel c
  refine ⟨fun subject pattern => ?_, accounts_rewriteParked hrewrite, fun list subject => ?_,
    fun everywhere rules t => ?_⟩
  · rw [Callees.matchParked?_eq, Evaluator.match?_eq]
    exact Callees.alike_match? (alike_loggedSurroundings hrewrite) subject pattern
  · exact Callees.alike_find? (alike_loggedCallees fuel c) hrewrite list.all_true subject
  · exact Callees.alike_replace hrewrite everywhere rules t

-- `Except(Condition(_, Throw(1)))`: what is excluded is not found, but 2 does not pass for that
example : (match ((loggedCallees 6 ⟨0⟩).matchParked? (.int 2)
      (.app .except [.app .condition [.app .blank [], .app .raise [.int 1]]])).run
      ((Kernel.new {}).newRoot.2, []) with
    | (.error (.thrown v), _, log) => v == .int 1 && log.length == 1
    | _ => false) = true := by decide +kernel

end Termwise
