import Mathlib.Data.List.Forall2
import Termwise.Proofs.Pattern.Every
import Termwise.Rule.List
import Termwise.Rule.Replace

/-!
# Termwise.Proofs.Pattern.Congruence

Searches in two surroundings.  A `Congruence` is any relation between actions, of one
monad or of two, that composes along `pure` and `bind`: "the two do the same", or "they
do the same from these states on", or "the one does what the other does and keeps a
record of it".  A search is the same program in all surroundings, so it is alike in
surroundings that are alike; those it does not ask for may differ (`Pattern.Asks`).
Rewriting, rule lists and replacement follow.
-/

namespace Termwise

/-- A relation between actions that composes. -/
structure Congruence (m n : Type → Type) [Monad m] [Monad n] where
  /-- Two actions are alike. -/
  Alike : {α : Type} → m α → n α → Prop
  alike_pure : ∀ {α : Type} (a : α), Alike (pure a) (pure a)
  alike_bind : ∀ {α β : Type} {x : m α} {y : n α} {f : α → m β} {g : α → n β},
    Alike x y → (∀ a, Alike (f a) (g a)) → Alike (x >>= f) (y >>= g)

namespace Congruence

variable {m n : Type → Type} [Monad m] [Monad n] {R : Congruence m n} {α ρ : Type}

theorem alike_map [LawfulMonad m] [LawfulMonad n] {x : m α} {y : n α} (f : α → ρ)
    (h : R.Alike x y) :
    R.Alike (f <$> x) (f <$> y) := by
  rw [map_eq_pure_bind, map_eq_pure_bind]
  exact R.alike_bind h fun a => R.alike_pure (f a)

theorem alike_guard {c : Bool} {k : m (Option ρ)} {k' : n (Option ρ)} (h : R.Alike k k') :
    R.Alike (Pattern.guardM c k) (Pattern.guardM c k') := by
  cases c with
  | true => exact h
  | false => exact R.alike_pure none

theorem alike_or {x y : m (Option ρ)} {x' y' : n (Option ρ)} (hx : R.Alike x x')
    (hy : R.Alike y y') :
    R.Alike (do match ← x with | some r => pure (some r) | none => y)
      (do match ← x' with | some r => pure (some r) | none => y') := by
  refine R.alike_bind hx fun r => ?_
  cases r with
  | some r => exact R.alike_pure _
  | none => exact hy

theorem alike_findSomeM? {f : α → m (Option ρ)} {g : α → n (Option ρ)} {xs : List α}
    (h : ∀ x ∈ xs, R.Alike (f x) (g x)) : R.Alike (xs.findSomeM? f) (xs.findSomeM? g) := by
  induction xs with
  | nil => exact R.alike_pure none
  | cons x xs ih =>
      rw [List.findSomeM?_cons, List.findSomeM?_cons]
      exact alike_or (h x List.mem_cons_self) (ih fun y hy => h y (List.mem_cons_of_mem _ hy))

theorem alike_findSomeM?_forall₂ {xs : List (m (Option ρ))} {ys : List (n (Option ρ))}
    (h : List.Forall₂ R.Alike xs ys) : R.Alike (xs.findSomeM? id) (ys.findSomeM? id) := by
  induction h with
  | nil => exact R.alike_pure none
  | cons hx _ ih =>
      rw [List.findSomeM?_cons, List.findSomeM?_cons]
      exact alike_or hx ih

theorem alike_mapM [LawfulMonad m] [LawfulMonad n] {f : α → m ρ} {g : α → n ρ}
    (h : ∀ x, R.Alike (f x) (g x)) (xs : List α) : R.Alike (xs.mapM f) (xs.mapM g) := by
  induction xs with
  | nil =>
      rw [List.mapM_nil, List.mapM_nil]
      exact R.alike_pure []
  | cons x xs ih =>
      rw [List.mapM_cons, List.mapM_cons]
      exact R.alike_bind (h x) fun y => R.alike_bind ih fun ys => R.alike_pure _

theorem alike_chooseM {count : Nat} {xs : List α} {k : List α → List α → m (Option ρ)}
    {k' : List α → List α → n (Option ρ)}
    (h : ∀ taken left, R.Alike (k taken left) (k' taken left)) :
    R.Alike (chooseM count xs k) (chooseM count xs k') := by
  induction xs generalizing count k k' with
  | nil =>
      cases count with
      | zero => exact h [] []
      | succ count => exact R.alike_pure none
  | cons x xs ih =>
      cases count with
      | zero => exact h [] (x :: xs)
      | succ count => exact alike_or (ih fun taken left => h _ _) (ih fun taken left => h _ _)

end Congruence

/-! ## actions with a state -/

namespace Congruence

variable {m n : Type → Type} [Monad m] [Monad n]

/-- Two actions with a state of their own are alike if they are from every state on. -/
def state (R : Congruence m n) (σ : Type) : Congruence (StateT σ m) (StateT σ n) where
  Alike x y := ∀ s, R.Alike (x.run s) (y.run s)
  alike_pure a s := R.alike_pure (a, s)
  alike_bind hx hf s := R.alike_bind (hx s) fun p => hf p.1 p.2

variable {R : Congruence m n} {σ α : Type}

theorem alike_lift {x : m α} {y : n α} (h : R.Alike x y) :
    (R.state σ).Alike (liftM x) (liftM y) := fun s => R.alike_bind h fun a => R.alike_pure (a, s)

theorem alike_get : (R.state σ).Alike get get := fun s => R.alike_pure (s, s)

theorem alike_modify (f : σ → σ) : (R.state σ).Alike (modify f) (modify f) := fun s =>
  R.alike_pure (PUnit.unit, f s)

/-- The results of two actions, their own states forgotten. -/
theorem alike_run' [LawfulMonad m] [LawfulMonad n] {x : StateT σ m α} {y : StateT σ n α}
    (h : (R.state σ).Alike x y) (s : σ) : R.Alike (x.run' s) (y.run' s) :=
  alike_map Prod.fst (h s)

end Congruence

/-- Surroundings that are alike, but for tests and implicit defaults that are not allowed. -/
structure Surroundings.Alike {m n : Type → Type} [Monad m] [Monad n] (env : Surroundings m)
    (env' : Surroundings n) (R : Congruence m n) (tests defaults : Prop) : Prop where
  tick : R.Alike env.tick env'.tick
  attributes : R.Alike env.attributes env'.attributes
  share : ∀ t, R.Alike (env.share t) (env'.share t)
  enter : ∀ slot, R.Alike (env.enter slot) (env'.enter slot)
  evaluate : tests → ∀ t, R.Alike (env.evaluate t) (env'.evaluate t)
  default? : defaults → R.Alike env.default? env'.default?

namespace Pattern

/-- What a form asks of its surroundings: tests, implicit defaults. -/
def Asks (tests defaults : Prop) : Pattern → Prop
  | optional _ none => defaults
  | condition _ _ | tested _ _ => tests
  | _ => True

variable {m n : Type → Type} [Monad m] [Monad n] {R : Congruence m n} {env : Surroundings m}
  {env' : Surroundings n} {tests defaults : Prop} {ρ : Type}

/-! ## searches -/

theorem alike_searchRepeated (he : env.Alike env' R tests defaults) {size : Bindings → Size}
    {one : Term → Bindings → (Bindings → m (Option ρ)) → m (Option ρ)}
    {one' : Term → Bindings → (Bindings → n (Option ρ)) → n (Option ρ)} {least most : Nat}
    {k : Bindings → m (Option ρ)} {k' : Bindings → n (Option ρ)} (hk : ∀ b, R.Alike (k b) (k' b))
    (hone : ∀ {t b k k'}, (∀ b, R.Alike (k b) (k' b)) → R.Alike (one t b k) (one' t b k'))
    (bound : Nat) {items : List Term} {count : Nat} {b : Bindings} :
    R.Alike (searchRepeated env size one least most k bound items count b)
      (searchRepeated env' size one' least most k' bound items count b) := by
  induction bound generalizing items count b with
  | zero =>
      cases items with
      | nil => exact Congruence.alike_guard (hk b)
      | cons item rest => exact R.alike_pure none
  | succ bound ih =>
      cases items with
      | nil => exact Congruence.alike_guard (hk b)
      | cons item rest =>
          rw [searchRepeated, searchRepeated]
          by_cases hmost : most ≤ count
          · rw [if_pos hmost, if_pos hmost]
            exact R.alike_pure none
          rw [if_neg hmost, if_neg hmost]
          exact Congruence.alike_findSomeM? fun n _ => R.alike_bind (he.share _) fun value =>
            hone fun b => ih

mutual

/-- A search is alike in alike surroundings. -/
theorem alike_search (he : env.Alike env' R tests defaults) :
    ∀ p : Pattern, p.Every (Asks tests defaults) → ∀ {ρ : Type} {t : Term} {b : Bindings}
      {k : Bindings → m (Option ρ)} {k' : Bindings → n (Option ρ)}, (∀ b, R.Alike (k b) (k' b)) →
      R.Alike (p.search env ρ t b k) (p.search env' ρ t b k')
  | atom a, _, ρ, t, b, k, k', hk | literal a, _, ρ, t, b, k, k', hk
  | blank type, _, ρ, t, b, k, k', hk | blankSequence type, _, ρ, t, b, k, k', hk
  | blankNullSequence type, _, ρ, t, b, k, k', hk => by
      rw [search, search]
      exact R.alike_bind he.tick fun _ => Congruence.alike_guard (hk b)
  | named name p, hp, ρ, t, b, k, k', hk => by
      rw [search, search]
      refine R.alike_bind he.tick fun _ => ?_
      cases b.get? name with
      | some value => exact Congruence.alike_guard (alike_search he p hp.2 hk)
      | none => exact alike_search he p hp.2 hk
  | condition p test, hp, ρ, t, b, k, k', hk => by
      rw [search, search]
      refine R.alike_bind he.tick fun _ => alike_search he p hp.2 fun b => ?_
      refine R.alike_bind (R.alike_bind (he.evaluate hp.1 _) fun v => R.alike_pure _) fun c => ?_
      exact Congruence.alike_guard (hk b)
  | tested p f, hp, ρ, t, b, k, k', hk => by
      rw [search, search]
      refine R.alike_bind he.tick fun _ => alike_search he p hp.2 fun b => ?_
      refine R.alike_bind (R.alike_bind (he.evaluate hp.1 _) fun v => R.alike_pure _) fun c => ?_
      exact Congruence.alike_guard (hk b)
  | alternatives choices, hp, ρ, t, b, k, k', hk => by
      rw [search, search]
      exact R.alike_bind he.tick fun _ => alike_searchChoices he choices hp.2 hk
  | repeated p _ least most, hp, ρ, t, b, k, k', hk => by
      rw [search, search]
      refine R.alike_bind he.tick fun _ => alike_searchRepeated he hk ?_ _
      exact fun hk => alike_search he p hp.2 hk
  | optional p (some d), hp, ρ, t, b, k, k', hk => by
      rw [search, search]
      refine R.alike_bind he.tick fun _ => ?_
      split
      · exact R.alike_bind (R.alike_pure (some d)) fun r => by
          cases r with
          | none => exact R.alike_pure none
          | some d => exact alike_search he p hp.2 hk
      · exact alike_search he p hp.2 hk
  | optional p none, hp, ρ, t, b, k, k', hk => by
      rw [search, search]
      refine R.alike_bind he.tick fun _ => ?_
      split
      · exact R.alike_bind (he.default? hp.1) fun r => by
          cases r with
          | none => exact R.alike_pure none
          | some d => exact alike_search he p hp.2 hk
      · exact alike_search he p hp.2 hk
  | hold p, hp, ρ, t, b, k, k', hk | longest p, hp, ρ, t, b, k, k', hk
  | shortest p, hp, ρ, t, b, k, k', hk => by
      rw [search, search]
      exact R.alike_bind he.tick fun _ => alike_search he p hp.2 hk
  | sequence parts, hp, ρ, t, b, k, k', hk => by
      rw [search, search]
      exact R.alike_bind he.tick fun _ => alike_searchSlots he parts hp.2 fun b rest =>
        Congruence.alike_guard (hk b)
  | except no, hp, ρ, t, b, k, k', hk => by
      rw [search, search]
      refine R.alike_bind he.tick fun _ =>
        R.alike_bind (alike_search he no hp.2 fun _ => R.alike_pure _) fun r => ?_
      cases r with
      | some _ => exact R.alike_pure none
      | none => exact Congruence.alike_guard (hk b)
  | exceptThen no p, hp, ρ, t, b, k, k', hk => by
      rw [search, search]
      refine R.alike_bind he.tick fun _ =>
        R.alike_bind (alike_search he no hp.2.1 fun _ => R.alike_pure _) fun r => ?_
      cases r with
      | some _ => exact R.alike_pure none
      | none => exact alike_search he p hp.2.2 hk
  | call whole head args, hp, ρ, t, b, k, k', hk => by
      rw [search, search]
      refine R.alike_bind he.tick fun _ => ?_
      cases t.single? with
      | none => exact R.alike_pure none
      | some subject =>
          refine R.alike_bind he.attributes fun attrs => ?_
          cases whole.isLiteral attrs with
          | true => exact Congruence.alike_guard (hk b)
          | false =>
              rw [if_neg Bool.false_ne_true, if_neg Bool.false_ne_true]
              cases subject with
              | node i f xs =>
                  refine alike_search he head hp.2.1 fun b => R.alike_bind he.attributes fun a => ?_
                  dsimp only
                  split
                  · exact R.alike_pure none
                  · split
                    · exact alike_searchAnywhere he args hp.2.2 fun b free =>
                        Congruence.alike_guard (hk b)
                    · exact alike_searchSlots he args hp.2.2 fun b rest =>
                        Congruence.alike_guard (hk b)
              | _ => exact R.alike_pure none

theorem alike_searchChoices (he : env.Alike env' R tests defaults) :
    ∀ ps : List Pattern, AllEvery (Asks tests defaults) ps → ∀ {ρ : Type} {t : Term} {b : Bindings}
      {k : Bindings → m (Option ρ)} {k' : Bindings → n (Option ρ)}, (∀ b, R.Alike (k b) (k' b)) →
      R.Alike (searchChoices env ps ρ t b k) (searchChoices env' ps ρ t b k')
  | [], _, ρ, t, b, k, k', hk => by
      rw [searchChoices, searchChoices]
      exact R.alike_pure none
  | p :: ps, hp, ρ, t, b, k, k', hk => by
      rw [searchChoices, searchChoices]
      exact Congruence.alike_or (alike_search he p hp.1 hk) (alike_searchChoices he ps hp.2 hk)

theorem alike_searchSlots (he : env.Alike env' R tests defaults) :
    ∀ ps : List Pattern, AllEvery (Asks tests defaults) ps → ∀ {ρ : Type} {flat : Option Term}
      {head : Term} {count index : Nat} {args : List Term} {b : Bindings}
      {k : Bindings → List Term → m (Option ρ)} {k' : Bindings → List Term → n (Option ρ)},
      (∀ b rest, R.Alike (k b rest) (k' b rest)) →
      R.Alike (searchSlots env ps ρ flat head count index args b k)
        (searchSlots env' ps ρ flat head count index args b k')
  | [], _, ρ, flat, head, count, index, args, b, k, k', hk => by
      rw [searchSlots, searchSlots]
      exact hk b args
  | p :: ps, hp, ρ, flat, head, count, index, args, b, k, k', hk => by
      rw [searchSlots, searchSlots]
      refine Congruence.alike_findSomeM? fun n _ => R.alike_bind (he.share _) fun value => ?_
      refine R.alike_bind (he.enter _) fun _ => alike_search he p hp.1 fun b => ?_
      exact alike_searchSlots he ps hp.2 hk

theorem alike_searchAnywhere (he : env.Alike env' R tests defaults) :
    ∀ ps : List Pattern, AllEvery (Asks tests defaults) ps → ∀ {ρ : Type} {flat : Option Term}
      {head : Term} {count index : Nat} {free : List (Term × Nat)} {b : Bindings}
      {k : Bindings → List (Term × Nat) → m (Option ρ)}
      {k' : Bindings → List (Term × Nat) → n (Option ρ)},
      (∀ b left, R.Alike (k b left) (k' b left)) →
      R.Alike (searchAnywhere env ps ρ flat head count index free b k)
        (searchAnywhere env' ps ρ flat head count index free b k')
  | [], _, ρ, flat, head, count, index, free, b, k, k', hk => by
      rw [searchAnywhere, searchAnywhere]
      exact hk b free
  | p :: ps, hp, ρ, flat, head, count, index, free, b, k, k', hk => by
      rw [searchAnywhere, searchAnywhere]
      refine Congruence.alike_findSomeM? fun n _ => Congruence.alike_chooseM fun taken left => ?_
      refine R.alike_bind (he.share _) fun value => R.alike_bind (he.enter _) fun _ => ?_
      exact alike_search he p hp.1 fun b => alike_searchAnywhere he ps hp.2 hk

end

/-- With tests and implicit defaults allowed, everything may be asked for. -/
theorem every_asks_ofTerm (t : Term) : (ofTerm t).Every (Asks True True) := by
  have hread := every_ofTerm (r := fun _ => True) (fun _ _ _ _ => ⟨trivial, fun _ _ => trivial⟩) t
    trivial
  refine hread.imp fun p _ => ?_
  unfold Asks
  split <;> trivial

theorem Every.unheld {q : Pattern → Prop} {p : Pattern} (h : p.Every q) : p.unheld.Every q := by
  cases p with
  | hold p => exact h.2
  | _ => exact h

end Pattern

namespace Rule

variable {m n : Type → Type} [Monad m] [Monad n] {R : Congruence m n} {env : Surroundings m}
  {env' : Surroundings n} {tests defaults : Prop}

/-! ## rewriting -/

theorem alike_instantiate (he : env.Alike env' R tests defaults) {rhs : Term}
    (hrhs : isConditional rhs = true → tests) (b : Bindings) :
    R.Alike (instantiate env rhs b) (instantiate env' rhs b) := by
  unfold instantiate
  dsimp only
  split
  · split
    · rename_i hs
      have htests := hrhs (by simp [isConditional, hs])
      refine R.alike_bind (R.alike_bind (he.evaluate htests _) fun v => R.alike_pure _) fun c => ?_
      split <;> exact R.alike_pure _
    · exact R.alike_pure _
  · exact R.alike_pure _

theorem alike_applyInside (he : env.Alike env' R tests defaults) {rhs : Term}
    (hrhs : isConditional rhs = true → tests) {head : Pattern} {slots : List Pattern}
    (hhead : head.Every (Pattern.Asks tests defaults))
    (hslots : Pattern.AllEvery (Pattern.Asks tests defaults) slots) (orderless : Bool) (f : Term)
    (args : List Term) :
    R.Alike (applyInside env head slots rhs orderless f args)
      (applyInside env' head slots rhs orderless f args) := by
  unfold applyInside
  split
  · refine Pattern.alike_search he head hhead fun b => ?_
    refine Pattern.alike_searchAnywhere he slots hslots fun b free => ?_
    exact R.alike_bind (alike_instantiate he hrhs b) fun r => R.alike_pure _
  · refine Congruence.alike_findSomeM? fun start _ => Pattern.alike_search he head hhead fun b => ?_
    refine Pattern.alike_searchSlots he slots hslots fun b rest => ?_
    exact R.alike_bind (alike_instantiate he hrhs b) fun r => R.alike_pure _

/-- Rewriting is alike in alike surroundings. -/
theorem alike_rewrite (he : env.Alike env' R tests defaults) {lhs rhs : Term}
    (hlhs : (Pattern.ofTerm lhs).Every (Pattern.Asks tests defaults))
    (hrhs : isConditional rhs = true → tests) (subject : Term) :
    R.Alike (rewrite env lhs rhs subject) (rewrite env' lhs rhs subject) := by
  unfold rewrite
  refine R.alike_bind (Pattern.alike_search he _ hlhs fun b => alike_instantiate he hrhs b)
    fun r => ?_
  cases r with
  | some result => exact R.alike_pure _
  | none =>
      have hunheld := hlhs.unheld
      dsimp only
      split
      · rename_i hcall
        rw [hcall] at hunheld
        refine R.alike_bind he.attributes fun attrs => ?_
        split
        · exact alike_applyInside he hrhs hunheld.2.1 hunheld.2.2 _ _ _
        · exact R.alike_pure none
      · exact R.alike_pure none

theorem alike_applyWith {rewrite : Term → Term → Term → m (Option Term)}
    {rewrite' : Term → Term → Term → n (Option Term)} {r : Rule} {subject : Term}
    (h : R.Alike (rewrite r.lhs r.rhs subject) (rewrite' r.lhs r.rhs subject)) :
    R.Alike (r.applyWith rewrite subject) (r.applyWith rewrite' subject) := by
  unfold applyWith
  split
  · exact R.alike_pure _
  · exact h

end Rule

/-- Looking a subject up is alike if the rules that may be tried apply alike. -/
theorem RuleList.alike_find? {m n : Type → Type} [Monad m] [Monad n] {R : Congruence m n}
    {l : RuleList} {apply : Rule → m (Option Term)} {apply' : Rule → n (Option Term)}
    {subject : Term}
    (h : ∀ r ∈ l.candidates subject, R.Alike (apply r) (apply' r)) :
    R.Alike (l.find? apply subject) (l.find? apply' subject) := by
  unfold find?
  split
  · exact R.alike_pure _
  · exact Congruence.alike_findSomeM? h

namespace Term

variable {m n : Type → Type} [Monad m] [Monad n] {R : Congruence m n}
  {first? : Term → m (Option Term)} {first?' : Term → n (Option Term)}

/-! ## replacement -/

theorem alike_replaceM (h : ∀ t, R.Alike (first? t) (first?' t)) (t : Term) :
    R.Alike (t.replaceM first?) (t.replaceM first?') :=
  R.alike_bind (h t) fun _ => R.alike_pure _

mutual

theorem alike_replaceAllM (h : ∀ t, R.Alike (first? t) (first?' t)) :
    ∀ t : Term, R.Alike (t.replaceAllM first?) (t.replaceAllM first?')
  | .node id head args => by
      rw [replaceAllM, replaceAllM]
      refine R.alike_bind (h _) fun r => ?_
      cases r with
      | some result => exact R.alike_pure _
      | none =>
          refine R.alike_bind (alike_replaceAllM h head) fun newHead => ?_
          refine R.alike_bind (alike_replaceAllsM h args) fun newArgs => ?_
          split <;> exact R.alike_pure _
  | .magic _ | .int _ | .float _ | .text _ | .symbol _ | .host _ => alike_replaceM h _

theorem alike_replaceAllsM (h : ∀ t, R.Alike (first? t) (first?' t)) :
    ∀ ts : List Term, R.Alike (replaceAllsM first? ts) (replaceAllsM first?' ts)
  | [] => R.alike_pure []
  | t :: ts => by
      rw [replaceAllsM, replaceAllsM]
      exact R.alike_bind (alike_replaceAllM h t) fun new =>
        R.alike_bind (alike_replaceAllsM h ts) fun news => R.alike_pure _

end

end Term

end Termwise
