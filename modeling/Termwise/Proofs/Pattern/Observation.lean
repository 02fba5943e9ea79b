import Termwise.Proofs.Pattern.Solutions

/-!
# Termwise.Proofs.Pattern.Observation

What can be said about the result of an action, whatever monad it runs in.  An
`Observation` is any relation between actions and conditions on their results that
composes along `pure` and `bind`: "the action succeeds with a result such that",
or "whenever the action succeeds, its result is such that".  Statements about a
search are proved once for every observation.
-/

namespace Termwise

/-- A relation between actions and conditions on their results that composes. -/
structure Observation (m : Type → Type) [Monad m] where
  /-- The result of an action satisfies a condition. -/
  Gives : {α : Type} → m α → (α → Prop) → Prop
  gives_pure : ∀ {α : Type} {a : α} {p : α → Prop}, p a → Gives (pure a) p
  gives_bind : ∀ {α β : Type} {x : m α} {f : α → m β} {p : α → Prop} {q : β → Prop},
    Gives x p → (∀ a, p a → Gives (f a) q) → Gives (x >>= f) q
  gives_mono : ∀ {α : Type} {x : m α} {p q : α → Prop}, Gives x p → (∀ a, p a → q a) → Gives x q

namespace Observation

variable {m : Type → Type} [Monad m] (o : Observation m)

/-- The answer of a search is a given one, read through `φ`. -/
def Answers {ρ σ : Type} (φ : ρ → σ) (x : m (Option ρ)) (answer : Option σ) : Prop :=
  o.Gives x fun r => r.map φ = answer

variable {o} {ρ σ : Type} {φ : ρ → σ}

theorem answers_none : o.Answers φ (pure none) none := o.gives_pure rfl

theorem answers_guard {c : Bool} {k : m (Option ρ)} {answer : Option σ}
    (hk : c = true → o.Answers φ k answer) :
    o.Answers φ (Pattern.guardM c k) (if c then answer else none) := by
  cases c with
  | true => exact hk rfl
  | false => exact answers_none

/-- A choice between two searches gives the answer of the first one that has one. -/
theorem answers_or {x y : m (Option ρ)} {a b : Option σ} (hx : o.Answers φ x a)
    (hy : o.Answers φ y b) :
    o.Answers φ (do match ← x with | some r => pure (some r) | none => y) (a.or b) := by
  refine o.gives_bind hx fun r hr => ?_
  subst hr
  cases r with
  | some r => exact o.gives_pure rfl
  | none => exact hy

theorem answers_findSomeM? {α : Type} {f : α → m (Option ρ)} {g : α → Option σ} {xs : List α}
    (h : ∀ x ∈ xs, o.Answers φ (f x) (g x)) :
    o.Answers φ (xs.findSomeM? f) (xs.findSome? g) := by
  induction xs with
  | nil => exact answers_none
  | cons x xs ih =>
      have hcons : (x :: xs).findSome? g = (g x).or (xs.findSome? g) := by
        rw [List.findSome?_cons]
        cases g x <;> rfl
      rw [List.findSomeM?_cons, hcons]
      exact answers_or (h x List.mem_cons_self) (ih fun y hy => h y (List.mem_cons_of_mem _ hy))

/-- A search over choices from a list gives the answer over the choices from any list that looks
the same through `ι`. -/
theorem answers_chooseM {α ι : Type} {look : α → ι} {n : Nat} {xs ys : List α}
    {k : List α → List α → m (Option ρ)} {g : List α × List α → Option σ}
    (hxy : xs.map look = ys.map look)
    (hk : ∀ taken left taken' left', taken.map look = taken'.map look →
      left.map look = left'.map look → o.Answers φ (k taken left) (g (taken', left'))) :
    o.Answers φ (chooseM n xs k) ((choices n ys).findSome? g) := by
  induction xs generalizing n ys k g with
  | nil =>
      obtain rfl : ys = [] := by simpa using hxy.symm
      cases n with
      | zero => simpa [chooseM, choices] using hk [] [] [] [] rfl rfl
      | succ n => exact answers_none
  | cons x xs ih =>
      obtain ⟨y, ys, rfl⟩ : ∃ y ys', ys = y :: ys' := by
        cases ys with
        | nil => simp at hxy
        | cons y ys => exact ⟨y, ys, rfl⟩
      simp only [List.map_cons, List.cons.injEq] at hxy
      obtain ⟨hx, hxs⟩ := hxy
      cases n with
      | zero => simpa [chooseM, choices] using hk [] (x :: xs) [] (y :: ys) rfl (by simp [hx, hxs])
      | succ n =>
          rw [choices, List.findSome?_append, List.findSome?_map, List.findSome?_map]
          refine answers_or (ih hxs ?_) (ih hxs ?_)
          · intro taken left taken' left' ht hl
            exact hk _ _ _ _ (by simp [hx, ht]) hl
          · intro taken left taken' left' ht hl
            exact hk _ _ _ _ ht (by simp [hx, hl])

end Observation

/-! ## surroundings -/

/-- Surroundings in which a search finds a given world.  Tests matter only where they are allowed. -/
structure Surroundings.Show {m : Type → Type} [Monad m] (env : Surroundings m) (o : Observation m)
    (w : World) (tests : Prop) : Prop where
  tick : o.Gives env.tick fun _ => True
  attributes : o.Gives env.attributes (· = w.attributes)
  share : ∀ t, o.Gives (env.share t) fun s => s.strip = t.strip
  enter : ∀ slot, o.Gives (env.enter slot) fun _ => True
  evaluate : tests → ∀ t t' : Term, t.strip = t'.strip →
    o.Gives (env.evaluate t) fun v => v.isSymbol .isTrue = w.holds t'

end Termwise
