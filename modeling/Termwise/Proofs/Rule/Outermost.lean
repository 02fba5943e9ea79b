import Termwise.Eval.Native
import Termwise.Proofs.Eval.Match
import Termwise.Proofs.Pattern.Simultaneous

/-!
# Termwise.Proofs.Rule.Outermost

Traversals that share, against plain ones.  `Term.replaceAllM` keeps a call whose parts
all come back as the very same; its specification (`Term.rewrittenM`) builds every call
to which no rule applies anew.  They ask for the same things in the same order
(`paired_replaceAllM`), and their results are structurally equal as far as what is the
very same is structurally equal (`SameIsEqual`): that is all the shortcut relies on.
-/

namespace Termwise

/-! ## two runs side by side -/

namespace EvalM

variable {α β α' β' : Type}

/-- From every kernel, two actions end in the same kernel, both with the same error or both with
results that are related. -/
def Paired (R : α → β → Prop) (x : EvalM α) (y : EvalM β) : Prop :=
  ∀ k, (∃ a b k', x.run k = (.ok a, k') ∧ y.run k = (.ok b, k') ∧ R a b) ∨
    ∃ e k', x.run k = (.error e, k') ∧ y.run k = (.error e, k')

variable {R : α → β → Prop} {S : α' → β' → Prop}

theorem paired_pure {a : α} {b : β} (h : R a b) : Paired R (pure a) (pure b) :=
  fun k => .inl ⟨a, b, k, rfl, rfl, h⟩

theorem paired_self (x : EvalM α) : Paired (· = ·) x x := by
  intro k
  rcases hx : x.run k with ⟨r, k'⟩
  cases r with
  | ok a => exact .inl ⟨a, a, k', rfl, rfl, rfl⟩
  | error e => exact .inr ⟨e, k', rfl, rfl⟩

theorem paired_bind {x : EvalM α} {y : EvalM β} {f : α → EvalM α'} {g : β → EvalM β'}
    (h : Paired R x y) (hfg : ∀ a b, R a b → Paired S (f a) (g b)) :
    Paired S (x >>= f) (y >>= g) := by
  intro k
  obtain ⟨a, b, k', hx, hy, hab⟩ | ⟨e, k', hx, hy⟩ := h k
  · rw [run_bind_ok hx, run_bind_ok hy]
    exact hfg a b hab k'
  · exact .inr ⟨e, k', run_bind_error hx, run_bind_error hy⟩

end EvalM

namespace Term

/-! ## the specification -/

section Specification

variable {m : Type → Type} [Monad m]

mutual

/-- A term with every part rewritten by the first rule that applies, outermost parts first; a call
to which none applies is built anew from its head and arguments. -/
def rewrittenM (first? : Term → m (Option Term)) : Term → m Term
  | .node id head args => do
    match ← first? (.node id head args) with
    | some result => return result
    | none => do
      let newHead ← rewrittenM first? head
      let newArgs ← rewrittensM first? args
      return call newHead newArgs
  | t => replaceM first? t

/-- Every term of a list with all its parts rewritten. -/
def rewrittensM (first? : Term → m (Option Term)) : List Term → m (List Term)
  | [] => return []
  | t :: ts => do
    let new ← rewrittenM first? t
    return new :: (← rewrittensM first? ts)

end

end Specification

/-! ## what is the very same -/

/-- Whether a part of the one term is structurally equal to a part of the other one wherever they
are the very same. -/
def SameIsEqual (t v : Term) : Prop :=
  t.Every fun a => v.Every fun b => b.same a = true → (b == a) = true

instance (t v : Term) : Decidable (t.SameIsEqual v) := inferInstanceAs (Decidable (t.Every _))

theorem SameIsEqual.parts {i j : Nat} {f g : Term} {xs ys : List Term}
    (h : (Term.node i f xs).SameIsEqual (.node j g ys)) :
    f.SameIsEqual g ∧ ∀ x ∈ xs, ∀ y ∈ ys, x.SameIsEqual y := by
  obtain ⟨-, hf, hxs⟩ := every_node.mp h
  exact ⟨hf.imp fun _ h => (every_node.mp h).2.1,
    fun x hx y hy => (hxs x hx).imp fun _ h => (every_node.mp h).2.2 y hy⟩

/-! ## the same result -/

/-- What two traversals of `t` may give, the one that shares `v` and the specification `v'`. -/
structure Agreed (t v v' : Term) : Prop where
  strip_eq : t.SameIsEqual v' → v.strip = v'.strip
  kept : t.SameIsEqual v' → v.same t = true → t.strip = v'.strip

/-- The same for the terms of a list. -/
structure AllAgreed (ts vs vs' : List Term) : Prop where
  strip_eq : (∀ t ∈ ts, ∀ v ∈ vs', t.SameIsEqual v) → vs.map strip = vs'.map strip
  kept : (∀ t ∈ ts, ∀ v ∈ vs', t.SameIsEqual v) → (vs.zip ts).all (fun a => a.1.same a.2) = true →
    ts.map strip = vs'.map strip

theorem agreed_of_eq (t v : Term) : Agreed t v v where
  strip_eq _ := rfl
  kept h hsame := ((beq_iff_strip v t).mp (h.here.here hsame)).symm

theorem AllAgreed.cons {t v v' : Term} {ts vs vs' : List Term} (h : Agreed t v v')
    (hs : AllAgreed ts vs vs') : AllAgreed (t :: ts) (v :: vs) (v' :: vs') := by
  have hsplit : (∀ x ∈ t :: ts, ∀ y ∈ v' :: vs', x.SameIsEqual y) →
      t.SameIsEqual v' ∧ ∀ x ∈ ts, ∀ y ∈ vs', x.SameIsEqual y := fun hall =>
    ⟨hall t List.mem_cons_self v' List.mem_cons_self,
      fun x hx y hy => hall x (List.mem_cons_of_mem _ hx) y (List.mem_cons_of_mem _ hy)⟩
  constructor
  · intro hall
    obtain ⟨hone, hrest⟩ := hsplit hall
    rw [List.map_cons, List.map_cons, h.strip_eq hone, hs.strip_eq hrest]
  · intro hall hsame
    obtain ⟨hone, hrest⟩ := hsplit hall
    rw [List.zip_cons_cons, List.all_cons, Bool.and_eq_true] at hsame
    rw [List.map_cons, List.map_cons, h.kept hone hsame.1, hs.kept hrest hsame.2]

/-- A call that is kept or built anew, once its parts agree. -/
theorem Agreed.node {i : Nat} {f g g' : Term} {xs ys ys' : List Term} (hf : Agreed f g g')
    (hxs : AllAgreed xs ys ys') :
    Agreed (.node i f xs)
      (if g.same f && (ys.zip xs).all (fun a => a.1.same a.2) then .node i f xs else call g ys)
      (call g' ys') := by
  split
  · rename_i hsame
    rw [Bool.and_eq_true] at hsame
    have hkept : (Term.node i f xs).SameIsEqual (call g' ys') →
        (Term.node i f xs).strip = (call g' ys').strip := by
      intro h
      obtain ⟨hhead, hargs⟩ := h.parts
      rw [strip_call, ← hf.kept hhead hsame.1, ← hxs.kept hargs hsame.2, strip, stripAll_eq_map]
      rfl
    exact ⟨hkept, fun h _ => hkept h⟩
  · constructor
    · intro h
      obtain ⟨hhead, hargs⟩ := h.parts
      rw [strip_call, strip_call, hf.strip_eq hhead, hxs.strip_eq hargs]
    · intro _ hsame
      -- a call built anew has no identity yet
      cases hsame

mutual

/-- The traversal that shares does what the specification does, and their results agree. -/
theorem paired_replaceAllM (first? : Term → EvalM (Option Term)) : ∀ t : Term,
    EvalM.Paired (Agreed t) (t.replaceAllM first?) (t.rewrittenM first?)
  | .node i f xs => by
      rw [replaceAllM, rewrittenM]
      refine EvalM.paired_bind (EvalM.paired_self _) fun r _ hr => ?_
      subst hr
      cases r with
      | some result => exact EvalM.paired_pure (agreed_of_eq _ result)
      | none =>
          refine EvalM.paired_bind (paired_replaceAllM first? f) fun g g' hf => ?_
          refine EvalM.paired_bind (paired_replaceAllsM first? xs) fun ys ys' hxs => ?_
          have hnode := Agreed.node (i := i) hf hxs
          split
          · rename_i hsame
            rw [if_pos hsame] at hnode
            exact EvalM.paired_pure hnode
          · rename_i hsame
            rw [if_neg hsame] at hnode
            exact EvalM.paired_pure hnode
  | .magic _ | .int _ | .float _ | .text _ | .symbol _ | .host _ =>
      EvalM.paired_bind (EvalM.paired_self _) fun _ _ hr =>
        hr ▸ EvalM.paired_pure (agreed_of_eq _ _)

theorem paired_replaceAllsM (first? : Term → EvalM (Option Term)) : ∀ ts : List Term,
    EvalM.Paired (AllAgreed ts) (replaceAllsM first? ts) (rewrittensM first? ts)
  | [] => EvalM.paired_pure ⟨fun _ => rfl, fun _ _ => rfl⟩
  | t :: ts => by
      rw [replaceAllsM, rewrittensM]
      refine EvalM.paired_bind (paired_replaceAllM first? t) fun v v' h => ?_
      refine EvalM.paired_bind (paired_replaceAllsM first? ts) fun vs vs' hs => ?_
      exact EvalM.paired_pure (.cons h hs)

end

/-! ## nothing to rewrite -/

section Observation

variable {m : Type → Type} [Monad m] {o : Observation m} {first? : Term → m (Option Term)}

theorem gives_replaceM_self {t : Term} (h : o.Gives (first? t) (· = none)) :
    o.Gives (t.replaceM first?) (· = t) :=
  o.gives_bind h fun _ hr => o.gives_pure (by rw [hr]; rfl)

mutual

/-- A term to no part of which a rule applies comes back as the very node it was, once its nodes
have identities. -/
theorem gives_replaceAllM_self : ∀ {t : Term}, (t.Every fun u => u.same u = true) →
    (t.Every fun u => o.Gives (first? u) (· = none)) → o.Gives (t.replaceAllM first?) (· = t)
  | .node i f xs, hsame, h => by
      obtain ⟨-, hf, hxs⟩ := every_node.mp h
      obtain ⟨-, hfsame, hxssame⟩ := every_node.mp hsame
      rw [replaceAllM]
      refine o.gives_bind h.here fun r hr => ?_
      subst hr
      refine o.gives_bind (gives_replaceAllM_self hfsame hf) fun g hg => ?_
      refine o.gives_bind (gives_replaceAllsM_self hxssame hxs) fun ys hys => ?_
      subst hg hys
      have hall : (ys.zip ys).all (fun a => a.1.same a.2) = true := by
        rw [List.zip_eq_zipWith, List.zipWith_self, List.all_map, List.all_eq_true]
        exact fun x hx => (hxssame x hx).here
      rw [hfsame.here, hall]
      exact o.gives_pure rfl
  | .magic _, _, h | .int _, _, h | .float _, _, h | .text _, _, h | .symbol _, _, h
  | .host _, _, h => gives_replaceM_self h

theorem gives_replaceAllsM_self : ∀ {ts : List Term},
    (∀ t ∈ ts, t.Every fun u => u.same u = true) →
    (∀ t ∈ ts, t.Every fun u => o.Gives (first? u) (· = none)) →
    o.Gives (replaceAllsM first? ts) (· = ts)
  | [], _, _ => o.gives_pure rfl
  | t :: ts, hsame, h => by
      obtain ⟨ht, hts⟩ := List.forall_mem_cons.mp h
      obtain ⟨htsame, htssame⟩ := List.forall_mem_cons.mp hsame
      rw [replaceAllsM]
      refine o.gives_bind (gives_replaceAllM_self htsame ht) fun v hv => ?_
      refine o.gives_bind (gives_replaceAllsM_self htssame hts) fun vs hvs => ?_
      exact o.gives_pure (by rw [hv, hvs])

end

end Observation

end Term

namespace Evaluator

/-- Substitution and replacement share what does not change, and still give what the plain
traversals give: substitution where only the values of names become runs in the place of an
argument, replacement with the same effects and errors, and as far as what is the very same is
structurally equal.  Where there is nothing to replace, both give the very node they were given. -/
theorem traversals_beq_plain (r : Evaluator) (c : ContextId) (rules : List Rule) (b : Bindings)
    (t : Term) (k : Kernel) :
    (t.RunsAreValues b → (t.substitute b == t.filled b) = true) ∧
    (t.Unbound b → t.substitute b = t) ∧
    ((∃ v v' k', (r.replace c true rules t).run k = (.ok v, k') ∧
        (t.rewrittenM (r.firstOf c rules)).run k = (.ok v', k') ∧
        (t.SameIsEqual v' → (v == v') = true)) ∨
      ∃ e k', (r.replace c true rules t).run k = (.error e, k') ∧
        (t.rewrittenM (r.firstOf c rules)).run k = (.error e, k')) ∧
    ∀ (v : Term) (k' : Kernel) (inv : Kernel → Prop), inv k →
      (t.Every fun u => u.same u = true) →
      (t.Every fun u => ∀ k₁ found k₂, inv k₁ →
        (r.firstOf c rules u).run k₁ = (.ok found, k₂) → inv k₂ ∧ found = none) →
      (r.replace c true rules t).run k = (.ok v, k') → v = t := by
  refine ⟨Term.substitute_beq_filled, Term.substitute_of_unbound, ?_, ?_⟩
  · obtain ⟨v, v', k', hrun, hplain, h⟩ | herror :=
      Term.paired_replaceAllM (r.firstOf c rules) t k
    · exact .inl ⟨v, v', k', hrun, hplain, fun hsame =>
        (Term.beq_iff_strip v v').mpr (h.strip_eq hsame)⟩
    · exact .inr herror
  · intro v k' inv hinv hsame hnone hrun
    have hgives : (EvalM.whenDone inv).Gives (t.replaceAllM (r.firstOf c rules)) (· = t) :=
      Term.gives_replaceAllM_self hsame (hnone.imp fun u hu k₁ found k₂ => hu k₁ found k₂)
    exact (hgives k v k' hinv hrun).2

/-- `x` bound to the run `1, 2` in `{x, {x}, 3}` gives `{1, 2, {1, 2}, 3}`; the rule `{1} → 0` takes
`{{1}, {2}}` to `{0, {2}}`, and `{{2}}` to the very node it was. -/
theorem traversals_beq_plain_list :
    ((Term.app .list [.symbol ⟨40, "x"⟩, .app .list [.symbol ⟨40, "x"⟩], .int 3]).substitute
        ⟨[(⟨40, "x"⟩, .marker [.int 1, .int 2])]⟩ ==
      Term.app .list [.int 1, .int 2, .app .list [.int 1, .int 2], .int 3]) = true ∧
    (Term.node 7 (.symbol .list) [.symbol ⟨41, "y"⟩]).substitute
        ⟨[(⟨40, "x"⟩, .marker [.int 1, .int 2])]⟩ =
      Term.node 7 (.symbol .list) [.symbol ⟨41, "y"⟩] ∧
    (∃ v k', (still.replace ⟨0⟩ true
        [Rule.make newKernel.attributes (.app .list [.int 1]) (.int 0) .immediate]
        (.node 7 (.symbol .list) [.node 5 (.symbol .list) [.int 1],
          .node 6 (.symbol .list) [.int 2]])).run newKernel = (.ok v, k') ∧
      (v == Term.app .list [.int 0, .app .list [.int 2]]) = true) ∧
    ∀ v k', (still.replace ⟨0⟩ true
        [Rule.make newKernel.attributes (.app .list [.int 1]) (.int 0) .immediate]
        (.node 7 (.symbol .list) [.node 6 (.symbol .list) [.int 2]])).run newKernel = (.ok v, k') →
      v = .node 7 (.symbol .list) [.node 6 (.symbol .list) [.int 2]] := by
  refine ⟨(traversals_beq_plain still ⟨0⟩ [] _ _ newKernel).1 (by decide),
    (traversals_beq_plain still ⟨0⟩ [] _ _ newKernel).2.1 ?_, ?_, ?_⟩
  · exact ⟨nofun, fun _ h => by cases h; rfl, fun _ h => by cases h; rfl, trivial⟩
  · obtain ⟨v, v', k', hrun, hplain, h⟩ | ⟨e, k', hrun, -⟩ := (traversals_beq_plain still ⟨0⟩
      [Rule.make newKernel.attributes (.app .list [.int 1]) (.int 0) .immediate] .empty
      (.node 7 (.symbol .list) [.node 5 (.symbol .list) [.int 1],
        .node 6 (.symbol .list) [.int 2]]) newKernel).2.2.1
    · cases hplain
      exact ⟨v, _, hrun, h (by decide +kernel)⟩
    · cases hrun
  · intro v k' hrun
    refine (traversals_beq_plain still ⟨0⟩ _ .empty _ newKernel).2.2.2 v k' (fun _ => True) trivial
      (by decide) ?_ hrun
    refine ⟨?_, ?_, ⟨?_, ?_, ?_, trivial⟩, trivial⟩
    all_goals
      intro k₁ found k₂ _ hrun
      cases hrun
      exact ⟨trivial, rfl⟩

end Evaluator

end Termwise
