import Termwise.Proofs.Kernel.Plain
import Termwise.Proofs.Pattern.Naming

/-!
# Termwise.Proofs.Pattern.Correspondence

Actions of two runs that correspond.  A `Congruence` relates actions with one result; here
the results are terms of two runs, so a `Correspondence` relates actions by a relation
between their results, and from a stage of the two runs on.  In surroundings that correspond
(`Surroundings.Correspond`), searches of patterns that correspond up to their names, for
corresponding subjects, correspond.
-/

namespace Termwise

/-- A relation between actions of two runs that composes. -/
structure Correspondence (W : Type) [Preorder W] (m n : Type → Type) [Monad m] [Monad n] where
  /-- From a stage on, two actions correspond; their results are related as of the stage that the
  runs then have reached. -/
  Alike : {α β : Type} → W → (W → α → β → Prop) → m α → n β → Prop
  later : ∀ {α β : Type} {w w' : W} {R : W → α → β → Prop} {x : m α} {y : n β},
    w ≤ w' → Alike w R x y → Alike w' R x y
  alike_pure : ∀ {α β : Type} {w : W} {R : W → α → β → Prop} {a : α} {b : β},
    (∀ w', w ≤ w' → R w' a b) → Alike w R (pure a) (pure b)
  alike_bind : ∀ {α β γ δ : Type} {w : W} {R : W → α → β → Prop} {S : W → γ → δ → Prop}
    {x : m α} {y : n β} {f : α → m γ} {g : β → n δ}, Alike w R x y →
    (∀ w' a b, w ≤ w' → R w' a b → Alike w' S (f a) (g b)) → Alike w S (x >>= f) (y >>= g)

namespace Correspondence

variable {W : Type} [Preorder W] {m n : Type → Type} [Monad m] [Monad n]
  {C : Correspondence W m n} {α β γ δ ρ τ : Type} {w : W} {R : W → ρ → τ → Prop}

/-- What is so related at a stage is so at all later ones. -/
structure Lasting (R : W → ρ → τ → Prop) : Prop where
  later : ∀ {w w' : W} {a : ρ} {b : τ}, w ≤ w' → R w a b → R w' a b

theorem lasting_like (L : Likeness W) : Lasting L.Like := ⟨L.later⟩

theorem Lasting.maybe {R : W → ρ → τ → Prop} (hR : Lasting R) :
    Lasting fun w => Option.Rel (R w) where
  later hw h := by
    cases h with
    | some h => exact .some (hR.later hw h)
    | none => exact .none

theorem lasting_const (Q : ρ → τ → Prop) : Lasting fun _ : W => Q := ⟨fun _ h => h⟩

/-- Optional results: both runs have one, or neither. -/
abbrev Answers (C : Correspondence W m n) (w : W) (R : W → ρ → τ → Prop) (x : m (Option ρ))
    (y : n (Option τ)) : Prop := C.Alike w (fun w => Option.Rel (R w)) x y

theorem answers_none : C.Answers w R (pure none) (pure none) :=
  C.alike_pure fun _ _ => .none

/-- What is done first has no result of interest. -/
theorem alike_then {Q : W → α → β → Prop} {S : W → γ → δ → Prop} {x : m α} {y : n β} {u : m γ}
    {v : n δ} (hx : C.Alike w Q x y) (hu : C.Alike w S u v) :
    C.Alike w S (x >>= fun _ => u) (y >>= fun _ => v) :=
  C.alike_bind hx fun _ _ _ hw _ => C.later hw hu

/-- What is done first has one result in both runs. -/
theorem alike_read {S : W → γ → δ → Prop} {x : m α} {y : n α} {f : α → m γ} {g : α → n δ}
    (hx : C.Alike w (fun _ => Eq) x y) (hf : ∀ a, C.Alike w S (f a) (g a)) :
    C.Alike w S (x >>= f) (y >>= g) :=
  C.alike_bind hx fun _ a b hw hab => by
    cases hab
    exact C.later hw (hf a)

theorem alike_some [LawfulMonad m] [LawfulMonad n] {x : m ρ} {y : n τ} (hR : Lasting R)
    (h : C.Alike w R x y) : C.Answers w R (some <$> x) (some <$> y) := by
  rw [map_eq_pure_bind, map_eq_pure_bind]
  exact C.alike_bind h fun _ _ _ _ hab => C.alike_pure fun _ hw => .some (hR.later hw hab)

/-- Whether there are results is the same in both runs. -/
theorem alike_results [LawfulMonad m] [LawfulMonad n] {x : m (Option ρ)} {y : n (Option τ)}
    (h : C.Answers w R x y) : C.Answers w (fun _ _ _ => True) x y := by
  rw [← bind_pure x, ← bind_pure y]
  refine C.alike_bind h fun _ _ _ _ ho => C.alike_pure fun _ _ => ?_
  cases ho with
  | some => exact .some trivial
  | none => exact .none

theorem alike_guard {c c' : Bool} {k : m (Option ρ)} {k' : n (Option τ)} (hc : c = c')
    (h : C.Answers w R k k') : C.Answers w R (Pattern.guardM c k) (Pattern.guardM c' k') := by
  subst hc
  cases c with
  | true => exact h
  | false => exact answers_none

theorem alike_or {x y : m (Option ρ)} {x' y' : n (Option τ)} (hx : C.Answers w R x x')
    (hy : C.Answers w R y y') (hR : Lasting R) :
    C.Answers w R (do match ← x with | some r => pure (some r) | none => y)
      (do match ← x' with | some r => pure (some r) | none => y') := by
  refine C.alike_bind hx fun w' r r' hw hr => ?_
  cases hr with
  | some h => exact C.alike_pure fun _ hw' => .some (hR.later hw' h)
  | none => exact C.later hw hy

theorem alike_findSomeM? {P : α → β → Prop} {f : α → m (Option ρ)} {g : β → n (Option τ)}
    {xs : List α} {ys : List β} (hR : Lasting R)
    (hxs : List.Forall₂ P xs ys) (h : ∀ x ∈ xs, ∀ y, P x y → C.Answers w R (f x) (g y)) :
    C.Answers w R (xs.findSomeM? f) (ys.findSomeM? g) := by
  induction hxs with
  | nil => exact answers_none
  | cons hx _ ih =>
      rw [List.findSomeM?_cons, List.findSomeM?_cons]
      exact alike_or (h _ List.mem_cons_self _ hx)
        (ih fun x hmem y hy => h x (List.mem_cons_of_mem _ hmem) y hy) hR

theorem alike_findSomeM?_same {f : α → m (Option ρ)} {g : α → n (Option τ)} {xs : List α}
    (hR : Lasting R) (h : ∀ x ∈ xs, C.Answers w R (f x) (g x)) :
    C.Answers w R (xs.findSomeM? f) (xs.findSomeM? g) :=
  alike_findSomeM? hR (List.forall₂_same.mpr fun _ _ => rfl) fun x hx y hxy => by
    cases hxy
    exact h x hx

theorem alike_chooseM {P : α → β → Prop} {count : Nat} {xs : List α} {ys : List β}
    {k : List α → List α → m (Option ρ)} {k' : List β → List β → n (Option τ)}
    (hR : Lasting R) (hxs : List.Forall₂ P xs ys)
    (h : ∀ taken left taken' left', List.Forall₂ P taken taken' → List.Forall₂ P left left' →
      C.Answers w R (k taken left) (k' taken' left')) :
    C.Answers w R (chooseM count xs k) (chooseM count ys k') := by
  induction hxs generalizing count k k' with
  | nil =>
      cases count with
      | zero => exact h [] [] [] [] .nil .nil
      | succ count => exact answers_none
  | cons hx hrest ih =>
      cases count with
      | zero => exact h [] _ [] _ .nil (.cons hx hrest)
      | succ count =>
          exact alike_or (ih fun _ _ _ _ htaken hleft => h _ _ _ _ (.cons hx htaken) hleft)
            (ih fun _ _ _ _ htaken hleft => h _ _ _ _ htaken (.cons hx hleft)) hR

/-! ## actions with a state -/

/-- Two actions with a state of their own correspond if they do from corresponding states on. -/
def state (C : Correspondence W m n) {σ : Type} (Q : W → σ → σ → Prop)
    (hQ : Lasting Q) :
    Correspondence W (StateT σ m) (StateT σ n) where
  Alike {α β} w R x y := ∀ w' s s', w ≤ w' → Q w' s s' →
    C.Alike w' (fun w (p : α × σ) (q : β × σ) => R w p.1 q.1 ∧ Q w p.2 q.2) (x.run s) (y.run s')
  later hw h w' s s' hw' := h w' s s' (hw.trans hw')
  alike_pure h _ _ _ hw hs := C.alike_pure fun w' hw' => ⟨h w' (hw.trans hw'), hQ.later hw' hs⟩
  alike_bind hx hf w' s s' hw hs := C.alike_bind (hx w' s s' hw hs) fun w'' p q hw' hpq =>
    hf w'' p.1 q.1 (hw.trans hw') hpq.1 w'' p.2 q.2 le_rfl hpq.2

variable {σ : Type} {Q : W → σ → σ → Prop} {hQ : Lasting Q}

theorem alike_lift {S : W → α → β → Prop} {x : m α} {y : n β}
    (hS : Lasting S) (h : C.Alike w S x y) :
    (C.state Q hQ).Alike w S (liftM x) (liftM y) := fun _ _ _ hw hs =>
  C.alike_bind (C.later hw h) fun _ _ _ hw' hab => C.alike_pure fun _ hw'' =>
    ⟨hS.later hw'' hab, hQ.later (hw'.trans hw'') hs⟩

theorem alike_modifyState {f g : σ → σ}
    (h : ∀ {w' s s'}, w ≤ w' → Q w' s s' → Q w' (f s) (g s')) :
    (C.state Q hQ).Alike w (fun _ _ _ => True) (modify f) (modify g) := fun _ _ _ hw hs =>
  C.alike_pure fun _ hw' => ⟨trivial, h (hw.trans hw') (hQ.later hw' hs)⟩

theorem alike_getState : (C.state Q hQ).Alike w Q get get := fun _ _ _ _ hs =>
  C.alike_pure fun _ hw' => ⟨hQ.later hw' hs, hQ.later hw' hs⟩

/-- The results of two actions, their own states forgotten. -/
theorem alike_run' [LawfulMonad m] [LawfulMonad n] {S : W → α → β → Prop} {x : StateT σ m α}
    {y : StateT σ n β} (hS : Lasting S)
    (h : (C.state Q hQ).Alike w S x y) {s s' : σ} (hs : Q w s s') :
    C.Alike w S (x.run' s) (y.run' s') := by
  have hrun : x.run' s = x.run s >>= fun p => pure p.1 := map_eq_pure_bind _ _
  have hrun' : y.run' s' = y.run s' >>= fun p => pure p.1 := map_eq_pure_bind _ _
  rw [hrun, hrun']
  exact C.alike_bind (h w s s' le_rfl hs) fun w' p q _ hpq =>
    C.alike_pure fun w'' hw => hS.later hw hpq.1

end Correspondence

/-! ## surroundings -/

/-- Surroundings of two runs that correspond, in what may be asked of them. -/
structure Surroundings.Correspond {W : Type} [Preorder W] {m n : Type → Type} [Monad m] [Monad n]
    (env : Surroundings m) (env' : Surroundings n) (L : Likeness W) (Q : Requests W)
    (C : Correspondence W m n) : Prop where
  tick : ∀ w, C.Alike w (fun _ _ _ => True) env.tick env'.tick
  attributes : ∀ w, C.Alike w (fun _ => Eq) env.attributes env'.attributes
  evaluate : ∀ {w t t'}, Q.Tests w t t' → C.Alike w L.Like (env.evaluate t) (env'.evaluate t')
  share : ∀ {w t t'}, L.Like w t t' → C.Alike w L.Like (env.share t) (env'.share t')
  enter : ∀ {w f f'} (index count : Nat), L.Like w f f' →
    C.Alike w (fun _ _ _ => True) (env.enter ⟨f, index, count⟩) (env'.enter ⟨f', index, count⟩)
  default? : Q.Defaults → ∀ w, C.Answers w L.Like env.default? env'.default?

namespace Pattern

open Correspondence

variable {W : Type} [Preorder W] {m n : Type → Type} [Monad m] [Monad n] {L : Likeness W}
  {N : Naming} {Q : Requests W} {C : Correspondence W m n} {env : Surroundings m}
  {env' : Surroundings n}
  {ρ τ : Type} {w : W} {known : Symbol → Prop} {R : W → ρ → τ → Prop} {t t' : Term}
  {b b' : Bindings}

/-- What is left to be done under bindings that correspond corresponds, from a stage on, when some
names are bound. -/
def Continues (L : Likeness W) (N : Naming) (C : Correspondence W m n) (w : W)
    (known : Symbol → Prop) (R : W → ρ → τ → Prop) (k : Bindings → m (Option ρ))
    (k' : Bindings → n (Option τ)) : Prop :=
  ∀ {w' : W} {b b' : Bindings}, w ≤ w' → L.Rebound N w' known b b' → C.Answers w' R (k b) (k' b')

variable {k : Bindings → m (Option ρ)} {k' : Bindings → n (Option τ)}

theorem Continues.later {w' : W} (hk : Continues L N C w known R k k') (hw : w ≤ w') :
    Continues L N C w' known R k k' := fun hw' hb => hk (hw.trans hw') hb

/-- More is known to be bound. -/
theorem Continues.learn {known' : Symbol → Prop} (hk : Continues L N C w known R k k')
    (hknown : ∀ x, known x → known' x) : Continues L N C w known' R k k' := fun hw hb =>
  hk hw (hb.forget fun x _ => hknown x)

theorem correspond_holds (he : env.Correspond env' L Q C)
    (h : Q.Tests w (t.substitute b) (t'.substitute b')) :
    C.Alike w (fun _ => Eq) (holds env b t) (holds env' b' t') :=
  C.alike_bind (he.evaluate h) fun _ _ _ _ hv =>
    C.alike_pure fun _ _ => Likeness.isSymbol_eq hv .isTrue

theorem correspond_accepts (he : env.Correspond env' L Q C) {f f' : Term}
    (h : Q.Tests w (.call f t.run) (.call f' t'.run)) :
    C.Alike w (fun _ => Eq) (accepts env f t) (accepts env' f' t') :=
  C.alike_bind (he.evaluate h) fun _ _ _ _ hv =>
    C.alike_pure fun _ _ => Likeness.isSymbol_eq hv .isTrue

/-! ## searches -/

theorem hasType_congr {type type' : Option Term} (htype : L.Maybe w type type')
    (h : L.Like w t t') : t.hasType type = t'.hasType type' := by
  rw [← Term.hasType_strip type t, L.strip_eq h, Term.hasType_strip]
  cases htype with
  | none => rfl
  | some hhead =>
      cases t' with
      | node i f xs => exact Term.beq_congr rfl (L.strip_eq hhead)
      | int _ | float _ | text _ | symbol _ =>
          simp only [Term.hasType, Likeness.isSymbol_eq hhead]
      | magic _ | host _ => rfl

theorem single?_any_congr {q q' : Term → Bool} (hq : ∀ {t t'}, L.Like w t t' → q t = q' t')
    (h : L.Like w t t') : t.single?.any q = t'.single?.any q' := by
  have hsingle := Likeness.maybe_single? h
  generalize t.single? = o, t'.single? = o' at hsingle
  cases hsingle with
  | none => rfl
  | some h => exact hq h

theorem isEmpty_congr {α β : Type} {Q : α → β → Prop} {xs : List α} {ys : List β}
    (h : List.Forall₂ Q xs ys) : xs.isEmpty = ys.isEmpty := by
  cases h <;> rfl

theorem all_congr {q q' : Term → Bool} {xs ys : List Term}
    (hq : ∀ {t t'}, L.Like w t t' → q t = q' t') (h : L.All w xs ys) : xs.all q = ys.all q' := by
  induction h with
  | nil => rfl
  | cons h _ ih => rw [List.all_cons, List.all_cons, hq h, ih]

/-- Repetitions, after the first of which more names are bound. -/
theorem correspond_searchRepeated (he : env.Correspond env' L Q C) (hR : Lasting R)
    {size size' : Bindings → Size} {more : Symbol → Prop}
    {one : Term → Bindings → (Bindings → m (Option ρ)) → m (Option ρ)}
    {one' : Term → Bindings → (Bindings → n (Option τ)) → n (Option τ)} {least most : Nat}
    (hsize : ∀ {w' b b'}, w ≤ w' → L.Rebound N w' known b b' → size b = size' b')
    (hmore : ∀ x, known x → more x)
    (hone : ∀ {w' t t' b b' k k'}, w ≤ w' → L.Like w' t t' → L.Rebound N w' known b b' →
      Continues L N C w' more R k k' → C.Answers w' R (one t b k) (one' t' b' k'))
    (hnone : least = 0 → Continues L N C w known R k k') (hsome : Continues L N C w more R k k')
    (bound : Nat) {w' : W} {items items' : List Term} {count : Nat} {b b' : Bindings}
    (hw : w ≤ w') (hitems : L.All w' items items') (hb : L.Rebound N w' known b b')
    (hcount : count ≠ 0 → L.Rebound N w' more b b') :
    C.Answers w' R (searchRepeated env size one least most k bound items count b)
      (searchRepeated env' size' one' least most k' bound items' count b') := by
  -- without items left, either none was read or one at least
  have hend : ∀ {w' : W} {count : Nat} {b b' : Bindings}, w ≤ w' → L.Rebound N w' known b b' →
      (count ≠ 0 → L.Rebound N w' more b b') →
      C.Answers w' R (guardM (least ≤ count) (k b)) (guardM (least ≤ count) (k' b')) := by
    intro w' count b b' hw hb hcount
    by_cases hzero : count = 0
    · by_cases hleast : least = 0
      · exact alike_guard rfl (hnone hleast hw hb)
      · have hlt : decide (least ≤ count) = false := decide_eq_false (by omega)
        rw [hlt]
        exact answers_none
    · exact alike_guard rfl (hsome hw (hcount hzero))
  induction bound generalizing w' items items' count b b' with
  | zero =>
      cases hitems with
      | nil => exact hend hw hb hcount
      | cons => exact answers_none
  | succ bound ih =>
      cases hitems with
      | nil => exact hend hw hb hcount
      | @cons item item' rest rest' hitem hrest =>
          have hall : L.All w' (item :: rest) (item' :: rest') := .cons hitem hrest
          rw [searchRepeated, searchRepeated]
          split
          · exact answers_none
          dsimp only
          rw [hsize hw hb, hall.length_eq]
          refine alike_findSomeM?_same hR fun length _ => ?_
          have hvalue := Likeness.like_value (size' b') .none (hall.take length)
          refine C.alike_bind (he.share hvalue) fun w'' value value' hw' hvalue => ?_
          refine hone (hw.trans hw') hvalue (hb.later hw') fun hw'' hb => ?_
          exact ih (hw.trans (hw'.trans hw'')) ((hall.drop length).later (hw'.trans hw''))
            (hb.forget fun x _ => hmore x) fun _ => hb

/-- Free arguments that correspond, at the same positions. -/
abbrev Free (L : Likeness W) (w : W) : List (Term × Nat) → List (Term × Nat) → Prop :=
  List.Forall₂ fun a a' => L.Like w a.1 a'.1 ∧ a.2 = a'.2

theorem Free.later {w' : W} {free free' : List (Term × Nat)} (h : Free L w free free')
    (hw : w ≤ w') : Free L w' free free' :=
  List.Forall₂.imp (fun _ _ ha => ⟨L.later hw ha.1, ha.2⟩) h

theorem Free.map_fst {free free' : List (Term × Nat)} (h : Free L w free free') :
    L.All w (free.map (·.1)) (free'.map (·.1)) := by
  induction h with
  | nil => exact .nil
  | cons ha _ ih => exact .cons ha.1 ih

theorem Free.map_snd {free free' : List (Term × Nat)} (h : Free L w free free') :
    free.map (·.2) = free'.map (·.2) := by
  induction h with
  | nil => rfl
  | cons ha _ ih => rw [List.map_cons, List.map_cons, ha.2, ih]

theorem free_zipIdx {xs ys : List Term} (h : L.All w xs ys) (i : Nat) :
    Free L w (xs.zipIdx i) (ys.zipIdx i) := by
  induction h generalizing i with
  | nil => exact .nil
  | cons hx _ ih => exact .cons ⟨hx, rfl⟩ (ih (i + 1))

mutual

/-- Searches of patterns that correspond up to their names, for subjects that correspond. -/
theorem correspond_search (he : env.Correspond env' L Q C) :
    ∀ (p : Pattern) {p' : Pattern} {ρ τ : Type} {w : W} {known : Symbol → Prop}
      {R : W → ρ → τ → Prop} {t t' : Term} {b b' : Bindings} {k : Bindings → m (Option ρ)}
      {k' : Bindings → n (Option τ)}, Lasting R → L.Renames N Q w known p p' → L.Like w t t' →
      L.Rebound N w known b b' → Continues L N C w (p.After known) R k k' →
      C.Answers w R (p.search env ρ t b k) (p'.search env' τ t' b' k')
  | atom a, _, ρ, τ, w, _, R, t, t', b, b', k, k', _, .atom ha, ht, hb, hk
  | literal a, _, ρ, τ, w, _, R, t, t', b, b', k, k', _, .literal ha, ht, hb, hk => by
      rw [search, search]
      refine alike_then (he.tick w) (alike_guard ?_ (hk le_rfl (hb.bare fun _ => id)))
      exact single?_any_congr (fun ht => Likeness.beq_congr ht ha) ht
  | blank type, _, ρ, τ, w, _, R, t, t', b, b', k, k', _, .blank htype, ht, hb, hk => by
      rw [search, search]
      refine alike_then (he.tick w) (alike_guard ?_ (hk le_rfl (hb.bare fun _ => id)))
      exact single?_any_congr (fun ht => hasType_congr htype ht) ht
  | blankSequence type, _, ρ, τ, w, _, R, t, t', b, b', k, k', _, .blankSequence htype, ht, hb,
      hk => by
      rw [search, search]
      refine alike_then (he.tick w) (alike_guard ?_ (hk le_rfl (hb.bare fun _ => id)))
      have hrun := Likeness.all_run ht
      rw [all_congr (fun ht => hasType_congr htype ht) hrun, isEmpty_congr hrun]
  | blankNullSequence type, _, ρ, τ, w, _, R, t, t', b, b', k, k', _, .blankNullSequence htype, ht,
      hb, hk => by
      rw [search, search]
      refine alike_then (he.tick w) (alike_guard ?_ (hk le_rfl (hb.bare fun _ => id)))
      exact all_congr (fun ht => hasType_congr htype ht) (Likeness.all_run ht)
  | named x p, _, ρ, τ, w, known, R, t, t', b, b', k, k', hR, .named hx hp, ht, hb, hk => by
      rw [search, search]
      refine alike_then (he.tick w) ?_
      have hk : Continues L N C w (p.After fun y => y = x ∨ known y) R k k' :=
        hk.learn fun y hy => (or_assoc.trans or_left_comm).mp hy
      have hget := hb.get? hx
      cases hv : b.get? x with
      | some v =>
          have hb : L.Rebound N w (fun y => y = x ∨ known y) b b' := ⟨hb.entries, fun y hy hyx => by
            rcases hyx with rfl | hyk
            · rw [hv]; rfl
            · exact hb.bound y hy hyk⟩
          rw [hv] at hget
          generalize b'.get? _ = o' at hget
          cases hget with
          | some hvalue =>
              exact alike_guard (Likeness.beq_congr hvalue ht)
                (correspond_search he p hR hp ht hb hk)
      | none =>
          rw [hv] at hget
          generalize b'.get? _ = o' at hget
          cases hget with
          | none => exact correspond_search he p hR hp ht (hb.push hx ht) hk
  | condition p test, _, ρ, τ, w, _, R, t, t', b, b', k, k', hR, .condition hp htest, ht, hb,
      hk => by
      rw [search, search]
      refine alike_then (he.tick w) (correspond_search he p hR hp ht hb fun hw hb => ?_)
      exact alike_read (correspond_holds he (htest hw hb)) fun _ => alike_guard rfl (hk hw hb)
  | tested p f, _, ρ, τ, w, _, R, t, t', b, b', k, k', hR, .tested hp hf, ht, hb, hk => by
      rw [search, search]
      refine alike_then (he.tick w) (correspond_search he p hR hp ht hb fun hw hb => ?_)
      exact alike_read (correspond_accepts he (hf hw (L.later hw ht))) fun _ =>
        alike_guard rfl (hk hw hb)
  | alternatives choices, _, ρ, τ, w, _, R, t, t', b, b', k, k', hR, .alternatives hps, ht, hb,
      hk => by
      rw [search, search]
      exact alike_then (he.tick w) (correspond_searchChoices he choices hR hps
        (fun _ hp _ hx => hx.imp_left fun h => AllBind.binds h hp) ht hb hk)
  | repeated p _ least most, _, ρ, τ, w, known, R, t, t', b, b', k, k', hR, .repeated _ _ _ _ hp,
      ht, hb, hk => by
      rw [search, search]
      have hrun := Likeness.all_run ht
      have hmore : ∀ x, known x → p.After known x := fun _ => Or.inr
      rw [hrun.length_eq]
      refine alike_then (he.tick w) ?_
      refine correspond_searchRepeated (R := R) he hR
        (fun hw hb => (hp.later hw).size_eq hb .none) hmore (fun hw ht hb hk => ?_)
        (fun hleast => ?_) ?_ _ le_rfl hrun hb (fun h => absurd rfl h)
      · exact correspond_search he p hR (hp.later hw) ht hb hk
      · exact hk.learn fun x hx => hx.resolve_left fun h => h.1 hleast
      · exact hk.learn fun x hx => hx.imp_left And.right
  | optional p d, _, ρ, τ, w, _, R, t, t', b, b', k, k', hR, .optional hp hd hnone, ht, hb,
      hk => by
      rename_i p' d'
      have hfill : ∀ w' o o', w ≤ w' → L.Maybe w' o o' → C.Answers w' R
          (match o with | some d => p.search env ρ d b k | none => pure none)
          (match o' with | some d => p'.search env' τ d b' k' | none => pure none) := by
        intro w' o o' hw ho
        cases ho with
        | some hd => exact correspond_search he p hR (hp.later hw) hd (hb.later hw) (hk.later hw)
        | none => exact answers_none
      cases hd <;>
        rw [search, search, Likeness.isMarker_eq ht, isEmpty_congr (Likeness.all_args ht)]
      case some hd =>
        refine alike_then (he.tick w) ?_
        split
        · exact C.alike_bind (C.alike_pure fun w' hw => .some (L.later hw hd)) hfill
        · exact correspond_search he p hR hp ht hb hk
      case none =>
        refine alike_then (he.tick w) ?_
        split
        · exact C.alike_bind (he.default? (hnone rfl) w) hfill
        · exact correspond_search he p hR hp ht hb hk
  | hold p, _, ρ, τ, w, _, R, t, t', b, b', k, k', hR, .hold hp, ht, hb, hk
  | longest p, _, ρ, τ, w, _, R, t, t', b, b', k, k', hR, .longest hp, ht, hb, hk
  | shortest p, _, ρ, τ, w, _, R, t, t', b, b', k, k', hR, .shortest hp, ht, hb, hk => by
      rw [search, search]
      exact alike_then (he.tick w) (correspond_search he p hR hp ht hb hk)
  | sequence parts, _, ρ, τ, w, _, R, t, t', b, b', k, k', hR, .sequence hps, ht, hb, hk => by
      rw [search, search, hps.length_eq]
      refine alike_then (he.tick w) (correspond_searchSlots he parts hR hps .none (L.symbol w _)
        (Likeness.all_run ht) hb fun hw hb hrest => alike_guard (isEmpty_congr hrest) (hk hw hb))
  | except no, _, ρ, τ, w, _, R, t, t', b, b', k, k', hR, .except hno, ht, hb, hk => by
      rw [search, search]
      refine alike_then (he.tick w) (C.alike_bind (correspond_search he no (lasting_const Eq) hno
        ht hb fun _ _ => C.alike_pure fun _ _ => .some rfl)
        fun w' o o' hw ho => ?_)
      cases ho with
      | some => exact answers_none
      | none =>
          refine alike_guard ?_ (hk hw ((hb.later hw).bare fun _ => id))
          have hsingle := Likeness.maybe_single? ht
          generalize t.single? = o, t'.single? = o' at hsingle
          cases hsingle <;> rfl
  | exceptThen no p, _, ρ, τ, w, _, R, t, t', b, b', k, k', hR, .exceptThen hno hp, ht, hb,
      hk => by
      rw [search, search]
      refine alike_then (he.tick w) (C.alike_bind (correspond_search he no (lasting_const Eq) hno
        ht hb fun _ _ => C.alike_pure fun _ _ => .some rfl)
        fun w' o o' hw ho => ?_)
      cases ho with
      | some => exact answers_none
      | none =>
          exact correspond_search he p hR (hp.later hw) (L.later hw ht) (hb.later hw) (hk.later hw)
  | call whole head args, _, ρ, τ, w, known, R, t, t', b, b', k, k', hR,
      .call hwhole _ hbinds hhead hargs, ht, hb, hk => by
      rw [search, search]
      refine alike_then (he.tick w) ?_
      have hsingle := Likeness.maybe_single? ht
      generalize t.single? = o, t'.single? = o' at hsingle
      cases hsingle with
      | none => exact answers_none
      | @some subject subject' hsubject =>
          refine alike_read (he.attributes w) fun attrs => ?_
          rw [← hwhole.literal attrs]
          split
          · rename_i hl
            exact alike_guard (Likeness.beq_congr (hwhole.like attrs hl) hsubject)
              (hk le_rfl (hb.forget fun x hx h => h.resolve_left (hbinds attrs hl x hx)))
          cases subject with
          | node i f xs =>
              obtain ⟨j, g, ys, rfl, hf, hxs⟩ := Likeness.exists_node hsubject
              refine correspond_search he head hR hhead hf hb fun {w' b b'} hw hb => ?_
              refine alike_read (he.attributes w') fun attrs => ?_
              have hattrs : (Term.node i f xs).headAttributes attrs =
                  (Term.node j g ys).headAttributes attrs :=
                Likeness.congr_strip (Term.headAttributes_strip attrs) hsubject
              have hf := L.later hw hf
              have hxs := hxs.later hw
              have hargs := hargs.later hw
              have hk : Continues L N C w' (AfterAll args (head.After known)) R k k' :=
                Continues.learn (hk.later hw) fun x hx => (or_assoc.trans or_left_comm).mp hx
              dsimp only
              rw [hattrs, hxs.length_eq, hargs.totalRange_eq hb, hargs.length_eq]
              have hflat : L.Maybe w' (if ((Term.node j g ys).headAttributes attrs).has .flat
                  then some f else none) (if ((Term.node j g ys).headAttributes attrs).has .flat
                  then some g else none) := by
                split
                · exact .some hf
                · exact .none
              split
              · exact answers_none
              split
              · refine correspond_searchAnywhere he args hR hargs hflat hf (free_zipIdx hxs 0) hb
                  fun hw' hb hfree => alike_guard (isEmpty_congr hfree) (hk hw' hb)
              · refine correspond_searchSlots he args hR hargs hflat hf hxs hb
                  fun hw' hb hrest => alike_guard (isEmpty_congr hrest) (hk hw' hb)
          | _ =>
              have hstrip := L.strip_eq hsubject
              cases subject' with
              | node => simp [Term.strip] at hstrip
              | _ => exact answers_none
termination_by structural p => p

theorem correspond_searchChoices (he : env.Correspond env' L Q C) :
    ∀ (ps : List Pattern) {ps' : List Pattern} {ρ τ : Type} {w : W} {known after : Symbol → Prop}
      {R : W → ρ → τ → Prop} {t t' : Term} {b b' : Bindings} {k : Bindings → m (Option ρ)}
      {k' : Bindings → n (Option τ)}, Lasting R → L.RenamesEach N Q w known ps ps' →
      (∀ p ∈ ps, ∀ x, after x → p.After known x) → L.Like w t t' → L.Rebound N w known b b' →
      Continues L N C w after R k k' →
      C.Answers w R (searchChoices env ps ρ t b k) (searchChoices env' ps' τ t' b' k')
  | [], _, ρ, τ, w, _, _, R, t, t', b, b', k, k', hR, .nil, _, ht, hb, hk => by
      rw [searchChoices, searchChoices]
      exact answers_none
  | p :: ps, _, ρ, τ, w, _, _, R, t, t', b, b', k, k', hR, .cons hp hps, hafter, ht, hb, hk => by
      rw [searchChoices, searchChoices]
      exact alike_or
        (correspond_search he p hR hp ht hb (hk.learn (hafter p List.mem_cons_self)))
        (correspond_searchChoices he ps hR hps
          (fun q hq => hafter q (List.mem_cons_of_mem _ hq)) ht hb hk) hR
termination_by structural ps => ps

theorem correspond_searchSlots (he : env.Correspond env' L Q C) :
    ∀ (ps : List Pattern) {ps' : List Pattern} {ρ τ : Type} {w : W} {known : Symbol → Prop}
      {R : W → ρ → τ → Prop} {flat flat' : Option Term} {head head' : Term} {count index : Nat}
      {args args' : List Term} {b b' : Bindings} {k : Bindings → List Term → m (Option ρ)}
      {k' : Bindings → List Term → n (Option τ)}, Lasting R → L.RenamesSlots N Q w known ps ps' →
      L.Maybe w flat flat' → L.Like w head head' → L.All w args args' →
      L.Rebound N w known b b' →
      (∀ {w' b b' rest rest'}, w ≤ w' → L.Rebound N w' (AfterAll ps known) b b' →
        L.All w' rest rest' → C.Answers w' R (k b rest) (k' b' rest')) →
      C.Answers w R (searchSlots env ps ρ flat head count index args b k)
        (searchSlots env' ps' τ flat' head' count index args' b' k')
  | [], _, ρ, τ, w, _, R, flat, flat', head, head', count, index, args, args', b, b', k, k', hR,
      .nil, hflat, hhead, hargs, hb, hk => by
      rw [searchSlots, searchSlots]
      exact hk le_rfl (hb.forget fun x _ h => h.resolve_left id) hargs
  | p :: ps, _, ρ, τ, w, _, R, flat, flat', head, head', count, index, args, args', b, b', k, k',
      hR, .cons hp hps, hflat, hhead, hargs, hb, hk => by
      rw [searchSlots, searchSlots, hp.size_eq hb hflat, hargs.length_eq]
      refine alike_findSomeM?_same hR fun length _ => ?_
      refine C.alike_bind (he.share (Likeness.like_value _ hflat (hargs.take length)))
        fun w₁ value value' hw₁ hvalue => ?_
      refine C.alike_bind (he.enter index count (L.later hw₁ hhead)) fun w₂ _ _ hw₁₂ _ => ?_
      have hw₂ := hw₁.trans hw₁₂
      refine correspond_search he p hR (hp.later hw₂) (L.later hw₁₂ hvalue) (hb.later hw₂)
        fun {w₃ _ _} hw₂₃ hb => ?_
      have hw₃ := hw₂.trans hw₂₃
      exact correspond_searchSlots he ps hR (hps.later hw₃) (hflat.later hw₃) (L.later hw₃ hhead)
        ((hargs.drop length).later hw₃) hb fun hw hb hrest =>
          hk (hw₃.trans hw) (hb.forget fun _ _ => afterAll_cons) hrest
termination_by structural ps => ps

theorem correspond_searchAnywhere (he : env.Correspond env' L Q C) :
    ∀ (ps : List Pattern) {ps' : List Pattern} {ρ τ : Type} {w : W} {known : Symbol → Prop}
      {R : W → ρ → τ → Prop} {flat flat' : Option Term} {head head' : Term} {count index : Nat}
      {free free' : List (Term × Nat)} {b b' : Bindings}
      {k : Bindings → List (Term × Nat) → m (Option ρ)}
      {k' : Bindings → List (Term × Nat) → n (Option τ)}, Lasting R →
      L.RenamesSlots N Q w known ps ps' → L.Maybe w flat flat' → L.Like w head head' →
      Free L w free free' → L.Rebound N w known b b' →
      (∀ {w' b b' left left'}, w ≤ w' → L.Rebound N w' (AfterAll ps known) b b' →
        Free L w' left left' → C.Answers w' R (k b left) (k' b' left')) →
      C.Answers w R (searchAnywhere env ps ρ flat head count index free b k)
        (searchAnywhere env' ps' τ flat' head' count index free' b' k')
  | [], _, ρ, τ, w, _, R, flat, flat', head, head', count, index, free, free', b, b', k, k', hR,
      .nil, hflat, hhead, hfree, hb, hk => by
      rw [searchAnywhere, searchAnywhere]
      exact hk le_rfl (hb.forget fun x _ h => h.resolve_left id) hfree
  | p :: ps, _, ρ, τ, w, _, R, flat, flat', head, head', count, index, free, free', b, b', k, k',
      hR, .cons hp hps, hflat, hhead, hfree, hb, hk => by
      rw [searchAnywhere, searchAnywhere, hp.size_eq hb hflat, hfree.length_eq]
      refine alike_findSomeM?_same hR fun length _ => ?_
      refine alike_chooseM hR hfree fun taken left taken' left' htaken hleft => ?_
      refine C.alike_bind (he.share (Likeness.like_value _ hflat (Free.map_fst htaken)))
        fun w₁ value value' hw₁ hvalue => ?_
      refine C.alike_bind (he.enter index count (L.later hw₁ hhead)) fun w₂ _ _ hw₁₂ _ => ?_
      have hw₂ := hw₁.trans hw₁₂
      refine correspond_search he p hR (hp.later hw₂) (L.later hw₁₂ hvalue) (hb.later hw₂)
        fun {w₃ _ _} hw₂₃ hb => ?_
      have hw₃ := hw₂.trans hw₂₃
      exact correspond_searchAnywhere he ps hR (hps.later hw₃) (hflat.later hw₃)
        (L.later hw₃ hhead) (Free.later hleft hw₃) hb fun hw hb hleft =>
          hk (hw₃.trans hw) (hb.forget fun _ _ => afterAll_cons) hleft
termination_by structural ps => ps

end

end Pattern

end Termwise
