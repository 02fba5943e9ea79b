import Termwise.Proofs.Pattern.Solutions

/-!
# Termwise.Proofs.Pattern.Growth

What is in a list of solutions, choice by choice, and what a solution does to the
bindings: it keeps what was bound and binds only names of the pattern
(`grown_of_mem_solutions`).
-/

namespace Termwise

/-! ## bindings that grow -/

namespace Bindings

/-- Whether everything that is bound stays bound as it is, and only given names are bound anew. -/
def Grown (names : List Symbol) (b b' : Bindings) : Prop :=
  ∀ x, b'.get? x = b.get? x ∨ b.get? x = none ∧ x ∈ names

variable {names others : List Symbol} {b b' b'' : Bindings}

theorem Grown.refl (b : Bindings) : Grown names b b := fun _ => .inl rfl

theorem Grown.mono (h : Grown names b b') (hsub : names ⊆ others) : Grown others b b' :=
  fun x => (h x).imp_right fun hx => ⟨hx.1, hsub hx.2⟩

theorem Grown.trans (h : Grown names b b') (h' : Grown names b' b'') : Grown names b b'' := by
  intro x
  obtain hx | ⟨hnone, hmem⟩ := h x
  · rw [← hx]
    exact h' x
  · exact .inr ⟨hnone, hmem⟩

/-- Whether everything that is bound stays bound as it is. -/
def Extends (b' b : Bindings) : Prop := ∀ x v, b.get? x = some v → b'.get? x = some v

theorem Extends.refl (b : Bindings) : b.Extends b := fun _ _ h => h

theorem Extends.trans (h' : b''.Extends b') (h : b'.Extends b) : b''.Extends b :=
  fun x v hx => h' x v (h x v hx)

theorem Grown.extends (h : Grown names b b') : b'.Extends b := by
  intro x v hv
  obtain hx | ⟨hnone, -⟩ := h x
  · rw [hx, hv]
  · rw [hnone] at hv
    cases hv

theorem Grown.get?_eq_of_not_mem (h : Grown names b b') {x : Symbol} (hx : x ∉ names) :
    b'.get? x = b.get? x :=
  (h x).resolve_right fun h => hx h.2

theorem grown_push {x : Symbol} (h : b.get? x = none) (v : Term) : Grown [x] b (b.push x v) := by
  intro y
  by_cases hxy : x = y
  · subst hxy
    exact .inr ⟨h, List.mem_singleton_self x⟩
  · rw [get?_push, if_neg hxy, Option.or_none]
    exact .inl rfl

/-- Whether none of some names is bound. -/
def Fresh (b : Bindings) (names : List Symbol) : Prop := ∀ x ∈ names, b.get? x = none

theorem fresh_empty (names : List Symbol) : empty.Fresh names := fun _ _ => rfl

theorem Fresh.mono (h : b.Fresh names) (hsub : others ⊆ names) : b.Fresh others :=
  fun x hx => h x (hsub hx)

theorem Fresh.of_grown (h : b.Fresh others) (hg : Grown names b b')
    (hd : ∀ x ∈ others, x ∉ names) : b'.Fresh others :=
  fun x hx => (hg.get?_eq_of_not_mem (hd x hx)).trans (h x hx)

theorem Fresh.push (h : b.Fresh names) {x : Symbol} (hx : x ∉ names) (v : Term) :
    (b.push x v).Fresh names := by
  intro y hy
  have hxy : x ≠ y := fun heq => hx (heq ▸ hy)
  rw [get?_push, h y hy, if_neg hxy]
  rfl

end Bindings

/-! ## choices -/

theorem Size.mem_counts {s : Size} {available n : Nat} :
    n ∈ s.counts available ↔ s.least ≤ n ∧ n ≤ s.most ∧ n ≤ available := by
  unfold counts
  dsimp only
  split
  · simp only [List.not_mem_nil, false_iff]
    omega
  · split
    · simp only [List.mem_reverse, List.mem_range'_1]
      omega
    · split
      next h =>
        simp only [Bool.and_eq_true, beq_iff_eq] at h
        simp only [List.mem_append, List.mem_range'_1, List.mem_singleton]
        omega
      · simp only [List.mem_range'_1]
        omega

/-- A choice takes as many items as asked, and splits the list. -/
theorem mem_choices {α : Type} {n : Nat} {xs : List α} {c : List α × List α}
    (h : c ∈ choices n xs) : c.1.length = n ∧ (c.1 ++ c.2).Perm xs := by
  induction xs generalizing n c with
  | nil =>
      cases n with
      | zero =>
          rw [choices, List.mem_singleton] at h
          subst h
          exact ⟨rfl, .refl _⟩
      | succ n => simp [choices] at h
  | cons x xs ih =>
      cases n with
      | zero =>
          rw [choices, List.mem_singleton] at h
          subst h
          exact ⟨rfl, .refl _⟩
      | succ n =>
          rw [choices, List.mem_append, List.mem_map, List.mem_map] at h
          obtain ⟨d, hd, rfl⟩ | ⟨d, hd, rfl⟩ := h
          · obtain ⟨hlen, hperm⟩ := ih hd
            exact ⟨by simp [hlen], hperm.cons x⟩
          · obtain ⟨hlen, hperm⟩ := ih hd
            exact ⟨hlen, List.perm_middle.trans (hperm.cons x)⟩

namespace Pattern

/-! ## members of solutions -/

section Repetitions

variable {size : Bindings → Size} {one : Term → Bindings → List Bindings} {least most : Nat}

theorem mem_repetitions {items : List Term} {count : Nat} {b b' : Bindings} :
    b' ∈ repetitions size one least most items count b ↔
      (items = [] ∧ least ≤ count ∧ b' = b) ∨
      (items ≠ [] ∧ count < most ∧ ∃ n ∈ (size b).counts items.length, n ≠ 0 ∧
        ∃ b₁ ∈ one ((size b).value none (items.take n)) b,
          b' ∈ repetitions size one least most (items.drop n) (count + 1) b₁) := by
  cases items with
  | nil =>
      rw [repetitions]
      by_cases h : least ≤ count <;> simp [h]
  | cons item rest =>
      rw [repetitions]
      by_cases h : most ≤ count
      · simp [h, Nat.not_lt.mpr h]
      · -- `drop n` of the whole list is `drop (n - 1)` of its tail, as `n` is not 0
        have hdrop : ∀ n, n ≠ 0 → rest.drop (n - 1) = (item :: rest).drop n := by
          intro n hn
          obtain ⟨n, rfl⟩ := Nat.exists_eq_succ_of_ne_zero hn
          rfl
        simp only [h, if_false, List.mem_flatMap, List.mem_filter, bne_iff_ne, reduceCtorEq,
          false_and, false_or, ne_eq, not_false_eq_true, true_and, Nat.not_le.mp h]
        constructor
        · rintro ⟨n, ⟨hn, hn0⟩, b₁, hb₁, hb'⟩
          exact ⟨n, hn, hn0, b₁, hb₁, hdrop n hn0 ▸ hb'⟩
        · rintro ⟨n, hn, hn0, b₁, hb₁, hb'⟩
          exact ⟨n, ⟨hn, hn0⟩, b₁, hb₁, (hdrop n hn0).symm ▸ hb'⟩

/-- What holds of no items, and is carried over by one more repetition, holds of repetitions. -/
theorem repetitions_induct {motive : List Term → Nat → Bindings → Bindings → Prop}
    (done : ∀ count b, least ≤ count → motive [] count b b)
    (step : ∀ items count b n b₁ b', count < most → n ∈ (size b).counts items.length → n ≠ 0 →
      b₁ ∈ one ((size b).value none (items.take n)) b →
      motive (items.drop n) (count + 1) b₁ b' → motive items count b b') :
    ∀ (items : List Term) (count : Nat) (b b' : Bindings),
      b' ∈ repetitions size one least most items count b → motive items count b b'
  | items, count, b, b', h => by
      obtain ⟨rfl, hle, rfl⟩ | ⟨-, hlt, n, hn, hn0, b₁, hb₁, hb'⟩ := mem_repetitions.mp h
      · exact done count b' hle
      · have hle := (Size.mem_counts.mp hn).2.2
        exact step items count b n b₁ b' hlt hn hn0 hb₁
          (repetitions_induct done step (items.drop n) (count + 1) b₁ b' hb')
termination_by items => items.length
decreasing_by simp only [List.length_drop]; omega

end Repetitions

theorem mem_complete {α : Type} {fs : List (Bindings × List α)} {b : Bindings} :
    b ∈ complete fs ↔ (b, []) ∈ fs := by
  simp [complete, List.isEmpty_iff]

theorem mem_ite_complete {α β : Type} {c : Bool} {fs : List (Bindings × List α)}
    {gs : List (Bindings × List β)} {b : Bindings} :
    b ∈ (if c then complete fs else complete gs) ↔
      if c then (b, []) ∈ fs else (b, []) ∈ gs := by
  cases c with
  | true => exact mem_complete
  | false => exact mem_complete

section Fillings

variable {w : World} {p : Pattern} {ps : List Pattern} {flat : Option Term} {b : Bindings}

theorem mem_fillings_cons {args : List Term} {f : Bindings × List Term} :
    f ∈ fillings w (p :: ps) flat args b ↔
      ∃ n ∈ (p.size flat b).counts args.length,
        ∃ b₁ ∈ p.solutions w ((p.size flat b).value flat (args.take n)) b,
          f ∈ fillings w ps flat (args.drop n) b₁ := by
  simp only [fillings, List.mem_flatMap]

theorem mem_fillingsAnywhere_cons {free : List (Term × Nat)} {f : Bindings × List (Term × Nat)} :
    f ∈ fillingsAnywhere w (p :: ps) flat free b ↔
      ∃ n ∈ (p.size flat b).counts free.length, ∃ c ∈ choices n free,
        ∃ b₁ ∈ p.solutions w ((p.size flat b).value flat (c.1.map (·.1))) b,
          f ∈ fillingsAnywhere w ps flat c.2 b₁ := by
  simp only [fillingsAnywhere, List.mem_flatMap]

end Fillings

/-- A solution for a call is one for its head, followed by a filling of its slots. -/
theorem mem_solutions_call {w : World} {whole : Term} {head : Pattern} {args : List Pattern}
    {t : Term} {b b' : Bindings} (h : b' ∈ (call whole head args).solutions w t b) :
    (∃ x, t.single? = some x ∧ whole.isLiteral w.attributes = true ∧ (whole == x) = true ∧ b' = b) ∨
      ∃ i f xs b₁, t.single? = some (.node i f xs) ∧ b₁ ∈ head.solutions w f b ∧
        let attrs := (Term.node i f xs).headAttributes w.attributes
        let flat := if attrs.has .flat then some f else none
        if attrs.has .orderless then (b', []) ∈ fillingsAnywhere w args flat xs.zipIdx b₁
        else (b', []) ∈ fillings w args flat xs b₁ := by
  rw [solutions] at h
  cases hx : t.single? with
  | none => simp [hx] at h
  | some x =>
      simp only [hx] at h
      split at h
      · next hlit =>
          simp only [Bool.and_eq_true] at hlit
          split at h
          · next heq => exact .inl ⟨x, rfl, hlit.2, heq, List.mem_singleton.mp h⟩
          · cases h
      · cases x with
        | node i f xs =>
            obtain ⟨b₁, hb₁, h⟩ := List.mem_flatMap.mp h
            refine .inr ⟨i, f, xs, b₁, rfl, hb₁, ?_⟩
            dsimp only at h ⊢
            split at h
            · cases h
            · split at h
              · rw [if_pos ‹_›]
                exact mem_complete.mp h
              · rw [if_neg ‹_›]
                exact mem_complete.mp h
        | _ => cases h

/-- Without the shortcuts, the solutions for a call are exactly those. -/
theorem mem_solutions_call_iff {w : World} (hw : w.shortcuts = false) {whole : Term}
    {head : Pattern} {args : List Pattern} {t : Term} {b b' : Bindings} :
    b' ∈ (call whole head args).solutions w t b ↔
      ∃ i f xs b₁, t.single? = some (.node i f xs) ∧ b₁ ∈ head.solutions w f b ∧
        let attrs := (Term.node i f xs).headAttributes w.attributes
        let flat := if attrs.has .flat then some f else none
        if attrs.has .orderless then (b', []) ∈ fillingsAnywhere w args flat xs.zipIdx b₁
        else (b', []) ∈ fillings w args flat xs b₁ := by
  rw [solutions]
  cases t.single? with
  | none => simp
  | some x =>
      cases x with
      | node i f xs =>
          simp only [hw, Bool.false_and, Bool.false_eq_true, if_false, List.mem_flatMap,
            mem_ite_complete, Option.some.injEq, Term.node.injEq, and_assoc, exists_and_left,
            exists_eq_left']
      | _ => simp [hw]

/-! ## names -/

mutual

/-- The names that a pattern may bind, from left to right. -/
def names : Pattern → List Symbol
  | blank _ | blankSequence _ | blankNullSequence _ | literal _ | atom _ => []
  | named x p => x :: p.names
  | condition p _ | tested p _ | repeated p _ _ _ | optional p _ | hold p | longest p | shortest p
  | except p => p.names
  | alternatives ps | sequence ps => namesOfAll ps
  | exceptThen no p => no.names ++ p.names
  | call _ head args => head.names ++ namesOfAll args

/-- The names that several patterns may bind. -/
def namesOfAll : List Pattern → List Symbol
  | [] => []
  | p :: ps => p.names ++ namesOfAll ps

end

/-! ## growth -/

mutual

/-- A solution keeps what is bound and binds names of the pattern only. -/
theorem grown_of_mem_solutions {w : World} : ∀ (p : Pattern) {t : Term} {b b' : Bindings},
    b' ∈ p.solutions w t b → Bindings.Grown p.names b b'
  | blank _, t, b, b', h | blankSequence _, t, b, b', h | blankNullSequence _, t, b, b', h
  | literal _, t, b, b', h | atom _, t, b, b', h | except _, t, b, b', h => by
      rw [solutions, List.mem_ite_nil_right, List.mem_singleton] at h
      rw [h.2]
      exact .refl b
  | named x p, t, b, b', h => by
      rw [solutions] at h
      cases hx : b.get? x with
      | some v =>
          simp only [hx, List.mem_ite_nil_right] at h
          exact (grown_of_mem_solutions p h.2).mono (List.subset_cons_self _ _)
      | none =>
          simp only [hx] at h
          exact ((Bindings.grown_push hx t).mono (by simp [names])).trans
            ((grown_of_mem_solutions p h).mono (List.subset_cons_self _ _))
  | condition p _, t, b, b', h | tested p _, t, b, b', h => by
      rw [solutions] at h
      exact grown_of_mem_solutions p (List.mem_filter.mp h).1
  | alternatives ps, t, b, b', h => by
      rw [solutions] at h
      exact grown_of_mem_solutionsOfAny ps h
  | repeated p _ _ _, t, b, b', h => by
      rw [solutions] at h
      refine repetitions_induct (motive := fun _ _ b b' => Bindings.Grown p.names b b')
        (fun _ b _ => .refl b) (fun _ _ b n b₁ b' _ _ _ hb₁ ih => ?_) _ _ _ _ h
      exact (grown_of_mem_solutions p hb₁).trans ih
  | optional p d, t, b, b', h => by
      cases d <;> rw [solutions] at h <;> split at h
      · cases h
      all_goals exact grown_of_mem_solutions p h
  | hold p, t, b, b', h | longest p, t, b, b', h | shortest p, t, b, b', h => by
      rw [solutions] at h
      exact grown_of_mem_solutions p h
  | sequence ps, t, b, b', h => by
      rw [solutions, mem_complete] at h
      exact grown_of_mem_fillings ps h
  | exceptThen no p, t, b, b', h => by
      rw [solutions, List.mem_ite_nil_right] at h
      exact (grown_of_mem_solutions p h.2).mono (List.subset_append_right _ _)
  | call _ head args, t, b, b', h => by
      obtain ⟨_, -, -, -, rfl⟩ | ⟨i, f, xs, b₁, -, hb₁, hargs⟩ := mem_solutions_call h
      · exact .refl _
      · refine ((grown_of_mem_solutions head hb₁).mono (List.subset_append_left _ _)).trans
          (.mono ?_ (List.subset_append_right _ _))
        dsimp only at hargs
        split at hargs
        · exact grown_of_mem_fillingsAnywhere args hargs
        · exact grown_of_mem_fillings args hargs

theorem grown_of_mem_solutionsOfAny {w : World} : ∀ (ps : List Pattern) {t : Term}
    {b b' : Bindings}, b' ∈ solutionsOfAny w ps t b → Bindings.Grown (namesOfAll ps) b b'
  | [], _, _, _, h => by cases h
  | p :: ps, t, b, b', h => by
      rw [solutionsOfAny, List.mem_append] at h
      obtain h | h := h
      · exact (grown_of_mem_solutions p h).mono (List.subset_append_left _ _)
      · exact (grown_of_mem_solutionsOfAny ps h).mono (List.subset_append_right _ _)

theorem grown_of_mem_fillings {w : World} : ∀ (ps : List Pattern) {flat : Option Term}
    {args : List Term} {b : Bindings} {f : Bindings × List Term},
    f ∈ fillings w ps flat args b → Bindings.Grown (namesOfAll ps) b f.1
  | [], _, args, b, f, h => by
      rw [fillings, List.mem_singleton] at h
      rw [h]
      exact .refl b
  | p :: ps, _, args, b, f, h => by
      obtain ⟨n, -, b₁, hb₁, hf⟩ := mem_fillings_cons.mp h
      exact ((grown_of_mem_solutions p hb₁).mono (List.subset_append_left _ _)).trans
        ((grown_of_mem_fillings ps hf).mono (List.subset_append_right _ _))

theorem grown_of_mem_fillingsAnywhere {w : World} : ∀ (ps : List Pattern) {flat : Option Term}
    {free : List (Term × Nat)} {b : Bindings} {f : Bindings × List (Term × Nat)},
    f ∈ fillingsAnywhere w ps flat free b → Bindings.Grown (namesOfAll ps) b f.1
  | [], _, free, b, f, h => by
      rw [fillingsAnywhere, List.mem_singleton] at h
      rw [h]
      exact .refl b
  | p :: ps, _, free, b, f, h => by
      obtain ⟨n, -, c, -, b₁, hb₁, hf⟩ := mem_fillingsAnywhere_cons.mp h
      exact ((grown_of_mem_solutions p hb₁).mono (List.subset_append_left _ _)).trans
        ((grown_of_mem_fillingsAnywhere ps hf).mono (List.subset_append_right _ _))

end

end Pattern

end Termwise
