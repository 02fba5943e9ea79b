import Mathlib.Data.List.Forall2
import Termwise.Memory.Places

/-!
# Termwise.Proofs.Memory.Places

Two programs whose handles agree place by place: what one finds in a place, uses
up or adds, the other does too.
-/

namespace Termwise.Memory

variable {β γ : Type} {R : β → γ → Prop}

/-- Whether handles agree place by place. -/
def Places.Agree (R : β → γ → Prop) (p : Places β) (q : Places γ) : Prop :=
  List.Forall₂ (Option.Rel R) p.entries q.entries

/-! ## programs -/

theorem map_eq_of_rel {δ : Type} {f : β → δ} {g : γ → δ} {x : Option β} {y : Option γ}
    (hrel : Option.Rel R x y) (hfg : ∀ x y, R x y → f x = g y) : x.map f = y.map g := by
  cases hrel with
  | none => rfl
  | some hxy => exact congrArg some (hfg _ _ hxy)

theorem rel_bind {δ ε : Type} {S : δ → ε → Prop} {x : Option β} {y : Option γ} {f : β → Option δ}
    {g : γ → Option ε} (hrel : Option.Rel R x y)
    (hnext : ∀ a b, R a b → Option.Rel S (f a) (g b)) : Option.Rel S (x.bind f) (y.bind g) := by
  cases hrel with
  | none => exact .none
  | some hab => exact hnext _ _ hab

theorem rel_imp {S : β → γ → Prop} {x : Option β} {y : Option γ} (hrel : Option.Rel R x y)
    (himp : ∀ a b, R a b → S a b) : Option.Rel S x y := by
  cases hrel with
  | none => exact .none
  | some hab => exact .some (himp _ _ hab)

theorem exists_of_rel {x : β} {y : Option γ} (hrel : Option.Rel R (some x) y) :
    ∃ z, y = some z ∧ R x z := by
  cases hrel with
  | some hxz => exact ⟨_, rfl, hxz⟩

/-- Programs whose operations do the same to states that agree end in states that agree. -/
theorem rel_foldlM {ω : Type} {f : β → ω → Option β} {g : γ → ω → Option γ}
    (hstep : ∀ x y op, R x y → Option.Rel R (f x op) (g y op)) (ops : List ω) {x : β} {y : γ}
    (hxy : R x y) : Option.Rel R (ops.foldlM f x) (ops.foldlM g y) := by
  induction ops generalizing x y with
  | nil => exact .some hxy
  | cons op ops ih =>
      rw [List.foldlM_cons, List.foldlM_cons]
      have hop := hstep x y op hxy
      cases hx : f x op <;> cases hy : g y op <;> rw [hx, hy] at hop <;> cases hop
      · exact .none
      · rename_i hnext
        exact ih hnext

namespace Places

variable {p : Places β} {q : Places γ} {refs : β → List Nat}

/-! ## handles held -/

theorem held_add (p : Places β) (x : β) : (p.add x).held refs = p.held refs ++ refs x := by
  simp [held, add]

theorem mem_held {x : β} {a : Nat} (hx : some x ∈ p.entries) (ha : a ∈ refs x) :
    a ∈ p.held refs :=
  List.mem_flatMap.mpr ⟨some x, hx, ha⟩

theorem mem_entries_iff {x : β} : some x ∈ p.entries ↔ ∃ r, p.get? r = some x := by
  simp only [List.mem_iff_getElem?, get?, Option.join_eq_some_iff]

theorem mem_entries_of_get? {r : Nat} {x : β} (hget : p.get? r = some x) : some x ∈ p.entries :=
  mem_entries_iff.mpr ⟨r, hget⟩

theorem perm_flatMap_set (f : Option β → List Nat) (hnone : f none = []) {x : Option β} :
    ∀ {l : List (Option β)} {r : Nat}, l[r]? = some x →
      (l.flatMap f).Perm (f x ++ (l.set r none).flatMap f)
  | y :: l, 0, h => by
      obtain rfl : y = x := by simpa using h
      simp [hnone]
  | y :: l, r + 1, h => by
      have := (perm_flatMap_set f hnone (show l[r]? = some x by simpa using h)).append_left (f y)
      simp only [List.flatMap_cons, List.set_cons_succ]
      exact this.trans (List.perm_append_comm_assoc ..)

/-- A handle that is used up comes to hand. -/
theorem held_take {r : Nat} {x : β} {rest : Places β} (htake : p.take? r = some (x, rest)) :
    (p.held refs).Perm (refs x ++ rest.held refs) := by
  obtain ⟨y, hget, heq⟩ := Option.map_eq_some_iff.mp htake
  cases heq
  exact perm_flatMap_set _ rfl (Option.join_eq_some_iff.mp hget)

/-! ## places that agree -/

theorem agree_empty : Agree R {} {} := .nil

theorem Agree.add (hagree : p.Agree R q) {x : β} {y : γ} (hxy : R x y) :
    (p.add x).Agree R (q.add y) :=
  List.rel_append hagree (.cons (.some hxy) .nil)

theorem Agree.imp {R' : β → γ → Prop} (hagree : p.Agree R q)
    (himp : ∀ x y, some x ∈ p.entries → R x y → R' x y) : p.Agree R' q := by
  obtain ⟨ps⟩ := p
  obtain ⟨qs⟩ := q
  unfold Agree at hagree ⊢
  dsimp only at hagree himp ⊢
  induction hagree with
  | nil => exact .nil
  | cons hhead _ ih =>
      refine .cons ?_ (ih fun x y hx => himp x y (List.mem_cons_of_mem _ hx))
      cases hhead with
      | none => exact .none
      | some hxy => exact .some (himp _ _ (List.mem_cons_self ..) hxy)

/-- What both find in a place. -/
theorem Agree.get? (hagree : p.Agree R q) (r : Nat) :
    p.get? r = none ∧ q.get? r = none ∨ ∃ x y, p.get? r = some x ∧ q.get? r = some y ∧ R x y := by
  have hrel : ∀ {l : List (Option β)} {l' : List (Option γ)} (_ : List.Forall₂ (Option.Rel R) l l')
      (r : Nat), Option.Rel R l[r]?.join l'[r]?.join := fun h r => by
    induction h generalizing r with
    | nil => exact .none
    | cons hhead _ ih =>
        cases r with
        | zero => exact hhead
        | succ r => exact ih r
  have hget := hrel hagree r
  change Option.Rel R (p.get? r) (q.get? r) at hget
  cases hp : p.get? r <;> cases hq : q.get? r <;> rw [hp, hq] at hget <;> cases hget
  · exact .inl ⟨rfl, rfl⟩
  · rename_i hxy
    exact .inr ⟨_, _, rfl, rfl, hxy⟩

theorem forall₂_set {l : List (Option β)} {l' : List (Option γ)}
    (h : List.Forall₂ (Option.Rel R) l l') (r : Nat) :
    List.Forall₂ (Option.Rel R) (l.set r none) (l'.set r none) := by
  induction h generalizing r with
  | nil => exact .nil
  | cons hhead htail ih =>
      cases r with
      | zero => exact .cons .none htail
      | succ r => exact .cons hhead (ih r)

theorem Agree.rel_of_get? (hagree : p.Agree R q) {r : Nat} {x : β} (hget : p.get? r = some x) :
    ∃ y, q.get? r = some y ∧ R x y := by
  rcases hagree.get? r with ⟨hp, -⟩ | ⟨x', y, hp, hq, hxy⟩
  · rw [hp] at hget
    cases hget
  · rw [hp] at hget
    cases hget
    exact ⟨y, hq, hxy⟩

theorem Agree.rel_of_get?_right (hagree : p.Agree R q) {r : Nat} {y : γ}
    (hget : q.get? r = some y) : ∃ x, p.get? r = some x ∧ R x y := by
  rcases hagree.get? r with ⟨-, hq⟩ | ⟨x, y', hp, hq, hxy⟩
  · rw [hq] at hget
    cases hget
  · rw [hq] at hget
    cases hget
    exact ⟨x, hp, hxy⟩

/-- What both use up. -/
theorem Agree.take? (hagree : p.Agree R q) (r : Nat) :
    p.take? r = none ∧ q.take? r = none ∨ ∃ x p' y q', p.take? r = some (x, p') ∧
      q.take? r = some (y, q') ∧ R x y ∧ p'.Agree R q' := by
  unfold Places.take?
  rcases hagree.get? r with ⟨hp, hq⟩ | ⟨x, y, hp, hq, hxy⟩
  · rw [hp, hq]
    exact .inl ⟨rfl, rfl⟩
  · rw [hp, hq]
    exact .inr ⟨x, _, y, _, rfl, rfl, hxy, forall₂_set hagree r⟩

theorem Agree.map_eq {δ : Type} {f : β → δ} {g : γ → δ} (hagree : p.Agree R q)
    (hfg : ∀ x y, R x y → f x = g y) :
    p.entries.map (Option.map f) = q.entries.map (Option.map g) := by
  obtain ⟨ps⟩ := p
  obtain ⟨qs⟩ := q
  unfold Agree at hagree
  dsimp only at hagree ⊢
  induction hagree with
  | nil => rfl
  | cons hhead _ ih =>
      rw [List.map_cons, List.map_cons, ih, map_eq_of_rel hhead hfg]

/-! ## handles left alone -/

theorem get?_add {r : Nat} {x : β} (hget : p.get? r = some x) (y : β) :
    (p.add y).get? r = some x := by
  have hentry : p.entries[r]? = some (some x) := Option.join_eq_some_iff.mp hget
  have hlt := (List.getElem?_eq_some_iff.mp hentry).1
  rw [Places.get?, add, List.getElem?_append_left hlt, hentry]
  rfl

theorem get?_of_take? {r r' : Nat} {x y : β} {rest : Places β} (htake : p.take? r = some (y, rest))
    (hne : r ≠ r') (hget : p.get? r' = some x) : rest.get? r' = some x := by
  obtain ⟨z, -, heq⟩ := Option.map_eq_some_iff.mp htake
  cases heq
  rw [Places.get?, List.getElem?_set_ne hne]
  exact hget

end Places

end Termwise.Memory
