import Termwise.Proofs.Pattern.Growth
import Termwise.Proofs.Term.Ordinary

/-!
# Termwise.Proofs.Pattern.Length

Sizes lose no match.  Whatever ordinary terms a pattern matches, their number lies
within the size that was computed for the pattern under earlier bindings
(`allows_of_mem_solutions`); so slots that take all arguments of a call take a
number of them within `totalRange` (`totalRange_of_mem_fillings`).
-/

namespace Termwise

namespace Size

/-! ## numbers that a size allows -/

/-- Whether a number of arguments lies within a size. -/
def Allows (s : Size) (n : Nat) : Prop := s.least ≤ n ∧ n ≤ s.most

variable {s t : Size} {m n : Nat}

theorem Allows.join_left (h : s.Allows n) (t : Size) : (s.join t).Allows n :=
  ⟨Nat.le_trans (Nat.min_le_left _ _) h.1, Nat.le_trans h.2 (Nat.le_max_left _ _)⟩

theorem Allows.join_right (h : t.Allows n) (s : Size) : (s.join t).Allows n :=
  ⟨Nat.le_trans (Nat.min_le_right _ _) h.1, Nat.le_trans h.2 (Nat.le_max_right _ _)⟩

/-- A choice allows what one of its patterns allows. -/
theorem allows_foldl_join {ts : List Size} (h : s.Allows n ∨ ∃ t ∈ ts, t.Allows n) :
    (ts.foldl join s).Allows n := by
  induction ts generalizing s with
  | nil => simpa using h
  | cons t ts ih =>
      refine ih ?_
      obtain h | ⟨t', ht', h⟩ := h
      · exact .inl (h.join_left t)
      · obtain rfl | ht' := List.mem_cons.mp ht'
        · exact .inl (h.join_right s)
        · exact .inr ⟨t', ht', h⟩

theorem Allows.andThen (hs : s.Allows m) (ht : t.Allows n) (h : m + n ≤ Pattern.unbounded) :
    (s.andThen t).Allows (m + n) :=
  ⟨Nat.le_trans (Nat.min_le_left _ _) (Nat.add_le_add hs.1 ht.1),
    Nat.le_min.mpr ⟨Nat.add_le_add hs.2 ht.2, h⟩⟩

/-- Repetitions allow what so many times an allowed number can be. -/
theorem allows_repeated {least most k : Nat} (hk : least ≤ k ∧ k ≤ most)
    (hn : k * s.least ≤ n ∧ n ≤ k * s.most) (h : n ≤ Pattern.unbounded) :
    (between (mulCount s.least least) (mulCount s.most most)).Allows n := by
  constructor
  · calc mulCount s.least least ≤ s.least * least := Nat.min_le_left _ _
      _ ≤ s.least * k := Nat.mul_le_mul_left _ hk.1
      _ = k * s.least := Nat.mul_comm _ _
      _ ≤ n := hn.1
  · refine Nat.le_min.mpr ⟨?_, h⟩
    calc n ≤ k * s.most := hn.2
      _ = s.most * k := Nat.mul_comm _ _
      _ ≤ s.most * most := Nat.mul_le_mul_left _ hk.2

/-- One more repetition, after which so many are left. -/
theorem Allows.succ_mul {k : Nat} (h : s.Allows m) (hle : m ≤ n)
    (hrest : k * s.least ≤ n - m ∧ n - m ≤ k * s.most) :
    (k + 1) * s.least ≤ n ∧ n ≤ (k + 1) * s.most := by
  obtain ⟨hleast, hmost⟩ := h
  rw [Nat.succ_mul, Nat.succ_mul]
  omega

/-- A term that stands for one term has a length of one. -/
theorem allows_one {t x : Term} (h : t.single? = some x) : one.Allows t.run.length := by
  rw [Term.single?_eq_some_iff.mp h]
  exact ⟨Nat.le_refl 1, Nat.le_refl 1⟩

theorem allows_one_of_any {t : Term} {q : Term → Bool} (h : t.single?.any q = true) :
    one.Allows t.run.length := by
  cases hx : t.single? with
  | none => simp [hx] at h
  | some x => exact allows_one hx

end Size

theorem Term.boundLength_none (t : Term) : t.boundLength none = t.run.length := by
  unfold boundLength run
  cases t.isMarker <;> simp

namespace Pattern

variable {w : World} {b₀ : Bindings}

/-! ## repetitions -/

/-- Repetitions of a pattern that takes a number of terms within `s` take a number of them within
the multiples of `s`. -/
theorem length_of_mem_repetitions {size : Bindings → Size} {s : Size}
    {one : Term → Bindings → List Bindings} {least most : Nat}
    (hone : ∀ {t b b'}, t.OrdinaryRun → b.Extends b₀ → b' ∈ one t b →
      b'.Extends b ∧ s.Allows t.run.length) :
    ∀ (items : List Term) (count : Nat) (b b' : Bindings),
      b' ∈ repetitions size one least most items count b → b.Extends b₀ →
      (∀ x ∈ items, x.Ordinary) → items.length ≤ unbounded → count ≤ most →
      ∃ k, (least ≤ count + k ∧ count + k ≤ most) ∧
        k * s.least ≤ items.length ∧ items.length ≤ k * s.most := by
  refine repetitions_induct (fun count b hle _ _ _ hmost => ⟨0, ⟨hle, hmost⟩, by simp⟩) ?_
  intro items count b n b₁ b' hlt hn hn0 hb₁ ih hext hitems hlen _
  have hle := (Size.mem_counts.mp hn).2.2
  have htake : ∀ x ∈ items.take n, x.Ordinary := fun x hx => hitems x (List.mem_of_mem_take hx)
  have hvalue : ((size b).value none (items.take n)).OrdinaryRun :=
    Size.ordinaryRun_value _ (by simp; omega) htake (by simp)
  obtain ⟨hext₁, hallows⟩ := hone hvalue hext hb₁
  rw [Size.run_value _ fun x hx => (htake x hx).isMarker, List.length_take, Nat.min_eq_left hle]
    at hallows
  obtain ⟨k, hk, hleast, hmost⟩ := ih (hext₁.trans hext)
    (fun x hx => hitems x (List.mem_of_mem_drop hx)) (by simp; omega) hlt
  rw [List.length_drop] at hleast hmost
  exact ⟨k + 1, by omega, hallows.succ_mul hle ⟨hleast, hmost⟩⟩

/-! ## all patterns -/

/-- A choice allows what one of its patterns allows. -/
theorem allows_alternatives {ps : List Pattern} {s : Size} {n : Nat} (hs : s ∈ sizes none b₀ ps)
    (h : s.Allows n) : ((alternatives ps).size none b₀).Allows n := by
  rw [size]
  match hsizes : sizes none b₀ ps with
  | [] => simp [hsizes] at hs
  | s₁ :: ss =>
      rw [hsizes, List.mem_cons] at hs
      refine Size.allows_foldl_join (hs.imp (fun heq => ?_) fun hmem => ⟨s, hmem, h⟩)
      exact heq ▸ h

mutual

/-- The number of terms that a pattern matches lies within its size under any earlier bindings. -/
theorem allows_of_mem_solutions : ∀ (p : Pattern) {t : Term} {b b' : Bindings}, t.OrdinaryRun →
    b.Extends b₀ → b' ∈ p.solutions w t b → (p.size none b₀).Allows t.run.length
  | atom _, t, b, b', _, _, h | literal _, t, b, b', _, _, h | blank _, t, b, b', _, _, h => by
      rw [solutions, List.mem_ite_nil_right] at h
      exact Size.allows_one_of_any h.1
  | except _, t, b, b', _, _, h => by
      rw [solutions, List.mem_ite_nil_right, Bool.and_eq_true] at h
      obtain ⟨x, hx⟩ := Option.isSome_iff_exists.mp h.1.2
      exact Size.allows_one hx
  | call _ _ _, t, b, b', _, _, h => by
      obtain ⟨x, hx, -⟩ | ⟨i, f, xs, b₁, hx, -⟩ := mem_solutions_call h
      · exact Size.allows_one hx
      · exact Size.allows_one hx
  | blankSequence _, t, b, b', ht, _, h => by
      rw [solutions, List.mem_ite_nil_right, Bool.and_eq_true] at h
      refine ⟨?_, ht.fits⟩
      have hne : t.run ≠ [] := by simpa using h.1.1
      exact List.length_pos_iff.mpr hne
  | blankNullSequence _, t, _, _, ht, _, _ => ⟨Nat.zero_le _, ht.fits⟩
  | named x p, t, b, b', ht, hb, h => by
      rw [solutions] at h
      rw [size]
      cases hx₀ : b₀.get? x with
      | some v =>
          -- the name was bound to what it is bound to now, so the lengths agree
          simp only [hb x v hx₀, List.mem_ite_nil_right] at h
          have hlen : v.boundLength none = t.run.length := by
            rw [← Term.boundLength_none]
            exact Term.boundLength_congr rfl ((Term.beq_iff_strip v t).mp h.1)
          simp only [hlen]
          exact ⟨Nat.le_refl _, Nat.le_refl _⟩
      | none =>
          cases hx : b.get? x with
          | some v =>
              simp only [hx, List.mem_ite_nil_right] at h
              exact allows_of_mem_solutions p ht hb h.2
          | none =>
              simp only [hx] at h
              exact allows_of_mem_solutions p ht ((Bindings.grown_push hx t).extends.trans hb) h
  | condition p _, t, b, b', ht, hb, h | tested p _, t, b, b', ht, hb, h => by
      rw [solutions] at h
      exact allows_of_mem_solutions p ht hb (List.mem_filter.mp h).1
  | hold p, t, b, b', ht, hb, h => by
      rw [solutions] at h
      exact allows_of_mem_solutions p ht hb h
  | longest p, t, b, b', ht, hb, h | shortest p, t, b, b', ht, hb, h => by
      rw [solutions] at h
      exact allows_of_mem_solutions p ht hb h
  | exceptThen no p, t, b, b', ht, hb, h => by
      rw [solutions, List.mem_ite_nil_right] at h
      exact allows_of_mem_solutions p ht hb h.2
  | optional p d, t, b, b', ht, hb, h => by
      rw [size]
      refine ⟨Nat.zero_le _, ?_⟩
      by_cases hempty : (t.isMarker && t.args.isEmpty) = true
      · rw [Term.run_eq_nil_iff.mpr hempty]
        exact Nat.zero_le _
      · have hp : b' ∈ p.solutions w t b := by
          cases d <;> rw [solutions, if_neg hempty] at h <;> exact h
        exact (allows_of_mem_solutions p ht hb hp).2
  | alternatives ps, t, b, b', ht, hb, h => by
      rw [solutions] at h
      obtain ⟨s, hs, hallows⟩ := allows_of_mem_solutionsOfAny ps ht hb h
      exact allows_alternatives hs hallows
  | repeated p _ least most, t, b, b', ht, hb, h => by
      rw [solutions] at h
      have hone : ∀ {t b b'}, t.OrdinaryRun → b.Extends b₀ → b' ∈ p.solutions w t b →
          b'.Extends b ∧ (p.size none b₀).Allows t.run.length :=
        fun ht hb h => ⟨(grown_of_mem_solutions p h).extends, allows_of_mem_solutions p ht hb h⟩
      obtain ⟨k, hk, hlen⟩ :=
        length_of_mem_repetitions hone _ _ _ _ h hb ht.each ht.fits (Nat.zero_le _)
      rw [size]
      exact Size.allows_repeated (by simpa using hk) hlen ht.fits
  | sequence ps, t, b, b', ht, hb, h => by
      rw [solutions, mem_complete] at h
      rw [size, ← Nat.zero_add t.run.length]
      exact allows_of_mem_fillings ps ht.each (by simpa using ht.fits) hb
        ⟨Nat.le_refl 0, Nat.le_refl 0⟩ h

theorem allows_of_mem_solutionsOfAny : ∀ (ps : List Pattern) {t : Term} {b b' : Bindings},
    t.OrdinaryRun → b.Extends b₀ → b' ∈ solutionsOfAny w ps t b →
    ∃ s ∈ sizes none b₀ ps, s.Allows t.run.length
  | [], _, _, _, _, _, h => by cases h
  | p :: ps, t, b, b', ht, hb, h => by
      rw [solutionsOfAny, List.mem_append] at h
      rw [sizes]
      obtain h | h := h
      · exact ⟨_, List.mem_cons_self, allows_of_mem_solutions p ht hb h⟩
      · obtain ⟨s, hs, hallows⟩ := allows_of_mem_solutionsOfAny ps ht hb h
        exact ⟨s, List.mem_cons_of_mem _ hs, hallows⟩

/-- Slots that take all arguments, after patterns that took `m`. -/
theorem allows_of_mem_fillings : ∀ (ps : List Pattern) {args : List Term} {b b' : Bindings}
    {s : Size} {m : Nat}, (∀ x ∈ args, x.Ordinary) → m + args.length ≤ unbounded →
    b.Extends b₀ → s.Allows m → (b', []) ∈ fillings w ps none args b →
    ((sizes none b₀ ps).foldl Size.andThen s).Allows (m + args.length)
  | [], args, b, b', s, m, _, _, _, hs, h => by
      rw [fillings, List.mem_singleton, Prod.mk.injEq] at h
      rw [← h.2]
      exact hs
  | p :: ps, args, b, b', s, m, hargs, hlen, hb, hs, h => by
      obtain ⟨n, hn, b₁, hb₁, hrest⟩ := mem_fillings_cons.mp h
      have hle := (Size.mem_counts.mp hn).2.2
      have htake : ∀ x ∈ args.take n, x.Ordinary := fun x hx => hargs x (List.mem_of_mem_take hx)
      have hvalue : ((p.size none b).value none (args.take n)).OrdinaryRun :=
        Size.ordinaryRun_value _ (by simp; omega) htake (by simp)
      have hallows := allows_of_mem_solutions p hvalue hb hb₁
      rw [Size.run_value _ fun x hx => (htake x hx).isMarker, List.length_take,
        Nat.min_eq_left hle] at hallows
      have hext := (grown_of_mem_solutions p hb₁).extends.trans hb
      have hrec := allows_of_mem_fillings ps (fun x hx => hargs x (List.mem_of_mem_drop hx))
        (by rw [List.length_drop]; omega) hext (hs.andThen hallows (by omega)) hrest
      rw [sizes, List.foldl_cons]
      rwa [List.length_drop, Nat.add_assoc, Nat.add_sub_cancel' hle] at hrec

end

/-- Slots that take all arguments from free ones, after patterns that took `m`. -/
theorem allows_of_mem_fillingsAnywhere : ∀ (ps : List Pattern) {free : List (Term × Nat)}
    {b b' : Bindings} {s : Size} {m : Nat}, (∀ x ∈ free, x.1.Ordinary) →
    m + free.length ≤ unbounded → b.Extends b₀ → s.Allows m →
    (b', []) ∈ fillingsAnywhere w ps none free b →
    ((sizes none b₀ ps).foldl Size.andThen s).Allows (m + free.length)
  | [], free, b, b', s, m, _, _, _, hs, h => by
      rw [fillingsAnywhere, List.mem_singleton, Prod.mk.injEq] at h
      rw [← h.2]
      exact hs
  | p :: ps, free, b, b', s, m, hfree, hlen, hb, hs, h => by
      obtain ⟨n, -, c, hc, b₁, hb₁, hrest⟩ := mem_fillingsAnywhere_cons.mp h
      obtain ⟨rfl, hperm⟩ := mem_choices hc
      have hsum : c.1.length + c.2.length = free.length := by
        rw [← List.length_append, hperm.length_eq]
      have htaken : ∀ x ∈ c.1.map (·.1), x.Ordinary := by
        intro x hx
        obtain ⟨y, hy, rfl⟩ := List.mem_map.mp hx
        exact hfree y (hperm.subset (List.mem_append_left _ hy))
      have hvalue : ((p.size none b).value none (c.1.map (·.1))).OrdinaryRun :=
        Size.ordinaryRun_value _ (by rw [List.length_map]; omega) htaken (by simp)
      have hallows := allows_of_mem_solutions p hvalue hb hb₁
      rw [Size.run_value _ fun x hx => (htaken x hx).isMarker, List.length_map] at hallows
      have hext := (grown_of_mem_solutions p hb₁).extends.trans hb
      have hrec := allows_of_mem_fillingsAnywhere ps
        (fun x hx => hfree x (hperm.subset (List.mem_append_right _ hx))) (by omega) hext
        (hs.andThen hallows (by omega)) hrest
      rw [sizes, List.foldl_cons, ← hsum, ← Nat.add_assoc]
      exact hrec

/-! ## the slots of a call -/

/-- Slots that take all arguments take a number of them within the total range. -/
theorem totalRange_of_mem_fillings {ps : List Pattern} {args : List Term} {b b' : Bindings}
    (hargs : ∀ x ∈ args, x.Ordinary) (hlen : args.length ≤ unbounded)
    (h : (b', []) ∈ fillings w ps none args b) :
    (totalRange ps b).1 ≤ args.length ∧ args.length ≤ (totalRange ps b).2 := by
  have hallows := allows_of_mem_fillings ps (s := .between 0 0) hargs (by simpa using hlen)
    (.refl b) ⟨Nat.le_refl 0, Nat.le_refl 0⟩ h
  rwa [Nat.zero_add] at hallows

theorem totalRange_of_mem_fillingsAnywhere {ps : List Pattern} {free : List (Term × Nat)}
    {b b' : Bindings} (hfree : ∀ x ∈ free, x.1.Ordinary) (hlen : free.length ≤ unbounded)
    (h : (b', []) ∈ fillingsAnywhere w ps none free b) :
    (totalRange ps b).1 ≤ free.length ∧ free.length ≤ (totalRange ps b).2 := by
  have hallows := allows_of_mem_fillingsAnywhere ps (s := .between 0 0) hfree
    (by simpa using hlen) (.refl b) ⟨Nat.le_refl 0, Nat.le_refl 0⟩ h
  rwa [Nat.zero_add] at hallows

end Pattern

end Termwise
