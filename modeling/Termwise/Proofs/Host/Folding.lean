import Mathlib.Algebra.BigOperators.Group.List.Basic
import Mathlib.Algebra.BigOperators.Ring.List
import Mathlib.Algebra.Order.BigOperators.Group.List
import Mathlib.Algebra.Order.Ring.Int
import Mathlib.Data.List.Sort
import Termwise.Proofs.Eval.Application

/-!
# Termwise.Proofs.Host.Folding

Sums and products of integers, and when they are exact.

A fold is exact when every result on the way has 64 bits, the numbers being taken in
ascending order (`Stays`).  The order makes this a condition on few results: the last one,
and the ones around the change from negative to other numbers, where a sum is least and the
magnitude of a product greatest (`stays_sum_iff`, `stays_product_iff`).
-/

namespace Termwise.Host

/-- An integer has 64 bits. -/
def HasWidth (n : Int) : Prop := -2 ^ 63 ≤ n ∧ n < 2 ^ 63

instance (n : Int) : Decidable (HasWidth n) := inferInstanceAs (Decidable (_ ∧ _))

theorem toInt_ofInt_of_hasWidth {n : Int} (h : HasWidth n) : (Int64.ofInt n).toInt = n :=
  Int64.toInt_ofInt_of_le h.1 h.2

/-- What has 64 bits after a multiplication by a positive number had 64 bits before. -/
theorem HasWidth.of_mul {n m : Int} (hm : 1 ≤ m) (h : HasWidth (n * m)) : HasWidth n := by
  obtain ⟨hlow, hhigh⟩ := h
  obtain hn | hn := Int.le_total 0 n
  · have := le_mul_of_one_le_right hn hm
    exact ⟨by omega, by omega⟩
  · have hle := Int.mul_le_mul_of_nonpos_left hn hm
    rw [Int.mul_one] at hle
    exact ⟨by omega, by omega⟩

namespace Fold

/-! ## results on the way -/

/-- All results on the way from an integer through others have 64 bits. -/
def Stays (f : Fold) : Int → List Int → Prop
  | _, [] => True
  | n, m :: ms => HasWidth (f.exact n m) ∧ Stays f (f.exact n m) ms

theorem checked_of_hasWidth (f : Fold) {a b : Int64} (h : HasWidth (f.exact a.toInt b.toInt)) :
    f.checked a b = some (.ofInt (f.exact a.toInt b.toInt)) := if_pos h

theorem checked_of_not_hasWidth (f : Fold) {a b : Int64}
    (h : ¬HasWidth (f.exact a.toInt b.toInt)) : f.checked a b = none := if_neg h

/-- One number more in a fold of integers. -/
theorem foldlM_checked_cons (f : Fold) (a n : Int64) (ns : List Int64) :
    (n :: ns).foldlM f.checked a = (f.checked a n).bind fun b => ns.foldlM f.checked b := by
  rw [List.foldlM_cons]
  rfl

theorem foldlM_checked_of_stays (f : Fold) {a : Int64} {ns : List Int64}
    (h : f.Stays a.toInt (ns.map Int64.toInt)) :
    ∃ b, ns.foldlM f.checked a = some b ∧ b.toInt = (ns.map Int64.toInt).foldl f.exact a.toInt := by
  induction ns generalizing a with
  | nil => exact ⟨a, rfl, rfl⟩
  | cons n ns ih =>
      obtain ⟨hwidth, hstays⟩ := h
      have hvalue := toInt_ofInt_of_hasWidth hwidth
      rw [← hvalue] at hstays
      obtain ⟨b, hfold, hb⟩ := ih hstays
      rw [hvalue] at hb
      exact ⟨b, by rw [foldlM_checked_cons, f.checked_of_hasWidth hwidth]; exact hfold, hb⟩

theorem foldlM_checked_of_not_stays (f : Fold) {a : Int64} {ns : List Int64}
    (h : ¬f.Stays a.toInt (ns.map Int64.toInt)) : ns.foldlM f.checked a = none := by
  induction ns generalizing a with
  | nil => exact absurd trivial h
  | cons n ns ih =>
      rw [foldlM_checked_cons]
      by_cases hwidth : HasWidth (f.exact a.toInt n.toInt)
      · rw [f.checked_of_hasWidth hwidth]
        refine ih fun hstays => h ⟨hwidth, ?_⟩
        rwa [toInt_ofInt_of_hasWidth hwidth] at hstays
      · rw [f.checked_of_not_hasWidth hwidth]
        rfl

theorem integer?_map_int (f : Fold) (ns : List Int64) :
    f.integer? (ns.map .int) = ns.foldlM f.checked f.unit := by
  rw [integer?, List.foldlM_map]

/-! ## ascending integers -/

/-- The negative ones among integers, in ascending order. -/
def negatives (ms : List Int) : List Int := (ms.filter (· < 0)).insertionSort (· ≤ ·)

/-- Among ascending integers the negative ones are in order. -/
theorem negatives_of_ascending {ms : List Int} (h : ms.Pairwise (· ≤ ·)) :
    negatives ms = ms.filter (· < 0) :=
  List.Pairwise.insertionSort_eq (h.filter _)

theorem negatives_congr {ms ms' : List Int} (h : ms.Perm ms') : negatives ms = negatives ms' := by
  refine List.Perm.eq_of_pairwise (fun _ _ _ _ => Int.le_antisymm)
    (List.pairwise_insertionSort _ _) (List.pairwise_insertionSort _ _) ?_
  exact (List.perm_insertionSort _ _).trans
    ((h.filter _).trans (List.perm_insertionSort _ _).symm)

theorem negatives_cons_of_neg {m : Int} {ms : List Int} (h : (m :: ms).Pairwise (· ≤ ·))
    (hm : m < 0) : negatives (m :: ms) = m :: negatives ms := by
  rw [negatives_of_ascending h, negatives_of_ascending h.of_cons,
    List.filter_cons_of_pos (by simpa using hm)]

theorem negatives_eq_nil {ms : List Int} (h : ∀ m ∈ ms, 0 ≤ m) : negatives ms = [] := by
  have hfilter : ms.filter (· < 0) = [] :=
    List.filter_eq_nil_iff.mpr fun m hm => by simpa using h m hm
  rw [negatives, hfilter]
  rfl

theorem neg_of_mem_negatives {ms : List Int} {m : Int} (h : m ∈ negatives ms) : m < 0 := by
  rw [negatives, List.mem_insertionSort] at h
  simpa using (List.mem_filter.mp h).2

theorem sum_nonpos_of_neg {ms : List Int} (h : ∀ m ∈ ms, m < 0) : ms.sum ≤ 0 := by
  induction ms with
  | nil => exact Int.le_refl 0
  | cons m ms ih =>
      obtain ⟨hm, hms⟩ := List.forall_mem_cons.mp h
      have := ih hms
      rw [List.sum_cons]
      omega

/-- A sum of ascending integers goes down through the negative ones, and then up. -/
theorem stays_sum_iff {n : Int} {ms : List Int} (hn : HasWidth n) (hms : ms.Pairwise (· ≤ ·)) :
    sum.Stays n ms ↔ HasWidth (n + ms.sum) ∧ HasWidth (n + (negatives ms).sum) := by
  induction ms generalizing n with
  | nil => simp [Stays, negatives, hn]
  | cons m ms ih =>
      have hstep : sum.exact n m = n + m := rfl
      rw [Stays, hstep, List.sum_cons]
      obtain hm | hm := Int.lt_or_le m 0
      · have hnonpos := sum_nonpos_of_neg fun m (hm : m ∈ negatives ms) => neg_of_mem_negatives hm
        rw [negatives_cons_of_neg hms hm, List.sum_cons, ← Int.add_assoc, ← Int.add_assoc]
        constructor
        · rintro ⟨hwidth, hstays⟩
          exact (ih hwidth hms.of_cons).mp hstays
        · rintro ⟨hlast, hleast⟩
          have hwidth : HasWidth (n + m) := by
            unfold HasWidth at *
            omega
          exact ⟨hwidth, (ih hwidth hms.of_cons).mpr ⟨hlast, hleast⟩⟩
      · have hall : ∀ m' ∈ ms, 0 ≤ m' := fun m' hm' =>
          Int.le_trans hm (List.rel_of_pairwise_cons hms hm')
        have hnonneg := List.sum_nonneg hall
        rw [negatives_eq_nil (List.forall_mem_cons.mpr ⟨hm, hall⟩), ← Int.add_assoc]
        have hrest : (negatives ms).sum = 0 := by rw [negatives_eq_nil hall]; rfl
        constructor
        · rintro ⟨hwidth, hstays⟩
          exact ⟨((ih hwidth hms.of_cons).mp hstays).1, by simpa using hn⟩
        · rintro ⟨hlast, -⟩
          have hwidth : HasWidth (n + m) := by
            unfold HasWidth at *
            omega
          refine ⟨hwidth, (ih hwidth hms.of_cons).mpr ⟨hlast, ?_⟩⟩
          rwa [hrest, Int.add_zero]

theorem one_le_prod {ms : List Int} (h : ∀ m ∈ ms, 1 ≤ m) : 1 ≤ ms.prod := by
  induction ms with
  | nil => exact Int.le_refl 1
  | cons m ms ih =>
      obtain ⟨hm, hms⟩ := List.forall_mem_cons.mp h
      rw [List.prod_cons]
      exact Int.le_trans hm (le_mul_of_one_le_right (by omega) (ih hms))

/-- Of the products of negative numbers with and without the last one, one is positive. -/
theorem one_le_prod_or_dropLast {ms : List Int} (h : ∀ m ∈ ms, m < 0) (hms : ms ≠ []) :
    1 ≤ ms.prod ∨ 1 ≤ ms.dropLast.prod := by
  have hlast := h _ (List.getLast_mem hms)
  have hzero : ms.dropLast.prod ≠ 0 := by
    refine List.prod_ne_zero fun hmem => ?_
    exact Int.lt_irrefl 0 (h 0 (List.dropLast_subset ms hmem))
  have hprod : ms.prod = ms.dropLast.prod * ms.getLast hms := by
    rw [← List.prod_concat, List.concat_eq_append, List.dropLast_append_getLast hms]
  obtain hneg | hpos := Int.lt_or_le ms.dropLast.prod 0
  · left
    have := Int.mul_pos_of_neg_of_neg hneg hlast
    omega
  · right
    omega

/-- The magnitude of a product of ascending integers grows through the negative ones. -/
theorem stays_product_iff {n : Int} {ms : List Int} (hn : HasWidth n) (hms : ms.Pairwise (· ≤ ·)) :
    product.Stays n ms ↔ HasWidth (n * ms.prod) ∧ HasWidth (n * (negatives ms).prod) ∧
      HasWidth (n * (negatives ms).dropLast.prod) := by
  induction ms generalizing n with
  | nil => simp [Stays, negatives, hn]
  | cons m ms ih =>
      have hstep : product.exact n m = n * m := rfl
      rw [Stays, hstep, List.prod_cons]
      obtain hm | hm := Int.lt_or_le m 0
      · rw [negatives_cons_of_neg hms hm, List.prod_cons, ← Int.mul_assoc, ← Int.mul_assoc]
        by_cases hlast : negatives ms = []
        · -- `m` is the last negative number
          rw [hlast] at ih ⊢
          constructor
          · rintro ⟨hwidth, hstays⟩
            obtain ⟨hall, hone, -⟩ := (ih hwidth hms.of_cons).mp hstays
            exact ⟨hall, hone, by simpa using hn⟩
          · rintro ⟨hall, hone, -⟩
            have hwidth : HasWidth (n * m) := by simpa using hone
            exact ⟨hwidth, (ih hwidth hms.of_cons).mpr ⟨hall, hone, by simpa using hwidth⟩⟩
        · rw [List.dropLast_cons_of_ne_nil hlast, List.prod_cons, ← Int.mul_assoc]
          constructor
          · rintro ⟨hwidth, hstays⟩
            exact (ih hwidth hms.of_cons).mp hstays
          · rintro ⟨hall, hone, hother⟩
            have hwidth : HasWidth (n * m) := by
              obtain hpos | hpos := one_le_prod_or_dropLast
                (fun m (hm : m ∈ negatives ms) => neg_of_mem_negatives hm) hlast
              · exact hone.of_mul hpos
              · exact hother.of_mul hpos
            exact ⟨hwidth, (ih hwidth hms.of_cons).mpr ⟨hall, hone, hother⟩⟩
      · have hall : ∀ m' ∈ ms, m ≤ m' := fun m' => List.rel_of_pairwise_cons hms
        have hnonneg : ∀ m' ∈ ms, 0 ≤ m' := fun m' hm' => Int.le_trans hm (hall m' hm')
        rw [negatives_eq_nil (List.forall_mem_cons.mpr ⟨hm, hnonneg⟩), ← Int.mul_assoc]
        rw [negatives_eq_nil hnonneg] at ih
        simp only [List.dropLast_nil, List.prod_nil, Int.mul_one] at ih ⊢
        constructor
        · rintro ⟨hwidth, hstays⟩
          exact ⟨((ih hwidth hms.of_cons).mp hstays).1, hn, hn⟩
        · rintro ⟨hlast, -⟩
          have hwidth : HasWidth (n * m) := by
            obtain rfl | hpos := hm.eq_or_lt
            · rw [Int.mul_zero]
              decide
            · exact hlast.of_mul (one_le_prod fun m' hm' => Int.le_trans hpos (hall m' hm'))
          exact ⟨hwidth, (ih hwidth hms.of_cons).mpr ⟨hlast, hwidth, hwidth⟩⟩

/-! ## calls on integers -/

/-- What integers fold to is exact if all results on the way have 64 bits, and a floating-point
number otherwise. -/
theorem number_map_int (f : Fold) (ns : List Int64) :
    (f.Stays f.unit.toInt (ns.map Int64.toInt) → ∃ n, f.number (ns.map .int) = .int n ∧
      n.toInt = (ns.map Int64.toInt).foldl f.exact f.unit.toInt) ∧
    (¬f.Stays f.unit.toInt (ns.map Int64.toInt) → ∃ x, f.number (ns.map .int) = .float x) := by
  rw [number, integer?_map_int]
  constructor
  · intro h
    obtain ⟨n, hfold, hn⟩ := f.foldlM_checked_of_stays h
    exact ⟨n, by rw [hfold], hn⟩
  · intro h
    exact ⟨_, by rw [f.foldlM_checked_of_not_stays h]⟩

/-- Numbers, at least two of them, are folded into one. -/
theorem call_of_numbers (f : Fold) (i : Nat) (g : Term) {xs : List Term}
    (hxs : ∀ t ∈ xs, t.isNumber = true) (hlength : 2 ≤ xs.length) :
    f.call (.node i g xs) = some (f.number xs) := by
  obtain ⟨a, b, rest, rfl⟩ : ∃ a b rest, xs = a :: b :: rest := by
    match xs, hlength with
    | a :: b :: rest, _ => exact ⟨a, b, rest, rfl⟩
  have hpartition : (a :: b :: rest).partition Term.isNumber = (a :: b :: rest, []) := by
    rw [List.partition_eq_filter_filter, List.filter_eq_self.mpr hxs]
    refine Prod.ext rfl (List.filter_eq_nil_iff.mpr fun t ht => ?_)
    simp [hxs t ht]
  simp only [call, Term.args, hpartition]
  simp

theorem toInt_le_of_le {m n : Int64} (h : Term.le (.int m) (.int n) = true) :
    m.toInt ≤ n.toInt := by
  refine Int.not_lt.mp fun hlt => ?_
  have hcompare : Term.compare (.int m) (.int n) = .gt := by
    rw [Term.compare_swap, Term.compare_number rfl rfl, Term.compareKeys_int_of_lt hlt]
    rfl
  rw [Term.le, hcompare] at h
  cases h

/-- Integers are sorted by value. -/
theorem exists_sort_map_int (ns : List Int64) :
    ∃ ns' : List Int64, Term.sort (ns.map .int) = ns'.map .int ∧
      (ns'.map Int64.toInt).Pairwise (· ≤ ·) ∧
      (ns'.map Int64.toInt).Perm (ns.map Int64.toInt) := by
  let before : Int64 → Int64 → Bool := fun m n => Term.le (.int m) (.int n)
  refine ⟨ns.mergeSort before, ?_, ?_, (List.mergeSort_perm ns before).map _⟩
  · exact (List.map_mergeSort (f := Term.int) (s := Term.le) fun _ _ _ _ => rfl).symm
  · refine List.Pairwise.map _ (fun _ _ => toInt_le_of_le) ?_
    exact List.pairwise_mergeSort (fun m n i => Term.le_trans (.int m) (.int n) (.int i))
      (fun m n => Term.le_total (.int m) (.int n)) ns

end Fold

/-- A term is a given integer under a condition, and a floating-point number otherwise. -/
def ExactIff (v : Term) (total : Int) (condition : Prop) : Prop :=
  (condition → ∃ n : Int64, v = .int n ∧ n.toInt = total) ∧ (¬condition → ∃ x, v = .float x)

variable {k : Kernel} {c : ContextId} {s plus times : Symbol}

/-- Integers are folded in ascending order, whatever the order they are given in. -/
theorem exists_run_evaluate_fold {f : Fold} {total : Int} {condition : Prop} (hready : k.Ready c)
    (h : k.Applies c s numericAttributes f.call) {ns : List Int64} (hlength : 2 ≤ ns.length)
    (hfold : ∀ ms : List Int, ms.Perm (ns.map Int64.toInt) → ms.Pairwise (· ≤ ·) →
      (f.Stays f.unit.toInt ms ↔ condition) ∧ ms.foldl f.exact f.unit.toInt = total)
    (fuel : Nat) :
    ∃ v k', (evaluateWith (fuel + 2) c (.call (.symbol s) (ns.map .int))).run k = (.ok v, k') ∧
      ExactIff v total condition := by
  obtain ⟨ns', hsort, hascending, hperm⟩ := Fold.exists_sort_map_int ns
  have hnumbers : ∀ ns : List Int64, ∀ t ∈ ns.map Term.int, t.isNumber = true := by
    intro ns t ht
    obtain ⟨n, -, rfl⟩ := List.mem_map.mp ht
    rfl
  have hlength' : 2 ≤ (ns'.map Term.int).length := by
    have := hperm.length_eq
    simp only [List.length_map] at *
    omega
  have hgives : Evaluator.Gives f.call s numericAttributes (ns.map .int)
      (f.number (ns'.map .int)) := by
    intro i
    rw [Evaluator.arguments, if_pos (by decide), hsort]
    exact f.call_of_numbers i _ (hnumbers ns') hlength'
  obtain ⟨hstays, htotal⟩ := hfold _ hperm hascending
  obtain ⟨hexact, hfloat⟩ := f.number_map_int ns'
  rw [hstays, htotal] at hexact
  rw [hstays] at hfloat
  have hrests : k.Rests c (f.number (ns'.map .int)) := by
    rw [Fold.number]
    split <;> rfl
  obtain ⟨k', hrun⟩ := Evaluator.exists_run_evaluateWith_of_function hready h (hnumbers ns) hgives
    hrests fuel
  exact ⟨_, k', hrun, hexact, hfloat⟩

/-- A sum of integers is exact if it has 64 bits and the sum of the negative ones has.  A product is
exact if it has 64 bits and the products of the negative ones, with and without the greatest of
them, have.  Otherwise the result is a floating-point number. -/
theorem evaluate_sum_product (hready : k.Ready c)
    (hplus : k.Applies c plus numericAttributes Fold.sum.call)
    (htimes : k.Applies c times numericAttributes Fold.product.call) {ns : List Int64}
    (hlength : 2 ≤ ns.length) (fuel : Nat) :
    let ms := ns.map Int64.toInt
    let negatives := Fold.negatives ms
    (∃ v k', (evaluateWith (fuel + 2) c (.call (.symbol plus) (ns.map .int))).run k = (.ok v, k') ∧
      ExactIff v ms.sum (HasWidth ms.sum ∧ HasWidth negatives.sum)) ∧
    ∃ v k', (evaluateWith (fuel + 2) c (.call (.symbol times) (ns.map .int))).run k = (.ok v, k') ∧
      ExactIff v ms.prod (HasWidth ms.prod ∧ HasWidth negatives.prod ∧
        HasWidth negatives.dropLast.prod) := by
  intro ms negatives
  refine ⟨exists_run_evaluate_fold hready hplus hlength (fun ms' hperm hascending => ?_) fuel,
    exists_run_evaluate_fold hready htimes hlength (fun ms' hperm hascending => ?_) fuel⟩
  · have hstays := Fold.stays_sum_iff (n := 0) (by decide) hascending
    rw [Int.zero_add, Int.zero_add, hperm.sum_eq, Fold.negatives_congr hperm] at hstays
    exact ⟨hstays, List.sum_eq_foldl.symm.trans hperm.sum_eq⟩
  · have hstays := Fold.stays_product_iff (n := 1) (by decide) hascending
    rw [Int.one_mul, Int.one_mul, Int.one_mul, hperm.prod_eq, Fold.negatives_congr hperm] at hstays
    exact ⟨hstays, List.prod_eq_foldl.symm.trans hperm.prod_eq⟩

/-- The sum of -3, 5 and 2 is 4, and their product -30. -/
theorem evaluate_sum_product_three :
    (∃ v k', (evaluateWith 2 ⟨0⟩ (.call (.symbol ⟨38, "Plus"⟩) [.int 5, .int (-3), .int 2])).run
        arithmeticKernel = (.ok v, k') ∧ ∃ n : Int64, v = .int n ∧ n.toInt = 4) ∧
    ∃ v k', (evaluateWith 2 ⟨0⟩ (.call (.symbol ⟨39, "Times"⟩) [.int 5, .int (-3), .int 2])).run
        arithmeticKernel = (.ok v, k') ∧ ∃ n : Int64, v = .int n ∧ n.toInt = -30 := by
  obtain ⟨-, hready, hplus, htimes, -⟩ := applies_arithmeticKernel
  have hlength : 2 ≤ ([5, -3, 2] : List Int64).length := by decide
  obtain ⟨⟨v, k', hsum, hv, -⟩, w, k'', hproduct, hw, -⟩ :=
    evaluate_sum_product hready hplus htimes hlength 0
  exact ⟨⟨v, k', hsum, hv (by decide)⟩, w, k'', hproduct, hw (by decide)⟩

/-- The sum of `-2 ^ 63`, -1 and 1 and the product of `-2 ^ 62`, -4 and 0 have 64 bits, but come out
as floating-point numbers. -/
theorem evaluate_exact_as_float :
    let ns : List Int64 := [-9223372036854775808, -1, 1]
    let ms : List Int64 := [-4611686018427387904, -4, 0]
    (HasWidth (ns.map Int64.toInt).sum ∧
      ∃ v k', (evaluateWith 2 ⟨0⟩ (.call (.symbol ⟨38, "Plus"⟩) (ns.map .int))).run
        arithmeticKernel = (.ok v, k') ∧ (v == .float ⟨0xc3e0000000000000⟩) = true) ∧
    HasWidth (ms.map Int64.toInt).prod ∧
      ∃ v k', (evaluateWith 2 ⟨0⟩ (.call (.symbol ⟨39, "Times"⟩) (ms.map .int))).run
        arithmeticKernel = (.ok v, k') ∧ (v == .float ⟨0⟩) = true := by
  intro ns ms
  refine ⟨⟨by decide, exists_of_succeedsWith (q := fun v _ => v == .float ⟨0xc3e0000000000000⟩) ?_⟩,
    by decide, exists_of_succeedsWith (q := fun v _ => v == .float ⟨0⟩) ?_⟩
  · decide +kernel
  · decide +kernel

end Termwise.Host
