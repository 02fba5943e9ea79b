import Termwise.Proofs.Eval.Application
import Termwise.Proofs.Number.Value

/-!
# Termwise.Proofs.Host.Comparing

`Less` and `Greater` against the exact values of numbers.

Both go by the order of terms, which has to tell any two different numbers apart.  So they
put an integer before the floating-point number of equal value, and negative zero before
zero; and as the order rounds integers, they may put an integer before a number of less value
(`Misjudged`).  In all other cases they compare values (`evaluate_comparisons`).
-/

namespace Termwise

/-! ## ranks and values -/

namespace Double

/-- Zero with a positive sign. -/
def positiveZero : Double := ofMagnitude false 0

variable {x y : Double}

theorem value_lt_value (hx : x.isInfinite = false) (hy : y.isInfinite = false) :
    x.value < y.value ↔ x.signedUnits < y.signedUnits := by
  rw [value_of_finite hx, value_of_finite hy, WithBot.coe_lt_coe, WithTop.coe_lt_coe,
    ← mul_lt_mul_iff_left₀ cast_unitsOfOne_pos, ← cast_signedUnits, ← cast_signedUnits]
  exact_mod_cast Iff.rfl

theorem magnitude_le (hx : x.isNaN = false) : x.magnitude ≤ infinityBits := by
  cases hinf : x.isInfinite with
  | false => exact Nat.le_of_lt (magnitude_lt_of_finite hx hinf)
  | true => exact Nat.le_of_eq (magnitude_of_infinite hinf)

theorem eq_positiveZero (hneg : x.negative = false) (h : x.magnitude = 0) : x = positiveZero := by
  refine rank_inj ?_
  rw [positiveZero, rank_ofMagnitude (by decide), rank, hneg, h]

/-- Greater ranks stand for more, but for those of the two zeros. -/
theorem signedUnits_lt_of_rank_lt (h : x.rank < y.rank)
    (hzero : ¬(x = negativeZero ∧ y = positiveZero)) : x.signedUnits < y.signedUnits := by
  rw [rank, rank] at h
  rw [signedUnits, signedUnits]
  cases hx : x.negative <;> cases hy : y.negative <;>
    simp only [hx, hy, if_true, Bool.false_eq_true, if_false] at h ⊢
  · have := units_lt (show x.magnitude < y.magnitude by omega)
    omega
  · omega
  · -- not both are zero
    by_cases hunits : units x.magnitude = 0 ∧ units y.magnitude = 0
    · exact absurd ⟨eq_negativeZero hx (units_eq_zero hunits.1),
        eq_positiveZero hy (units_eq_zero hunits.2)⟩ hzero
    · omega
  · have := units_lt (show y.magnitude < x.magnitude by omega)
    omega

theorem value_lt_of_rank_lt (hx : x.isNaN = false) (hy : y.isNaN = false) (h : x.rank < y.rank)
    (hzero : ¬(x = negativeZero ∧ y = positiveZero)) : x.value < y.value := by
  have hxle := magnitude_le hx
  have hyle := magnitude_le hy
  by_cases hxinf : x.isInfinite = true
  · have hxbits := magnitude_of_infinite hxinf
    cases hxneg : x.negative with
    | false =>
        rw [rank, rank, hxneg, if_neg Bool.false_ne_true] at h
        split at h <;> omega
    | true =>
        rw [value, if_pos hxinf, if_pos hxneg, bot_lt_iff_ne_bot, value]
        split
        · rename_i hyinf
          rw [rank, rank, if_pos hxneg, hxbits, magnitude_of_infinite hyinf] at h
          split
          · rename_i hyneg
            rw [if_pos hyneg] at h
            exact absurd h (Int.lt_irrefl _)
          · exact top_ne_bot
        · exact WithBot.coe_ne_bot
  · by_cases hyinf : y.isInfinite = true
    · have hybits := magnitude_of_infinite hyinf
      cases hyneg : y.negative with
      | false =>
          rw [value_of_finite (Bool.eq_false_of_not_eq_true hxinf), value, if_pos hyinf, hyneg,
            if_neg Bool.false_ne_true]
          exact WithBot.coe_lt_coe.mpr (WithTop.coe_lt_top _)
      | true =>
          rw [rank, rank, if_pos hyneg] at h
          split at h <;> omega
    · exact (value_lt_value (Bool.eq_false_of_not_eq_true hxinf)
        (Bool.eq_false_of_not_eq_true hyinf)).mpr (signedUnits_lt_of_rank_lt h hzero)

theorem value_zeros : negativeZero.value = positiveZero.value := by
  have hzero : ∀ x : Double, x.isInfinite = false → x.signed = 0 → x.value = ofInteger 0 := by
    intro x hx hsigned
    rw [value_of_finite hx, hsigned, ofInteger, Int.cast_zero, zero_mul]
  rw [hzero negativeZero (by decide) (by decide), hzero positiveZero (by decide) (by decide)]

/-- Numbers are in the order of their values, but for the two zeros. -/
theorem rank_lt_iff_value_lt (hx : x.isNaN = false) (hy : y.isNaN = false) :
    (x.rank < y.rank ↔ x.value < y.value) ↔ ¬(x = negativeZero ∧ y = positiveZero) := by
  constructor
  · rintro h ⟨rfl, rfl⟩
    have hlt := h.mp (by decide)
    rw [value_zeros] at hlt
    exact lt_irrefl _ hlt
  · refine fun hzero => ⟨fun h => value_lt_of_rank_lt hx hy h hzero, fun h => ?_⟩
    refine Int.not_le.mp fun hle => ?_
    obtain hlt | heq := Int.lt_or_eq_of_le hle
    · by_cases hzeros : y = negativeZero ∧ x = positiveZero
      · rw [hzeros.1, hzeros.2, value_zeros] at h
        exact lt_irrefl _ h
      · exact lt_asymm h (value_lt_of_rank_lt hy hx hlt hzeros)
    · rw [rank_inj heq] at h
      exact lt_irrefl _ h

end Double

/-! ## the order of terms and values -/

namespace Term

/-- The exact value of a number; NaN and terms that are not numbers have none. -/
def value? : Term → Option (WithBot (WithTop ℚ))
  | .int n => some (Double.ofInteger n.toInt)
  | .float x => if x.isNaN then none else some x.value
  | _ => none

/-- Whether a first number comes before a second one does not tell whether its value is less. -/
def Misjudged : Term → Term → Prop
  | .int n, .float x => x = nearest n ∧ x.value ≤ Double.ofInteger n.toInt
  | .float x, .int n =>
    x = nearest n ∧ x.value < Double.ofInteger n.toInt ∨ n = 0 ∧ x = Double.negativeZero
  | .float x, .float y => x = Double.negativeZero ∧ y = Double.positiveZero
  | _, _ => False

variable {a b : Term} {va vb : WithBot (WithTop ℚ)}

theorem exists_number_of_value? (h : a.value? = some va) :
    (∃ n : Int64, a = .int n ∧ va = Double.ofInteger n.toInt) ∨
      ∃ x : Double, a = .float x ∧ x.isNaN = false ∧ va = x.value := by
  cases a with
  | int n => exact .inl ⟨n, rfl, (Option.some.inj h).symm⟩
  | float x =>
      rw [value?] at h
      split at h
      · cases h
      · rename_i hx
        exact .inr ⟨x, rfl, Bool.eq_false_of_not_eq_true hx, (Option.some.inj h).symm⟩
  | _ => cases h

theorem isNumber_of_value? (h : a.value? = some va) : a.isNumber = true := by
  obtain ⟨n, rfl, -⟩ | ⟨x, rfl, -⟩ := exists_number_of_value? h <;> rfl

theorem ofInteger_lt_ofInteger (m n : Int) :
    Double.ofInteger m < Double.ofInteger n ↔ m < n := by
  rw [Double.ofInteger, Double.ofInteger, WithBot.coe_lt_coe, WithTop.coe_lt_coe, Int.cast_lt]

theorem compare_int_eq_lt (m n : Int64) :
    compare (.int m) (.int n) = .lt ↔ m.toInt < n.toInt := by
  rw [← Int64.lt_iff_toInt_lt]
  exact compareOfLessAndEq_eq_lt

theorem compare_int_float_eq_lt (n : Int64) (x : Double) :
    compare (.int n) (.float x) = .lt ↔ (nearest n).rank ≤ x.rank := by
  have hgt := compareIntFloat_eq_gt (n := n) (x := x)
  change compareIntFloat n x = .lt ↔ _
  rw [← Int.not_lt, ← hgt, compareIntFloat]
  cases (nearest n).compare x <;> decide

theorem compare_float_int_eq_lt (x : Double) (n : Int64) :
    compare (.float x) (.int n) = .lt ↔ x.rank < (nearest n).rank := by
  rw [← compareIntFloat_eq_gt]
  change (compareIntFloat n x).swap = .lt ↔ _
  cases compareIntFloat n x <;> decide

theorem judged_int_float (n : Int64) {x : Double} (hx : x.isNaN = false) :
    ((nearest n).rank ≤ x.rank ↔ Double.ofInteger n.toInt < x.value) ↔
      ¬Misjudged (.int n) (.float x) := by
  constructor
  · rintro h ⟨rfl, hle⟩
    exact absurd (h.mp (Int.le_refl _)) (not_lt.mpr hle)
  · refine fun hjudged => ⟨fun hrank => not_le.mp fun hle => ?_, fun hlt => ?_⟩
    · have hrank' := Double.rank_le_of_value_le hx hle
      exact hjudged ⟨Double.rank_inj (Int.le_antisymm hrank' hrank), hle⟩
    · refine Double.le_rank_of_le_value hx hlt.le fun ⟨hn, hzero⟩ => ?_
      rw [hn, hzero, Double.value_zeros] at hlt
      exact absurd hlt (by decide +kernel)

theorem judged_float_int {x : Double} (hx : x.isNaN = false) (n : Int64) :
    (x.rank < (nearest n).rank ↔ x.value < Double.ofInteger n.toInt) ↔
      ¬Misjudged (.float x) (.int n) := by
  constructor
  · rintro h (⟨rfl, hlt⟩ | ⟨rfl, rfl⟩)
    · exact absurd (h.mpr hlt) (Int.lt_irrefl _)
    · exact absurd (h.mp (by decide)) (by decide +kernel)
  · refine fun hjudged => ⟨fun hrank => not_le.mp fun hle => ?_, fun hlt => ?_⟩
    · refine absurd (Double.le_rank_of_le_value hx hle fun hzero => ?_) (Int.not_le.mpr hrank)
      exact hjudged (.inr ⟨Int64.toInt_inj.mp hzero.1, hzero.2⟩)
    · refine lt_of_le_of_ne (Double.rank_le_of_value_le hx hlt.le) fun heq => ?_
      exact hjudged (.inl ⟨Double.rank_inj heq, hlt⟩)

/-- One number comes before another one exactly when its value is less, unless that is
misjudged. -/
theorem compare_eq_lt_iff (ha : a.value? = some va) (hb : b.value? = some vb) :
    (compare a b = .lt ↔ va < vb) ↔ ¬Misjudged a b := by
  obtain ⟨m, rfl, rfl⟩ | ⟨x, rfl, hx, rfl⟩ := exists_number_of_value? ha <;>
    obtain ⟨n, rfl, rfl⟩ | ⟨y, rfl, hy, rfl⟩ := exists_number_of_value? hb
  · rw [compare_int_eq_lt, ofInteger_lt_ofInteger]
    exact iff_of_true Iff.rfl id
  · rw [compare_int_float_eq_lt]
    exact judged_int_float m hy
  · rw [compare_float_int_eq_lt]
    exact judged_float_int hx n
  · have hlt : compare (.float x) (.float y) = .lt ↔ x.rank < y.rank := compare_lt_iff_lt
    rw [hlt]
    exact Double.rank_lt_iff_value_lt hx hy

end Term

/-! ## comparisons -/

namespace Host

variable {k : Kernel} {c : ContextId} {s less greater : Symbol} {a b : Term}
  {va vb : WithBot (WithTop ℚ)}

/-- Two numbers are compared, and the result is a truth value. -/
theorem exists_run_evaluate_compareNumbers {order : Ordering} (hready : k.Ready c)
    (h : k.Applies c s .none (compareNumbers order)) (htruth : ∀ b, k.Idle c (Symbol.ofBool b))
    (ha : a.isNumber = true) (hb : b.isNumber = true) (fuel : Nat) :
    ∃ k', (evaluateWith (fuel + 2) c (.call (.symbol s) [a, b])).run k =
      (.ok (.ofBool (a.compare b == order)), k') := by
  have hnumbers : ∀ t ∈ [a, b], t.isNumber = true := by simp [ha, hb]
  have hgives : Evaluator.Gives (compareNumbers order) s .none [a, b]
      (.ofBool (a.compare b == order)) := by
    intro i
    rw [Evaluator.arguments, Attributes.has_none, if_neg Bool.false_ne_true]
    simp only [compareNumbers, Term.args, ha, hb, Bool.and_self, if_true]
  exact Evaluator.exists_run_evaluateWith_of_function hready h hnumbers hgives
    (htruth _) fuel

/-- `Less` and `Greater` of two numbers give a truth value, and the one that compares their values
exactly when that is not misjudged. -/
theorem evaluate_comparisons (hready : k.Ready c)
    (hless : k.Applies c less .none (compareNumbers .lt))
    (hgreater : k.Applies c greater .none (compareNumbers .gt))
    (htruth : ∀ b, k.Idle c (Symbol.ofBool b)) (ha : a.value? = some va) (hb : b.value? = some vb)
    (fuel : Nat) :
    ∃ p q : Bool,
      (∃ k', (evaluateWith (fuel + 2) c (.call (.symbol less) [a, b])).run k =
        (.ok (.ofBool p), k')) ∧
      (∃ k', (evaluateWith (fuel + 2) c (.call (.symbol greater) [a, b])).run k =
        (.ok (.ofBool q), k')) ∧
      ((p = true ↔ va < vb) ↔ ¬Term.Misjudged a b) ∧
      ((q = true ↔ vb < va) ↔ ¬Term.Misjudged b a) := by
  have ha' := Term.isNumber_of_value? ha
  have hb' := Term.isNumber_of_value? hb
  refine ⟨_, _, exists_run_evaluate_compareNumbers hready hless htruth ha' hb' fuel,
    exists_run_evaluate_compareNumbers hready hgreater htruth ha' hb' fuel, ?_, ?_⟩
  · rw [beq_iff_eq]
    exact Term.compare_eq_lt_iff ha hb
  · have hswap : a.compare b = .gt ↔ b.compare a = .lt := by
      rw [Term.compare_swap]
      cases b.compare a <;> decide
    rw [beq_iff_eq, hswap]
    exact Term.compare_eq_lt_iff hb ha

/-- The integer 2 is less than the number 3. -/
theorem evaluate_comparisons_two_three :
    let three : Double := ⟨0x4008000000000000⟩
    (∃ k', (evaluateWith 2 ⟨0⟩ (.call (.symbol ⟨40, "Less"⟩) [.int 2, .float three])).run
      arithmeticKernel = (.ok (.ofBool true), k')) ∧
    ∃ k', (evaluateWith 2 ⟨0⟩ (.call (.symbol ⟨41, "Greater"⟩) [.int 2, .float three])).run
      arithmeticKernel = (.ok (.ofBool false), k') := by
  intro three
  obtain ⟨-, hready, -, -, hless, hgreater⟩ := applies_arithmeticKernel
  have hthree : three ≠ Term.nearest 2 := by decide
  have hvalue : (Term.float three).value? = some three.value := if_neg (by decide)
  obtain ⟨p, q, hrun, hrun', hp, hq⟩ := evaluate_comparisons hready hless hgreater
    (fun b => by cases b <;> exact .inr ⟨rfl, rfl⟩) (a := .int 2) (b := .float three) rfl hvalue 0
  have hlt : Double.ofInteger 2 < three.value := by decide +kernel
  have hp := (hp.mpr fun h => hthree h.1).mpr hlt
  have hq := (hq.mpr (Or.rec (fun h => hthree h.1) fun h => by cases h.1)).not.mpr (lt_asymm hlt)
  rw [hp] at hrun
  rw [Bool.eq_false_of_not_eq_true hq] at hrun'
  exact ⟨hrun, hrun'⟩

/-- The integer 2 counts as less than the number 2, negative zero as less than zero, and
`2 ^ 53 + 1` not as greater than the number `2 ^ 53`. -/
theorem evaluate_misjudged :
    let two : Double := ⟨0x4000000000000000⟩
    let large : Double := ⟨0x4340000000000000⟩
    let gives (s : Symbol) (a b : Term) (result : Bool) : Prop :=
      ∃ v k', (evaluateWith 2 ⟨0⟩ (.call (.symbol s) [a, b])).run arithmeticKernel = (.ok v, k') ∧
        (v == .ofBool result) = true
    (two.value = Double.ofInteger 2 ∧ gives ⟨40, "Less"⟩ (.int 2) (.float two) true ∧
      gives ⟨41, "Greater"⟩ (.float two) (.int 2) true) ∧
    (Double.negativeZero.value = Double.positiveZero.value ∧
      gives ⟨40, "Less"⟩ (.float .negativeZero) (.float .positiveZero) true) ∧
    large.value < Double.ofInteger 9007199254740993 ∧
      gives ⟨41, "Greater"⟩ (.int 9007199254740993) (.float large) false := by
  intro two large gives
  refine ⟨⟨by decide +kernel, ?_, ?_⟩, ⟨Double.value_zeros, ?_⟩, by decide +kernel, ?_⟩
  all_goals exact exists_of_succeedsWith (by decide +kernel)

end Host

end Termwise
