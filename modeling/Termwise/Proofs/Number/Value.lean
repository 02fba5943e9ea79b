import Mathlib.Algebra.Order.Field.Power
import Mathlib.Algebra.Order.Field.Rat
import Mathlib.Data.Rat.Cast.Order
import Mathlib.Order.WithBot
import Termwise.Proofs.Number.Rank
import Termwise.Term.Order

/-!
# Termwise.Proofs.Number.Value

The exact values of floating-point numbers, and where the order of terms puts integers among
them.

A finite number is a whole number of units, each `2 ^ -1074` (`units`), and so is an integer.
An integer is rounded to a floating-point number before the two are compared:

* `rank_le_of_value_le`, `le_rank_of_le_value` — rounding keeps the order of an integer and a
  number, but for the two zeros;
* `value_ofInt` — integers of at most 53 bits are not changed by it;
* `compare_int_float_iff` — so a comparison is by value exactly when the number is not the one
  that the integer rounds down to, nor negative zero beside zero.
-/

namespace Termwise

namespace Double

/-! ## whole numbers of units -/

/-- What magnitude bits stand for, in units of `2 ^ -1074`. -/
def units (m : Nat) : Nat := if m < 2 ^ 52 then m else (2 ^ 52 + m % 2 ^ 52) * 2 ^ (m / 2 ^ 52 - 1)

/-- Within one binade, and at its upper end, magnitude bits count its units. -/
theorem units_add {e n : Nat} (hlow : 2 ^ 52 ≤ n) (hhigh : n ≤ 2 ^ 53) :
    units (e * 2 ^ 52 + n) = n * 2 ^ e := by
  rw [units, if_neg (by omega)]
  obtain hlt | rfl := Nat.lt_or_eq_of_le hhigh
  · have hrest : (e * 2 ^ 52 + n) % 2 ^ 52 = n - 2 ^ 52 := by omega
    have hfield : (e * 2 ^ 52 + n) / 2 ^ 52 - 1 = e := by omega
    rw [hrest, hfield, Nat.add_sub_cancel' hlow]
  · have hrest : (e * 2 ^ 52 + 2 ^ 53) % 2 ^ 52 = 0 := by omega
    have hfield : (e * 2 ^ 52 + 2 ^ 53) / 2 ^ 52 - 1 = e + 1 := by omega
    rw [hrest, hfield, Nat.add_zero, Nat.pow_succ' (n := e), ← Nat.mul_assoc]
    rfl

/-- Magnitude bits are subnormal, or in a binade. -/
theorem subnormal_or_binade (m : Nat) :
    m < 2 ^ 52 ∨ ∃ e n, m = e * 2 ^ 52 + n ∧ 2 ^ 52 ≤ n ∧ n < 2 ^ 53 := by
  by_cases h : m < 2 ^ 52
  · exact .inl h
  · exact .inr ⟨m / 2 ^ 52 - 1, 2 ^ 52 + m % 2 ^ 52, by omega, by omega, by omega⟩

/-- Greater magnitude bits stand for more. -/
theorem units_lt {m n : Nat} (h : m < n) : units m < units n := by
  obtain hn | ⟨e', n', rfl, hlow', hhigh'⟩ := subnormal_or_binade n
  · rwa [units, if_pos (by omega), units, if_pos hn]
  rw [units_add hlow' (Nat.le_of_lt hhigh')]
  have hn' : n' ≤ n' * 2 ^ e' := Nat.le_mul_of_pos_right _ (Nat.two_pow_pos _)
  obtain hm | ⟨e, m', rfl, hlow, hhigh⟩ := subnormal_or_binade m
  · rw [units, if_pos hm]
    omega
  rw [units_add hlow (Nat.le_of_lt hhigh)]
  obtain hlt | rfl := Nat.lt_or_eq_of_le (show e ≤ e' by omega)
  · calc m' * 2 ^ e < 2 ^ 53 * 2 ^ e := Nat.mul_lt_mul_of_pos_right hhigh (Nat.two_pow_pos _)
      _ = 2 ^ 52 * 2 ^ (e + 1) := by rw [Nat.pow_succ' (n := e), ← Nat.mul_assoc]; rfl
      _ ≤ 2 ^ 52 * 2 ^ e' := Nat.mul_le_mul_left _ (Nat.pow_le_pow_right Nat.two_pos hlt)
      _ ≤ n' * 2 ^ e' := Nat.mul_le_mul_right _ hlow'
  · exact Nat.mul_lt_mul_of_pos_right (by omega) (Nat.two_pow_pos _)

theorem units_le {m n : Nat} (h : m ≤ n) : units m ≤ units n := by
  obtain hlt | rfl := Nat.lt_or_eq_of_le h
  · exact Nat.le_of_lt (units_lt hlt)
  · exact Nat.le_refl _

/-! ## the nearest number to an integer -/

theorem shiftRound_mul (n s : Nat) : shiftRound (n * 2 ^ s) s = n := by
  have hpos := Nat.two_pow_pos s
  rw [shiftRound, Nat.mul_mod_left, if_pos (by omega), Nat.mul_div_cancel _ hpos]

/-- The places of an integer and the 52 of a mantissa, the fewer of them split off the others. -/
theorem split_places (e : Nat) :
    (e ≤ 52 ∧ 2 ^ 52 = 2 ^ (52 - e) * 2 ^ e) ∨ (¬e ≤ 52 ∧ 2 ^ e = 2 ^ (e - 52) * 2 ^ 52) := by
  by_cases h : e ≤ 52
  · exact .inl ⟨h, by rw [← Nat.pow_add, Nat.sub_add_cancel h]⟩
  · exact .inr ⟨h, by rw [← Nat.pow_add, Nat.sub_add_cancel (by omega)]⟩

/-- An integer that is at most a number of last places of its binade rounds to at most it. -/
theorem integerMantissa_le {m n : Nat} (h : m * 2 ^ 52 ≤ n * 2 ^ m.log2) :
    integerMantissa m ≤ n := by
  obtain ⟨hlog, hpow⟩ | ⟨hlog, hpow⟩ := split_places m.log2
  · rw [hpow, ← Nat.mul_assoc] at h
    rw [integerMantissa, if_pos hlog]
    exact Nat.le_of_mul_le_mul_right h (Nat.two_pow_pos _)
  · rw [hpow, ← Nat.mul_assoc] at h
    rw [integerMantissa, if_neg hlog, ← shiftRound_mul n (m.log2 - 52)]
    exact shiftRound_le (Nat.le_of_mul_le_mul_right h (Nat.two_pow_pos _)) _

/-- An integer that is at least a number of last places of its binade rounds to at least it. -/
theorem le_integerMantissa {m n : Nat} (h : n * 2 ^ m.log2 ≤ m * 2 ^ 52) :
    n ≤ integerMantissa m := by
  obtain ⟨hlog, hpow⟩ | ⟨hlog, hpow⟩ := split_places m.log2
  · rw [hpow, ← Nat.mul_assoc] at h
    rw [integerMantissa, if_pos hlog]
    exact Nat.le_of_mul_le_mul_right h (Nat.two_pow_pos _)
  · rw [hpow, ← Nat.mul_assoc] at h
    rw [integerMantissa, if_neg hlog, ← shiftRound_mul n (m.log2 - 52)]
    exact shiftRound_le (Nat.le_of_mul_le_mul_right h (Nat.two_pow_pos _)) _

theorem scaled_le_iff (m n e p : Nat) :
    n * 2 ^ (e + p) ≤ m * (2 ^ 52 * 2 ^ p) ↔ n * 2 ^ e ≤ m * 2 ^ 52 := by
  rw [Nat.pow_add, ← Nat.mul_assoc, ← Nat.mul_assoc]
  exact Nat.mul_le_mul_right_iff (Nat.two_pow_pos _)

theorem le_scaled_iff (m n e p : Nat) :
    m * (2 ^ 52 * 2 ^ p) ≤ n * 2 ^ (e + p) ↔ m * 2 ^ 52 ≤ n * 2 ^ e := by
  rw [Nat.pow_add, ← Nat.mul_assoc, ← Nat.mul_assoc]
  exact Nat.mul_le_mul_right_iff (Nat.two_pow_pos _)

/-- The units of one. -/
def unitsOfOne : Nat := units (1022 * 2 ^ 52 + 2 ^ 52)

theorem unitsOfOne_eq : unitsOfOne = 2 ^ 52 * 2 ^ 1022 := units_add (Nat.le_refl _) (by omega)

theorem unitsOfOne_pos : 0 < unitsOfOne := 
  Nat.lt_of_le_of_lt (Nat.zero_le _) (units_lt (show 0 < 1022 * 2 ^ 52 + 2 ^ 52 by omega))

/-- A number, or the end of its binade, against an integer. -/
theorem units_binade_le_iff {m e n : Nat} (hlow : 2 ^ 52 ≤ n) (hhigh : n ≤ 2 ^ 53) :
    units ((e + 1022) * 2 ^ 52 + n) ≤ m * unitsOfOne ↔ n * 2 ^ e ≤ m * 2 ^ 52 := by
  rw [units_add hlow hhigh, unitsOfOne_eq]
  exact scaled_le_iff _ _ _ _

/-- An integer against a number, or the end of its binade. -/
theorem le_units_binade_iff {m e n : Nat} (hlow : 2 ^ 52 ≤ n) (hhigh : n ≤ 2 ^ 53) :
    m * unitsOfOne ≤ units ((e + 1022) * 2 ^ 52 + n) ↔ m * 2 ^ 52 ≤ n * 2 ^ e := by
  rw [units_add hlow hhigh, unitsOfOne_eq]
  exact le_scaled_iff _ _ _ _

/-- An integer that is at most a number rounds to at most that number. -/
theorem integerMagnitude_le_of_units {m k : Nat} (h : m * unitsOfOne ≤ units k) :
    integerMagnitude m ≤ k := by
  by_cases hm : m = 0
  · rw [integerMagnitude, if_pos hm]
    exact Nat.zero_le _
  obtain ⟨hlow, hhigh⟩ := integerMantissa_bounds hm
  rw [integerMagnitude, if_neg hm]
  refine Nat.le_of_not_lt fun hlt => ?_
  have hlt := Nat.lt_of_lt_of_le hlt (Nat.min_le_right _ _)
  by_cases hfirst : integerMantissa m = 2 ^ 52
  · -- the first number of the binade is no more than the integer, and `k` is less
    have hbinade : units ((m.log2 + 1022) * 2 ^ 52 + 2 ^ 52) ≤ m * unitsOfOne := by
      rw [units_binade_le_iff (Nat.le_refl _) (by omega), Nat.mul_comm m]
      exact Nat.mul_le_mul_left _ (Nat.log2_self_le hm)
    exact absurd (units_lt (hfirst ▸ hlt)) (Nat.not_lt.mpr (Nat.le_trans hbinade h))
  · have hk : units k ≤ units ((m.log2 + 1022) * 2 ^ 52 + (integerMantissa m - 1)) :=
      units_le (by omega)
    have hbinade := (le_units_binade_iff (by omega) (by omega)).mp (Nat.le_trans h hk)
    have := integerMantissa_le hbinade
    omega

/-- An integer that is at least a number rounds to at least that number. -/
theorem le_integerMagnitude_of_units {m k : Nat} (hk : k < infinityBits)
    (h : units k ≤ m * unitsOfOne) : k ≤ integerMagnitude m := by
  refine Nat.le_of_not_lt fun hlt => ?_
  by_cases hm : m = 0
  · rw [integerMagnitude, if_pos hm] at hlt
    have hpos := units_lt hlt
    rw [hm, Nat.zero_mul] at h
    omega
  obtain ⟨hlow, hhigh⟩ := integerMantissa_bounds hm
  rw [integerMagnitude, if_neg hm] at hlt
  have hlt : (m.log2 + 1022) * 2 ^ 52 + integerMantissa m < k := by omega
  by_cases hlast : integerMantissa m = 2 ^ 53
  · -- the end of the binade is more than the integer, and `k` is past it
    have hbinade : m * unitsOfOne ≤ units ((m.log2 + 1022) * 2 ^ 52 + 2 ^ 53) := by
      have hlog : m < 2 ^ (m.log2 + 1) := Nat.lt_log2_self
      rw [le_units_binade_iff (by omega) (Nat.le_refl _)]
      rw [Nat.pow_succ] at hlog
      omega
    exact absurd (units_lt (hlast ▸ hlt)) (Nat.not_lt.mpr (Nat.le_trans h hbinade))
  · have hk : units ((m.log2 + 1022) * 2 ^ 52 + (integerMantissa m + 1)) ≤ units k :=
      units_le (by omega)
    have hbinade := (units_binade_le_iff (by omega) (by omega)).mp (Nat.le_trans hk h)
    have := le_integerMantissa hbinade
    omega

/-! ## values -/

/-- The exact value of a number, its infinities below and above all others. -/
def value (x : Double) : WithBot (WithTop ℚ) :=
  if x.isInfinite then if x.negative then ⊥ else ⊤
  else ((x.signed * 2 ^ x.exponent : ℚ) : WithTop ℚ)

/-- The value of a finite number in units. -/
def signedUnits (x : Double) : Int := if x.negative then -units x.magnitude else units x.magnitude

theorem signedUnits_eq (x : Double) : x.signedUnits = x.signed * 2 ^ (x.exponent + 1074).toNat := by
  have hunits : units x.magnitude = x.mantissa * 2 ^ (x.exponent + 1074).toNat := by
    unfold units mantissa exponent
    have hlt : x.magnitude < 2 ^ 52 ↔ x.field = 0 := by
      unfold field
      omega
    by_cases hfield : x.field = 0
    · have hfraction : x.fraction = x.magnitude := Nat.mod_eq_of_lt (hlt.mpr hfield)
      rw [if_pos (hlt.mpr hfield), if_pos hfield, if_pos hfield, hfraction]
      exact (Nat.mul_one _).symm
    · have hexponent : ((x.field : Int) - 1075 + 1074).toNat = x.magnitude / 2 ^ 52 - 1 := by
        unfold field
        omega
      rw [if_neg (mt hlt.mp hfield), if_neg hfield, if_neg hfield, hexponent, fraction]
  unfold signedUnits signed
  split
  · rw [hunits, Int.neg_mul]
    push_cast
    rfl
  · rw [hunits]
    push_cast
    rfl

theorem exponent_ge (x : Double) : -1074 ≤ x.exponent := by
  unfold exponent
  split <;> omega

theorem cast_unitsOfOne : (unitsOfOne : ℚ) = 2 ^ (1074 : ℤ) := by
  rw [unitsOfOne_eq, Nat.cast_mul, Nat.cast_pow, Nat.cast_pow, Nat.cast_ofNat, ← zpow_natCast,
    ← zpow_natCast, ← zpow_add₀ (by norm_num)]
  rfl

/-- A finite number in units is its value, scaled. -/
theorem cast_signedUnits (x : Double) :
    (x.signedUnits : ℚ) = x.signed * 2 ^ x.exponent * unitsOfOne := by
  have hle := exponent_ge x
  have hpower : (2 : ℚ) ^ (x.exponent + 1074).toNat = 2 ^ x.exponent * 2 ^ (1074 : ℤ) := by
    rw [← zpow_natCast, Int.toNat_of_nonneg (by omega), zpow_add₀ (by norm_num)]
  rw [signedUnits_eq, cast_unitsOfOne, mul_assoc, ← hpower]
  push_cast
  rfl

theorem cast_unitsOfOne_pos : (0 : ℚ) < unitsOfOne := by
  rw [cast_unitsOfOne]
  positivity

theorem value_of_finite {x : Double} (h : x.isInfinite = false) :
    x.value = ((x.signed * 2 ^ x.exponent : ℚ) : WithTop ℚ) := by
  rw [value, h, if_neg Bool.false_ne_true]

/-- An integer as a value. -/
def ofInteger (n : Int) : WithBot (WithTop ℚ) := ((n : ℚ) : WithTop ℚ)

theorem ofInteger_le_value {x : Double} (h : x.isInfinite = false) (n : Int) :
    ofInteger n ≤ x.value ↔ n * unitsOfOne ≤ x.signedUnits := by
  rw [value_of_finite h, ofInteger, WithBot.coe_le_coe, WithTop.coe_le_coe,
    ← mul_le_mul_iff_left₀ cast_unitsOfOne_pos, ← cast_signedUnits]
  exact_mod_cast Iff.rfl

theorem value_le_ofInteger {x : Double} (h : x.isInfinite = false) (n : Int) :
    x.value ≤ ofInteger n ↔ x.signedUnits ≤ n * unitsOfOne := by
  rw [value_of_finite h, ofInteger, WithBot.coe_le_coe, WithTop.coe_le_coe,
    ← mul_le_mul_iff_left₀ cast_unitsOfOne_pos, ← cast_signedUnits]
  exact_mod_cast Iff.rfl

/-! ## order -/

theorem magnitude_lt_of_finite {x : Double} (hnan : x.isNaN = false) (hinf : x.isInfinite = false) :
    x.magnitude < infinityBits := by
  have hlt : x.magnitude < 2 ^ 63 := Nat.mod_lt _ (Nat.two_pow_pos _)
  have hfield : x.field ≠ 2047 := by
    intro hfield
    simp only [isNaN, isInfinite, hfield, beq_self_eq_true, Bool.true_and, bne_eq_false_iff_eq,
      beq_eq_false_iff_ne] at hnan hinf
    exact hinf hnan
  unfold field at hfield
  unfold infinityBits
  omega

theorem magnitude_of_infinite {x : Double} (h : x.isInfinite = true) :
    x.magnitude = infinityBits := by
  simp only [isInfinite, field, fraction, infinityBits, Bool.and_eq_true, beq_iff_eq] at *
  omega

/-- Negative zero. -/
def negativeZero : Double := ofMagnitude true 0

theorem integerMagnitude_le_infinityBits (m : Nat) : integerMagnitude m ≤ infinityBits := by
  unfold integerMagnitude
  split
  · exact Nat.zero_le _
  · exact Nat.min_le_left _ _

theorem rank_ofInt (n : Int) :
    (ofInt n).rank =
      if n < 0 then -1 - (integerMagnitude n.natAbs : Int) else integerMagnitude n.natAbs := by
  rw [ofInt_eq, rank_ofMagnitude (integerMagnitude_lt _)]
  split <;> simp_all

/-- Bits that stand for nothing are those of zero. -/
theorem units_eq_zero {k : Nat} (h : units k = 0) : k = 0 := by
  refine Nat.eq_zero_of_not_pos fun hpos => ?_
  have := units_lt hpos
  omega

/-- An integer of a sign, in units. -/
theorem natAbs_mul_unitsOfOne (n : Int) :
    n * unitsOfOne = if n < 0 then -((n.natAbs * unitsOfOne : Nat) : Int)
      else (n.natAbs * unitsOfOne : Nat) := by
  rw [Int.natCast_mul]
  split
  · rw [← Int.neg_mul, Int.ofNat_natAbs_of_nonpos (by omega), Int.neg_neg]
  · rw [Int.natAbs_of_nonneg (by omega)]

/-- A finite number whose value is at most an integer comes no later than what the integer rounds
to. -/
theorem rank_le_of_signedUnits_le {x : Double} (hx : x.magnitude < infinityBits) {n : Int}
    (h : x.signedUnits ≤ n * unitsOfOne) : x.rank ≤ (ofInt n).rank := by
  rw [natAbs_mul_unitsOfOne, signedUnits] at h
  rw [rank_ofInt, rank]
  by_cases hneg : x.negative = true <;> by_cases hn : n < 0 <;>
    simp only [hneg, hn, if_true, if_false, Bool.false_eq_true] at h ⊢
  · have := integerMagnitude_le_of_units (m := n.natAbs) (k := x.magnitude) (by omega)
    omega
  · omega
  · have hpos : 0 < n.natAbs * unitsOfOne := Nat.mul_pos (by omega) unitsOfOne_pos
    omega
  · have := le_integerMagnitude_of_units (m := n.natAbs) hx (by omega)
    omega

theorem eq_negativeZero {x : Double} (hneg : x.negative = true) (h : x.magnitude = 0) :
    x = negativeZero := by
  refine rank_inj ?_
  rw [negativeZero, rank_ofMagnitude (by decide), rank, hneg, h]

/-- A finite number whose value is at least an integer comes no earlier than what the integer rounds
to, but for negative zero. -/
theorem le_rank_of_le_signedUnits {x : Double} (hx : x.magnitude < infinityBits) {n : Int}
    (h : n * unitsOfOne ≤ x.signedUnits) (hzero : ¬(n = 0 ∧ x = negativeZero)) :
    (ofInt n).rank ≤ x.rank := by
  rw [natAbs_mul_unitsOfOne, signedUnits] at h
  rw [rank_ofInt, rank]
  by_cases hneg : x.negative = true <;> by_cases hn : n < 0 <;>
    simp only [hneg, hn, if_true, if_false, Bool.false_eq_true] at h ⊢
  · have := le_integerMagnitude_of_units (m := n.natAbs) hx (by omega)
    omega
  · -- both are zero
    have hn0 : n.natAbs * unitsOfOne = 0 := by omega
    have hunits := units_eq_zero (k := x.magnitude) (by omega)
    refine absurd ⟨?_, eq_negativeZero hneg hunits⟩ hzero
    rcases Nat.mul_eq_zero.mp hn0 with hn0 | hone
    · omega
    · exact absurd hone (Nat.ne_of_gt unitsOfOne_pos)
  · omega
  · have := integerMagnitude_le_of_units (m := n.natAbs) (k := x.magnitude) (by omega)
    omega

/-- Bits that stand for an integer are what it rounds to. -/
theorem integerMagnitude_eq {m k : Nat} (hk : k < infinityBits) (h : units k = m * unitsOfOne) :
    integerMagnitude m = k :=
  Nat.le_antisymm (integerMagnitude_le_of_units (Nat.le_of_eq h.symm))
    (le_integerMagnitude_of_units hk (Nat.le_of_eq h))

/-- The integers of at most 53 bits, and the next one, have bits that stand for them. -/
theorem exists_units_eq {m : Nat} (h : m ≤ 2 ^ 53) :
    ∃ k, k < infinityBits ∧ units k = m * unitsOfOne := by
  by_cases hm : m = 0
  · exact ⟨0, by decide, by rw [hm, Nat.zero_mul]; decide⟩
  have hle : 2 ^ min 52 m.log2 ≤ m :=
    Nat.le_trans (Nat.pow_le_pow_right Nat.two_pos (Nat.min_le_right _ _)) (Nat.log2_self_le hm)
  have hpow : 2 ^ (52 - min 52 m.log2) * 2 ^ min 52 m.log2 = 2 ^ 52 := by
    rw [← Nat.pow_add, Nat.sub_add_cancel (Nat.min_le_left _ _)]
  have hlow : 2 ^ 52 ≤ m * 2 ^ (52 - min 52 m.log2) := by
    rw [← hpow, Nat.mul_comm]
    exact Nat.mul_le_mul_right _ hle
  have hhigh : m * 2 ^ (52 - min 52 m.log2) ≤ 2 ^ 53 := by
    by_cases hlog : m.log2 ≤ 52
    · have hlt : m < 2 ^ (m.log2 + 1) := Nat.lt_log2_self
      have hpow : 2 ^ (m.log2 + 1) * 2 ^ (52 - m.log2) = 2 ^ 53 := by
        rw [← Nat.pow_add]
        congr 1
        omega
      rw [Nat.min_eq_right hlog, ← hpow]
      exact Nat.mul_le_mul_right _ (Nat.le_of_lt hlt)
    · rw [Nat.min_eq_left (by omega), Nat.sub_self, Nat.pow_zero, Nat.mul_one]
      exact h
  have hunits : m * 2 ^ (52 - min 52 m.log2) * 2 ^ min 52 m.log2 = m * 2 ^ 52 := by
    rw [Nat.mul_assoc, hpow]
  refine ⟨(min 52 m.log2 + 1022) * 2 ^ 52 + m * 2 ^ (52 - min 52 m.log2), ?_, ?_⟩
  · unfold infinityBits
    omega
  · exact Nat.le_antisymm ((units_binade_le_iff hlow hhigh).mpr (Nat.le_of_eq hunits))
      ((le_units_binade_iff hlow hhigh).mpr (Nat.le_of_eq hunits.symm))

/-- The integers of at most 53 bits, and the next one, are floating-point numbers. -/
theorem value_ofInt {n : Int} (h : n.natAbs ≤ 2 ^ 53) : (ofInt n).value = ofInteger n := by
  obtain ⟨k, hk, hunits⟩ := exists_units_eq h
  have hround := integerMagnitude_eq hk hunits
  have hbits : k < 2 ^ 63 := hround ▸ integerMagnitude_lt _
  have hofInt : ofInt n = ofMagnitude (n < 0) k := by rw [ofInt_eq, hround]
  have hmagnitude : (ofInt n).magnitude = k := by rw [hofInt, magnitude_ofMagnitude hbits]
  have hfinite : (ofInt n).isInfinite = false := by
    by_contra hinf
    have := magnitude_of_infinite (Bool.eq_true_of_not_eq_false hinf)
    omega
  have hsigned : (ofInt n).signedUnits = n * unitsOfOne := by
    rw [signedUnits, hmagnitude, hofInt, negative_ofMagnitude hbits, hunits, natAbs_mul_unitsOfOne]
    simp only [decide_eq_true_eq]
  exact le_antisymm ((value_le_ofInteger hfinite n).mpr (Int.le_of_eq hsigned))
    ((ofInteger_le_value hfinite n).mpr (Int.le_of_eq hsigned.symm))

theorem rank_le_of_infinite {x : Double} (h : x.isInfinite = true) (hneg : x.negative = true)
    (n : Int) : x.rank ≤ (ofInt n).rank := by
  have := integerMagnitude_le_infinityBits n.natAbs
  rw [rank_ofInt, rank, if_pos hneg, magnitude_of_infinite h]
  split <;> omega

theorem le_rank_of_infinite {x : Double} (h : x.isInfinite = true) (hneg : x.negative = false)
    (n : Int) : (ofInt n).rank ≤ x.rank := by
  have := integerMagnitude_le_infinityBits n.natAbs
  rw [rank_ofInt, rank, hneg, if_neg Bool.false_ne_true, magnitude_of_infinite h]
  split <;> omega

/-- A number whose value is at most an integer comes no later than what the integer rounds to. -/
theorem rank_le_of_value_le {x : Double} (hx : x.isNaN = false) {n : Int}
    (h : x.value ≤ ofInteger n) : x.rank ≤ (ofInt n).rank := by
  cases hinf : x.isInfinite with
  | false =>
    exact rank_le_of_signedUnits_le (magnitude_lt_of_finite hx hinf)
      ((value_le_ofInteger hinf n).mp h)
  | true =>
    refine rank_le_of_infinite hinf ?_ n
    by_contra hneg
    rw [value, if_pos hinf, if_neg hneg, ofInteger] at h
    exact absurd (top_le_iff.mp h) (by simp [← WithBot.coe_top])

/-- A number whose value is at least an integer comes no earlier than what the integer rounds to,
but for negative zero. -/
theorem le_rank_of_le_value {x : Double} (hx : x.isNaN = false) {n : Int}
    (h : ofInteger n ≤ x.value) (hzero : ¬(n = 0 ∧ x = negativeZero)) :
    (ofInt n).rank ≤ x.rank := by
  cases hinf : x.isInfinite with
  | false =>
    exact le_rank_of_le_signedUnits (magnitude_lt_of_finite hx hinf)
      ((ofInteger_le_value hinf n).mp h) hzero
  | true =>
    refine le_rank_of_infinite hinf ?_ n
    by_contra hneg
    rw [value, if_pos hinf, if_pos (Bool.eq_true_of_not_eq_false hneg), ofInteger] at h
    exact absurd h (by simp)

end Double

/-! ## integers among floating-point numbers -/

namespace Term

/-- The order of an integer and a number by value, the integer first of equal values. -/
def orderByValue (n : Int64) (x : Double) : Ordering :=
  (cmp (Double.ofInteger n.toInt) x.value).then .lt

/-- Rounding the integer to a floating-point number does not hide which of the two is less. -/
structure KeptApart (n : Int64) (x : Double) : Prop where
  /-- Zero is not compared with the other zero. -/
  notZero : ¬(n = 0 ∧ x = Double.negativeZero)
  /-- The integer does not round down to the number. -/
  notRounded : ¬(x = nearest n ∧ x.value < Double.ofInteger n.toInt)

theorem orderByValue_eq_gt {n : Int64} {x : Double} :
    orderByValue n x = .gt ↔ x.value < Double.ofInteger n.toInt := by
  rw [← cmp_eq_gt_iff, orderByValue]
  cases cmp (Double.ofInteger n.toInt) x.value <;> decide

theorem compareIntFloat_eq_gt {n : Int64} {x : Double} :
    compareIntFloat n x = .gt ↔ x.rank < (nearest n).rank := by
  rw [← compare_gt_iff_gt, compareIntFloat, Double.compare]
  cases Ord.compare (nearest n).rank x.rank <;> decide

theorem then_lt_eq_iff {p q : Ordering} :
    p.then .lt = q.then .lt ↔ (p.then .lt = .gt ↔ q.then .lt = .gt) := by
  cases p <;> cases q <;> decide

/-- An integer and a number are compared by value exactly when rounding keeps them apart. -/
theorem compareIntFloat_eq_iff (n : Int64) {x : Double} (hx : x.isNaN = false) :
    compareIntFloat n x = orderByValue n x ↔ KeptApart n x := by
  have hiff : compareIntFloat n x = orderByValue n x ↔
      (x.rank < (nearest n).rank ↔ x.value < Double.ofInteger n.toInt) := by
    rw [← compareIntFloat_eq_gt, ← orderByValue_eq_gt]
    exact then_lt_eq_iff
  rw [hiff]
  constructor
  · intro h
    constructor
    · rintro ⟨rfl, rfl⟩
      exact absurd (h.mp (by decide)) (by decide +kernel)
    · rintro ⟨rfl, hlt⟩
      exact absurd (h.mpr hlt) (Int.lt_irrefl _)
  · intro h
    constructor
    · intro hlt
      by_contra hle
      have hzero : ¬(n.toInt = 0 ∧ x = Double.negativeZero) := fun hzero =>
        h.notZero ⟨Int64.toInt_inj.mp hzero.1, hzero.2⟩
      have hrank := Double.le_rank_of_le_value hx (not_lt.mp hle) hzero
      exact Int.not_le.mpr hlt hrank
    · intro hlt
      have hle := Double.rank_le_of_value_le hx hlt.le
      refine lt_of_le_of_ne hle fun heq => ?_
      exact h.notRounded ⟨Double.rank_inj heq, hlt⟩

/-- Integers of at most 53 bits are kept apart from all numbers but negative zero from zero. -/
theorem keptApart_iff {n : Int64} (h : n.toInt.natAbs ≤ 2 ^ 53) (x : Double) :
    KeptApart n x ↔ ¬(n = 0 ∧ x = Double.negativeZero) := by
  refine ⟨KeptApart.notZero, fun hzero => ⟨hzero, ?_⟩⟩
  rintro ⟨rfl, hlt⟩
  rw [nearest, Double.value_ofInt h] at hlt
  exact lt_irrefl _ hlt

/-- An integer and a number that is not NaN compare by value, the integer first of equal values,
exactly when rounding the integer keeps them apart: always for integers of at most 53 bits, but for
the two zeros. -/
theorem compare_int_float_iff (n : Int64) (x : Double) (hx : x.isNaN = false) :
    (compare (.int n) (.float x) = orderByValue n x ↔ KeptApart n x) ∧
    (compare (.float x) (.int n) = (orderByValue n x).swap ↔ KeptApart n x) ∧
    (n.toInt.natAbs ≤ 2 ^ 53 → (KeptApart n x ↔ ¬(n = 0 ∧ x = Double.negativeZero))) := by
  have hiff := compareIntFloat_eq_iff n hx
  refine ⟨hiff, ?_, fun h => keptApart_iff h x⟩
  rw [← hiff]
  exact Ordering.swap_inj

/-- The integer 2 is before the number 2. -/
theorem compare_two_two :
    compare (.int 2) (.float ⟨0x4000000000000000⟩) = .lt ∧
    compare (.float ⟨0x4000000000000000⟩) (.int 2) = .gt := by
  have h := compare_int_float_iff 2 ⟨0x4000000000000000⟩ (by decide)
  have hkept : KeptApart 2 ⟨0x4000000000000000⟩ := (h.2.2 (by decide)).mpr (by decide)
  have hvalue : orderByValue 2 ⟨0x4000000000000000⟩ = .lt := by decide +kernel
  exact ⟨(h.1.mpr hkept).trans hvalue, (h.2.1.mpr hkept).trans (congrArg Ordering.swap hvalue)⟩

/-- The integer `2 ^ 53 + 1` comes before the number `2 ^ 53`, and negative zero before the integer
zero. -/
theorem compare_rounded :
    (compare (.int 9007199254740993) (.float ⟨0x4340000000000000⟩) = .lt ∧
      orderByValue 9007199254740993 ⟨0x4340000000000000⟩ = .gt) ∧
    (compare (.int 0) (.float Double.negativeZero) = .gt ∧
      orderByValue 0 Double.negativeZero = .lt) := by
  decide +kernel

end Term

end Termwise
