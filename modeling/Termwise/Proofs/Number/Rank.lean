import Termwise.Number.Double

/-!
# Termwise.Proofs.Number.Rank

The total order of floating-point numbers and the rounding of integers:

* `rank_inj` — numbers of one rank have the same bits;
* `rank_ofInt_le` — rounding integers to the nearest number keeps their order.
-/

namespace Termwise.Double

/-! ## parts -/

/-- The bits are the sign bit and the magnitude. -/
theorem toNat_bits (x : Double) :
    x.bits.toNat = (if x.negative then 2 ^ 63 else 0) + x.magnitude := by
  have hlt : x.bits.toNat < 2 ^ 64 := x.bits.toNat_lt
  have hneg : x.negative = decide (x.bits.toNat / 2 ^ 63 % 2 = 1) := Nat.testBit_eq_decide_div_mod_eq
  rw [magnitude, hneg]
  by_cases h : x.bits.toNat / 2 ^ 63 % 2 = 1
  · simp only [h, decide_true, if_true]
    omega
  · simp only [h, decide_false, Bool.false_eq_true, if_false]
    omega

/-- Numbers of one rank have the same bits. -/
theorem rank_inj {x y : Double} (h : x.rank = y.rank) : x = y := by
  have hparts : x.negative = y.negative ∧ x.magnitude = y.magnitude := by
    unfold rank at h
    split at h <;> split at h <;> simp_all <;> omega
  have hbits : x.bits.toNat = y.bits.toNat := by
    rw [toNat_bits, toNat_bits, hparts.1, hparts.2]
  cases x
  cases y
  exact congrArg mk (UInt64.toNat_inj.mp hbits)

theorem bits_ofMagnitude {negative : Bool} {m : Nat} (h : m < 2 ^ 63) :
    (ofMagnitude negative m).bits.toNat = (if negative then 2 ^ 63 else 0) + m := by
  change ((if negative then 2 ^ 63 else 0) + m) % 2 ^ 64 = _
  refine Nat.mod_eq_of_lt ?_
  split <;> omega

theorem negative_ofMagnitude {negative : Bool} {m : Nat} (h : m < 2 ^ 63) :
    (ofMagnitude negative m).negative = negative := by
  rw [Double.negative, Nat.testBit_eq_decide_div_mod_eq, bits_ofMagnitude h]
  cases negative <;> simp <;> omega

theorem magnitude_ofMagnitude {negative : Bool} {m : Nat} (h : m < 2 ^ 63) :
    (ofMagnitude negative m).magnitude = m := by
  rw [magnitude, bits_ofMagnitude h]
  cases negative <;> simp <;> omega

theorem rank_ofMagnitude {negative : Bool} {m : Nat} (h : m < 2 ^ 63) :
    (ofMagnitude negative m).rank = if negative then -1 - (m : Int) else m := by
  rw [rank, negative_ofMagnitude h, magnitude_ofMagnitude h]

/-! ## rounding -/

theorem le_shiftRound (m s : Nat) : m / 2 ^ s ≤ shiftRound m s := by
  unfold shiftRound
  dsimp only
  split
  · omega
  · split <;> omega

theorem shiftRound_le_succ (m s : Nat) : shiftRound m s ≤ m / 2 ^ s + 1 := by
  unfold shiftRound
  dsimp only
  split
  · omega
  · split <;> omega

/-- Rounding a quotient keeps the order. -/
theorem shiftRound_le {m n : Nat} (h : m ≤ n) (s : Nat) : shiftRound m s ≤ shiftRound n s := by
  have hq : m / 2 ^ s ≤ n / 2 ^ s := Nat.div_le_div_right h
  by_cases heq : m / 2 ^ s = n / 2 ^ s
  · -- equal quotients, so the remainders are in order
    have hm := Nat.div_add_mod m (2 ^ s)
    have hn := Nat.div_add_mod n (2 ^ s)
    rw [heq] at hm
    have hr : m % 2 ^ s ≤ n % 2 ^ s := by omega
    unfold shiftRound
    dsimp only
    rw [heq]
    split <;> split <;> (try split) <;> (try split) <;> omega
  · calc shiftRound m s ≤ m / 2 ^ s + 1 := shiftRound_le_succ m s
      _ ≤ n / 2 ^ s := by omega
      _ ≤ shiftRound n s := le_shiftRound n s

/-- The mantissa that a positive integer rounds to, the hidden bit counted; it may round up to the
next power of two. -/
def integerMantissa (m : Nat) : Nat :=
  if m.log2 ≤ 52 then m * 2 ^ (52 - m.log2) else shiftRound m (m.log2 - 52)

/-- The magnitude bits that an integer rounds to. -/
def integerMagnitude (m : Nat) : Nat :=
  if m = 0 then 0 else min infinityBits ((m.log2 + 1022) * 2 ^ 52 + integerMantissa m)

theorem ofInt_eq (n : Int) : ofInt n = ofMagnitude (n < 0) (integerMagnitude n.natAbs) := by
  unfold ofInt round integerMagnitude
  split
  · rfl
  · have hplace : max (-1074) (0 + (n.natAbs.log2 : Int) - 52) = n.natAbs.log2 - 52 := by omega
    rw [hplace, integerMantissa]
    dsimp only
    have hexponent : ((n.natAbs.log2 : Int) - 52 + 1074).toNat = n.natAbs.log2 + 1022 := by omega
    rw [hexponent]
    by_cases h : n.natAbs.log2 ≤ 52
    · have hshift : (0 - ((n.natAbs.log2 : Int) - 52)).toNat = 52 - n.natAbs.log2 := by omega
      rw [if_pos h, if_pos (by omega), hshift]
    · have hshift : ((n.natAbs.log2 : Int) - 52 - 0).toNat = n.natAbs.log2 - 52 := by omega
      rw [if_neg h, if_neg (by omega), hshift]

theorem integerMantissa_bounds {m : Nat} (h : m ≠ 0) :
    2 ^ 52 ≤ integerMantissa m ∧ integerMantissa m ≤ 2 ^ 53 := by
  have hlow : 2 ^ m.log2 ≤ m := Nat.log2_self_le h
  have hhigh : m < 2 ^ (m.log2 + 1) := Nat.lt_log2_self
  unfold integerMantissa
  split
  next hle =>
    have hlowPow : 2 ^ m.log2 * 2 ^ (52 - m.log2) = 2 ^ 52 := by
      rw [← Nat.pow_add, Nat.add_sub_cancel' hle]
    have hhighPow : 2 ^ (m.log2 + 1) * 2 ^ (52 - m.log2) = 2 ^ 53 := by
      rw [← Nat.pow_add]
      congr 1
      omega
    constructor
    · rw [← hlowPow]
      exact Nat.mul_le_mul_right _ hlow
    · rw [← hhighPow]
      exact Nat.mul_le_mul_right _ (Nat.le_of_lt hhigh)
  next hgt =>
    have hlowPow : 2 ^ 52 * 2 ^ (m.log2 - 52) = 2 ^ m.log2 := by
      rw [← Nat.pow_add]
      congr 1
      omega
    have hhighPow : 2 ^ 53 * 2 ^ (m.log2 - 52) = 2 ^ (m.log2 + 1) := by
      rw [← Nat.pow_add]
      congr 1
      omega
    have hqlow : 2 ^ 52 ≤ m / 2 ^ (m.log2 - 52) :=
      (Nat.le_div_iff_mul_le (Nat.two_pow_pos _)).mpr (hlowPow ▸ hlow)
    have hqhigh : m / 2 ^ (m.log2 - 52) < 2 ^ 53 :=
      (Nat.div_lt_iff_lt_mul (Nat.two_pow_pos _)).mpr (hhighPow ▸ hhigh)
    have hround := shiftRound_le_succ m (m.log2 - 52)
    have hround' := le_shiftRound m (m.log2 - 52)
    omega

theorem integerMagnitude_le {m n : Nat} (h : m ≤ n) : integerMagnitude m ≤ integerMagnitude n := by
  unfold integerMagnitude
  by_cases hm : m = 0
  · rw [if_pos hm]
    exact Nat.zero_le _
  · have hn : n ≠ 0 := by omega
    rw [if_neg hm, if_neg hn]
    have hm' := integerMantissa_bounds hm
    have hn' := integerMantissa_bounds hn
    have hlog : m.log2 ≤ n.log2 := by
      rw [Nat.le_log2 hn]
      exact Nat.le_trans (Nat.log2_self_le hm) h
    refine Nat.le_min.mpr ⟨Nat.min_le_left _ _, Nat.le_trans (Nat.min_le_right _ _) ?_⟩
    by_cases heq : m.log2 = n.log2
    · have hmantissa : integerMantissa m ≤ integerMantissa n := by
        unfold integerMantissa
        rw [heq]
        split
        · exact Nat.mul_le_mul_right _ h
        · exact shiftRound_le h _
      rw [heq]
      omega
    · omega

theorem integerMagnitude_lt (m : Nat) : integerMagnitude m < 2 ^ 63 := by
  unfold integerMagnitude
  split
  · decide
  · exact Nat.lt_of_le_of_lt (Nat.min_le_left _ _) (by decide)

/-- Rounding integers to the nearest number keeps their order. -/
theorem rank_ofInt_le {m n : Int} (h : m ≤ n) : (ofInt m).rank ≤ (ofInt n).rank := by
  rw [ofInt_eq, ofInt_eq, rank_ofMagnitude (integerMagnitude_lt _),
    rank_ofMagnitude (integerMagnitude_lt _)]
  by_cases hm : m < 0
  · by_cases hn : n < 0
    · have := integerMagnitude_le (show n.natAbs ≤ m.natAbs by omega)
      simp only [hm, hn, decide_true, if_true]
      omega
    · simp only [hm, hn, decide_true, decide_false, if_true, Bool.false_eq_true, if_false]
      omega
  · have hn : ¬ n < 0 := by omega
    have := integerMagnitude_le (show m.natAbs ≤ n.natAbs by omega)
    simp only [hm, hn, decide_false, Bool.false_eq_true, if_false]
    omega

end Termwise.Double
