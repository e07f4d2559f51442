import ExactLisp.Proofs.Binary64.Shortest

/-!
# The range of floats

The largest float has an odd significand. So a value half a place past it is rounded up, and
from there on everything is rounded to infinity. Whether a fraction is rounded to a finite
float is therefore a matter of its value: it has to be less than `overflow`
(`isFinite_ofDecimal_iff`).
-/

namespace ExactLisp.Binary64

/-! ## Rounding up from an odd number -/

/-- A fraction is rounded up from an odd number as soon as it is half past it. -/
theorem roundHalfEven_le_iff {n d m : Nat} (hd : 0 < d) (hm : m % 2 = 1) :
    roundHalfEven n d ≤ m ↔ 2 * n < (2 * m + 1) * d := by
  have hn : d * (n / d) + n % d = n := Nat.div_add_mod n d
  have hr : n % d < d := Nat.mod_lt n hd
  unfold roundHalfEven
  dsimp only
  generalize n / d = q at *
  generalize n % d = r at *
  rcases Nat.lt_trichotomy q m with hq | rfl | hq
  · have hle : (q + 1) * d ≤ m * d := Nat.mul_le_mul_right d hq
    refine iff_of_true (by split <;> omega) ?_
    nlinarith
  · by_cases hlow : 2 * r < d
    · rw [if_neg (by omega)]
      refine iff_of_true le_rfl ?_
      nlinarith
    · rw [if_pos (by omega)]
      refine iff_of_false (by omega) ?_
      nlinarith
  · have hle : (m + 1) * d ≤ q * d := Nat.mul_le_mul_right d hq
    refine iff_of_false (by split <;> omega) ?_
    nlinarith

/-- The same for a value that is given in places of a float. -/
theorem roundHalfEven_places_le_iff {num den m : Nat} (hd : 0 < den) (hm : m % 2 = 1) (q : Int) :
    roundHalfEven (timesPowerOfTwo num den (-q)).1 (timesPowerOfTwo num den (-q)).2 ≤ m ↔
      (num : ℚ) / den < (m + 1 / 2) * 2 ^ q := by
  have hunit : (0 : ℚ) < 2 ^ q := by positivity
  have hplaces : ratio (timesPowerOfTwo num den (-q)) = (num : ℚ) / den / 2 ^ q := by
    rw [ratio_timesPowerOfTwo, zpow_neg, ← div_eq_mul_inv]
  have hpos := timesPowerOfTwo_den_pos hd num (-q)
  generalize timesPowerOfTwo num den (-q) = p at *
  have hpos' : (0 : ℚ) < p.2 := by exact_mod_cast hpos
  rw [← div_lt_iff₀ hunit, ← hplaces, roundHalfEven_le_iff hpos hm, ← Nat.cast_lt (α := ℚ), ratio,
    div_lt_iff₀ hpos']
  push_cast
  constructor <;> intro h <;> linarith

/-! ## Overflow -/

/-- The least value that is rounded to infinity. -/
def overflow : ℚ := (2 ^ 54 - 1) * 2 ^ 970

theorem pow_lt_overflow : (2 : ℚ) ^ 1023 < overflow := by
  have hpow : (2 : ℚ) ^ 1023 = 2 ^ 53 * 2 ^ 970 := pow_add 2 53 970
  rw [hpow, overflow]
  exact mul_lt_mul_of_pos_right (by norm_num) (by positivity)

theorem overflow_le_pow : overflow ≤ (2 : ℚ) ^ 1024 := by
  have hpow : (2 : ℚ) ^ 1024 = 2 ^ 54 * 2 ^ 970 := pow_add 2 54 970
  rw [hpow, overflow]
  exact mul_le_mul_of_nonneg_right (by norm_num) (by positivity)

theorem zpow_add_natCast (a : Int) (n : Nat) : (2 : ℚ) ^ (a + n) = 2 ^ a * 2 ^ n := by
  rw [zpow_add₀ two_ne_zero, zpow_natCast]

theorem floorLog2_lt {num den n : Nat} (hnum : 0 < num) (hd : 0 < den)
    (h : (num : ℚ) / den < 2 ^ n) : floorLog2 num den < n := by
  have hlow := (floorLog2_bounds hnum hd).1
  rw [← zpow_natCast] at h
  exact (zpow_lt_zpow_iff_right₀ one_lt_two).mp (hlow.trans_lt h)

theorem le_floorLog2 {num den n : Nat} (hnum : 0 < num) (hd : 0 < den)
    (h : (2 : ℚ) ^ n ≤ num / den) : (n : Int) ≤ floorLog2 num den := by
  have hhigh := (floorLog2_bounds hnum hd).2
  rw [← zpow_natCast] at h
  exact le_of_zpow_lt (h.trans_lt hhigh)

theorem num_pos_of_pow_le {num den n : Nat} (h : (2 : ℚ) ^ n ≤ num / den) : 0 < num := by
  by_contra hzero
  rw [Nat.eq_zero_of_not_pos hzero, Nat.cast_zero, zero_div] at h
  exact absurd h (not_le.mpr (by positivity))

/-- Below the binade of the largest float nothing is rounded to infinity. -/
theorem nearestBits_lt_of_lt_pow {num den : Nat} (hd : 0 < den)
    (h : (num : ℚ) / den < 2 ^ 1023) : nearestBits num den < infinityBits := by
  have h52 : twoPow 52 = 2 ^ 52 := rfl
  rcases Nat.eq_zero_or_pos num with rfl | hnum
  · exact Nat.mul_pos (by omega) (twoPow_pos 52)
  have hhigh := (floorLog2_bounds hnum hd).2
  have hk := floorLog2_lt hnum hd h
  obtain ⟨q, hq⟩ : ∃ q, max leastExponent (floorLog2 num den - 52) = q := ⟨_, rfl⟩
  have hround : roundHalfEven (timesPowerOfTwo num den (-q)).1
      (timesPowerOfTwo num den (-q)).2 ≤ 2 ^ 53 + 1 := by
    have hunit : (0 : ℚ) < 2 ^ q := by positivity
    have hbinade : (2 : ℚ) ^ (floorLog2 num den + 1) ≤ 2 ^ q * 2 ^ 53 := by
      rw [← zpow_add_natCast]
      exact zpow_le_zpow_right₀ (by norm_num) (by push_cast; omega)
    rw [roundHalfEven_places_le_iff hd (by omega)]
    push_cast
    nlinarith
  have hsteps : (q - leastExponent).toNat ≤ 2044 := by
    rw [leastExponent] at hq ⊢
    omega
  unfold nearestBits
  rw [if_neg (by omega)]
  dsimp only
  rw [hq, infinityBits, h52]
  omega

/-- Past the binade of the largest float everything is rounded to infinity. -/
theorem not_nearestBits_lt_of_pow_le {num den : Nat} (hd : 0 < den)
    (h : (2 : ℚ) ^ 1024 ≤ num / den) : ¬ nearestBits num den < infinityBits := by
  have h52 : twoPow 52 = 2 ^ 52 := rfl
  have hnum := num_pos_of_pow_le h
  have hlow := (floorLog2_bounds hnum hd).1
  have hk := le_floorLog2 hnum hd h
  obtain ⟨q, hq⟩ : ∃ q, floorLog2 num den = q + 52 := ⟨_, (Int.sub_add_cancel _ 52).symm⟩
  have hround : ¬ roundHalfEven (timesPowerOfTwo num den (-q)).1
      (timesPowerOfTwo num den (-q)).2 ≤ 2 ^ 52 - 1 := by
    have hunit : (0 : ℚ) < 2 ^ q := by positivity
    have hbinade : (2 : ℚ) ^ (q + 52) = 2 ^ q * 2 ^ 52 := zpow_add_natCast q 52
    have hhalf : ((2 ^ 52 - 1 : Nat) : ℚ) + 1 / 2 ≤ 2 ^ 52 := by norm_num
    rw [hq, hbinade] at hlow
    rw [roundHalfEven_places_le_iff hd (by omega), not_lt]
    refine le_trans ?_ hlow
    rw [mul_comm]
    exact mul_le_mul_of_nonneg_left hhalf hunit.le
  have hexp : max leastExponent (floorLog2 num den - 52) = q := by
    rw [leastExponent]
    omega
  have hsteps : 2046 ≤ (q - leastExponent).toNat := by
    rw [leastExponent]
    omega
  unfold nearestBits
  rw [if_neg (by omega)]
  dsimp only
  rw [hexp, infinityBits, h52]
  omega

/-- **What is rounded to a finite float** is what is less than half a place past the largest. -/
theorem nearestBits_lt_infinityBits {num den : Nat} (hd : 0 < den) :
    nearestBits num den < infinityBits ↔ (num : ℚ) / den < overflow := by
  by_cases hsmall : (num : ℚ) / den < 2 ^ 1023
  · exact iff_of_true (nearestBits_lt_of_lt_pow hd hsmall) (hsmall.trans pow_lt_overflow)
  by_cases hlarge : (2 : ℚ) ^ 1024 ≤ num / den
  · exact iff_of_false (not_nearestBits_lt_of_pow_le hd hlarge)
      (not_lt.mpr (overflow_le_pow.trans hlarge))
  -- in the binade of the largest float its places are those of the grid
  rw [not_lt] at hsmall
  rw [not_le] at hlarge
  have hnum := num_pos_of_pow_le hsmall
  have hk : floorLog2 num den = 1023 := by
    have hlow := le_floorLog2 hnum hd hsmall
    have hhigh := floorLog2_lt hnum hd hlarge
    omega
  have hround := @roundHalfEven_places_le_iff num den (2 ^ 53 - 1) hd (by omega) 971
  have hoverflow : (((2 ^ 53 - 1 : Nat) : ℚ) + 1 / 2) * 2 ^ (971 : Int) = overflow := by
    have hhalf : ((2 ^ 53 - 1 : Nat) : ℚ) + 1 / 2 = (2 ^ 54 - 1) / 2 := by norm_num
    have hplace : (2 : ℚ) ^ (971 : Int) = 2 ^ 970 * 2 :=
      (zpow_natCast (2 : ℚ) 971).trans (pow_succ 2 970)
    rw [hhalf, hplace, overflow]
    generalize (2 : ℚ) ^ 970 = u
    ring
  rw [hoverflow] at hround
  have h52 : twoPow 52 = 2 ^ 52 := rfl
  have hexp : max leastExponent (1023 - 52 : Int) = 971 := rfl
  have hsteps : ((971 : Int) - leastExponent).toNat = 2045 := rfl
  unfold nearestBits
  rw [if_neg (by omega)]
  dsimp only
  rw [hk, hexp, hsteps, ← hround, infinityBits, h52]
  omega

/-- A rounded fraction is finite if its value is within the range of floats. -/
theorem isFinite_nearest_iff (negative : Bool) {num den : Nat} (hd : 0 < den) :
    isFinite (nearest negative num den) = true ↔ (num : ℚ) / den < overflow := by
  rw [isFinite_nearest, nearestBits_lt_infinityBits hd]

/-- The same for a decimal. -/
theorem isFinite_ofDecimal_iff (negative : Bool) (c : Nat) (k : Int) :
    isFinite (ofDecimal negative c k) = true ↔ (c : ℚ) * 10 ^ k < overflow := by
  rw [← ratio_decimalFraction]
  exact isFinite_nearest_iff negative (decimalFraction_den_pos c k)

/-- Every decimal is rounded to a finite float or to infinity. -/
theorem ofDecimal_finite_or_infinity (negative : Bool) (c : Nat) (k : Int) :
    isFinite (ofDecimal negative c k) = true ∨ ofDecimal negative c k = infinity negative := by
  by_cases h : isFinite (ofDecimal negative c k) = true
  · exact Or.inl h
  · exact Or.inr (nearest_eq_infinity h)

theorem isFinite_infinity (negative : Bool) : isFinite (infinity negative) = false := by
  cases negative <;> decide

end ExactLisp.Binary64
