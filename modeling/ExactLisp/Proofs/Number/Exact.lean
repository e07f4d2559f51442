import ExactLisp.Proofs.Expr.Equality
import ExactLisp.Proofs.Number.Whole

/-!
# Decimals as the numbers they denote

Operations on decimals are those on the numbers that they denote (`Decimal.value`). Sums and
differences are exact at any two scales, because both operands can be written at the larger of
them, and so are products, unless the scale would leave its range (`arithmetic_exact`).

Only a quotient is rounded, to the nearest number at the scale that is asked for and away from
zero where two are equally near (`div?_nearest`). Rounding knows nothing of signs: changing
the sign of an operand changes that of the result. So it is enough to see what it does to
natural numbers.
-/

namespace ExactLisp

namespace Decimal

/-! ## Sums, differences and products -/

theorem ten_ne_zero : (10 : ℚ) ≠ 0 := by norm_num

/-- A decimal at a scale not smaller than its own denotes the same number. -/
theorem value_atScale {d : Decimal} {scale : Int} (h : d.scale ≤ scale) :
    (⟨d.atScale scale, scale⟩ : Decimal).value = d.value := by
  show (d.atScale scale : ℚ) * 10 ^ (-scale) = d.value
  rw [cast_atScale h, mul_assoc, ← zpow_add₀ ten_ne_zero, add_neg_cancel, zpow_zero, mul_one]

theorem value_add (a b : Decimal) : (a + b).value = a.value + b.value := by
  have ha : a.scale ≤ commonScale a b := le_max_left ..
  have hb : b.scale ≤ commonScale a b := le_max_right ..
  calc (a + b).value
      = ((a.atScale (commonScale a b) + b.atScale (commonScale a b) : Int) : ℚ) *
          10 ^ (-commonScale a b) := rfl
    _ = (⟨a.atScale (commonScale a b), commonScale a b⟩ : Decimal).value +
          (⟨b.atScale (commonScale a b), commonScale a b⟩ : Decimal).value := by
        rw [Int.cast_add, add_mul]
        rfl
    _ = a.value + b.value := by rw [value_atScale ha, value_atScale hb]

theorem value_sub (a b : Decimal) : (a - b).value = a.value - b.value := by
  have ha : a.scale ≤ commonScale a b := le_max_left ..
  have hb : b.scale ≤ commonScale a b := le_max_right ..
  calc (a - b).value
      = ((a.atScale (commonScale a b) - b.atScale (commonScale a b) : Int) : ℚ) *
          10 ^ (-commonScale a b) := rfl
    _ = (⟨a.atScale (commonScale a b), commonScale a b⟩ : Decimal).value -
          (⟨b.atScale (commonScale a b), commonScale a b⟩ : Decimal).value := by
        rw [Int.cast_sub, sub_mul]
        rfl
    _ = a.value - b.value := by rw [value_atScale ha, value_atScale hb]

theorem scaleFits_iff {scale : Int} :
    scaleFits scale = true ↔ leastScale ≤ scale ∧ scale ≤ greatestScale := by
  simp [scaleFits]

/-- A scale within range is kept as it is. -/
theorem scale_mul {a b : Decimal} (h : scaleFits (a.scale + b.scale) = true) :
    (a * b).scale = a.scale + b.scale := by
  obtain ⟨hleast, hgreatest⟩ := scaleFits_iff.mp h
  show max leastScale (min greatestScale (a.scale + b.scale)) = _
  rw [min_eq_right hgreatest, max_eq_right hleast]

theorem value_mul {a b : Decimal} (h : scaleFits (a.scale + b.scale) = true) :
    (a * b).value = a.value * b.value := by
  have hunscaled : (a * b).unscaled = a.unscaled * b.unscaled := rfl
  rw [value, hunscaled, scale_mul h, value, value, neg_add, zpow_add₀ ten_ne_zero, Int.cast_mul]
  ring

/-- Whatever two scales there are, the shift from either to the larger is within its range. -/
theorem shift_commonScale {a b : Decimal} (ha : scaleFits a.scale = true)
    (hb : scaleFits b.scale = true) :
    scaleFits (commonScale a b) = true ∧
      ∀ d ∈ [a, b], 0 ≤ commonScale a b - d.scale ∧ commonScale a b - d.scale ≤ greatestShift := by
  obtain ⟨haLeast, haGreatest⟩ := scaleFits_iff.mp ha
  obtain ⟨hbLeast, hbGreatest⟩ := scaleFits_iff.mp hb
  have hcommon : commonScale a b = max a.scale b.scale := rfl
  have hrange : greatestShift = greatestScale - leastScale := by decide
  refine ⟨scaleFits_iff.mpr ⟨by omega, by omega⟩, fun d hd => ?_⟩
  rcases List.mem_pair.mp hd with rfl | rfl
  · constructor <;> omega
  · constructor <;> omega

/--
**Arithmetic on decimals is exact.** A sum, a difference and, if its scale is in range, a
product denotes what it should, and decimals are equal exactly if they denote one number. For
this the operands are brought to the larger of their scales, which is in range, and neither
has to be shifted further than can be.
-/
theorem arithmetic_exact {a b : Decimal} (ha : scaleFits a.scale = true)
    (hb : scaleFits b.scale = true) :
    (a + b).value = a.value + b.value ∧ (a - b).value = a.value - b.value ∧
      ((a == b) = true ↔ a.value = b.value) ∧
      (scaleFits (a.scale + b.scale) = true → (a * b).value = a.value * b.value) ∧
      scaleFits (commonScale a b) = true ∧
      ∀ d ∈ [a, b], 0 ≤ commonScale a b - d.scale ∧ commonScale a b - d.scale ≤ greatestShift :=
  ⟨value_add a b, value_sub a b, beq_iff_value, value_mul, shift_commonScale ha hb⟩

/-- For instance at the two ends of the range of scales. -/
theorem arithmetic_exact_far_apart :
    let a : Decimal := ⟨3, leastScale⟩
    let b : Decimal := ⟨-7, greatestScale⟩
    scaleFits a.scale = true ∧ scaleFits b.scale = true ∧
      scaleFits (a.scale + b.scale) = true ∧ (a + b).value = a.value + b.value ∧
      (a - b).value = a.value - b.value ∧ (a * b).value = a.value * b.value ∧
      commonScale a b - a.scale = greatestShift := by
  intro a b
  have ha : scaleFits a.scale = true := by decide
  have hb : scaleFits b.scale = true := by decide
  have hproduct : scaleFits (a.scale + b.scale) = true := by decide
  obtain ⟨hadd, hsub, -, hmul, -, -⟩ := arithmetic_exact ha hb
  exact ⟨ha, hb, hproduct, hadd, hsub, hmul hproduct, by decide⟩

/-! ## The nearest integer -/

/-- Whether an integer is the nearest to a number, or the further from zero of the two nearest. -/
def IsNearest (n : Int) (x : ℚ) : Prop :=
  ∀ m : Int, m ≠ n → |x - n| < |x - m| ∨ (|x - n| = |x - m| ∧ |m| < |n|)

theorem IsNearest.neg {n : Int} {x : ℚ} (h : IsNearest n x) : IsNearest (-n) (-x) := by
  intro m hm
  have hflip : ∀ k : Int, |(-x) - ((-k : Int) : ℚ)| = |x - k| := by
    intro k
    rw [Int.cast_neg, neg_sub_neg, abs_sub_comm]
  have hmn := h (-m) fun he => hm (by omega)
  rw [← neg_neg m, hflip, hflip, abs_neg (-m), abs_neg n]
  exact hmn

/-- There is only one such integer. -/
theorem IsNearest.unique {n m : Int} {x : ℚ} (hn : IsNearest n x) (hm : IsNearest m x) :
    n = m := by
  by_contra hne
  rcases hn m (Ne.symm hne) with hlt | ⟨heq, hlt⟩
  · rcases hm n hne with hlt' | ⟨heq', -⟩
    · exact lt_asymm hlt hlt'
    · exact hlt.ne heq'.symm
  · rcases hm n hne with hlt' | ⟨-, hlt'⟩
    · exact hlt'.ne heq.symm
    · exact lt_asymm hlt hlt'

/-- What lies less than half above an integer, or up to half below, has it for the nearest. -/
theorem isNearest_of_nonneg {n : Nat} {x : ℚ} (hx : 0 ≤ x) (hlow : (n : ℚ) - 1 / 2 ≤ x)
    (hhigh : x < n + 1 / 2) : IsNearest n x := by
  intro m hm
  have hnear : |x - n| ≤ 1 / 2 := abs_le.mpr ⟨by linarith, by linarith⟩
  rw [Int.cast_natCast]
  rcases lt_or_gt_of_ne hm with hlt | hgt
  · have hstep : (m : ℚ) + 1 ≤ n := by exact_mod_cast hlt
    have hfar : |x - m| = x - m := abs_of_nonneg (by linarith)
    by_cases hm0 : 0 ≤ m
    · -- the integer below may be as near, but it is nearer to zero
      have hle : |x - n| ≤ |x - m| := by
        rw [hfar]
        linarith
      have hzero : |m| < |(n : Int)| := by rwa [abs_of_nonneg hm0, Nat.abs_cast]
      exact hle.lt_or_eq.imp_right fun heq => ⟨heq, hzero⟩
    · have hneg : (m : ℚ) ≤ -1 := by exact_mod_cast (show m ≤ -1 by omega)
      refine Or.inl ?_
      rw [hfar]
      linarith
  · have hstep : (n : ℚ) + 1 ≤ m := by exact_mod_cast hgt
    have hhalf : |x - n| < m - x := abs_lt.mpr ⟨by linarith, by linarith⟩
    exact Or.inl (hhalf.trans_le (abs_sub_comm x m ▸ le_abs_self _))

/-! ## Rounding -/

theorem roundHalfAway_neg_left (num : Int) {den : Int} (hden : den ≠ 0) :
    roundHalfAway (-num) den = -roundHalfAway num den := by
  rcases eq_or_ne num 0 with rfl | hnum
  · have hzero := roundHalfAway_mul 0 hden
    rw [zero_mul] at hzero
    rw [neg_zero, hzero, neg_zero]
  · simp only [roundHalfAway, Int.neg_tdiv, Int.neg_tmod, Int.natAbs_neg]
    split
    · by_cases h : num < 0 ↔ den < 0
      · rw [if_pos h, if_neg (by omega)]
        omega
      · rw [if_neg h, if_pos (by omega)]
        omega
    · rfl

theorem roundHalfAway_neg_right (num : Int) {den : Int} (hden : den ≠ 0) :
    roundHalfAway num (-den) = -roundHalfAway num den := by
  simp only [roundHalfAway, Int.tdiv_neg, Int.tmod_neg, Int.natAbs_neg]
  split
  · by_cases h : num < 0 ↔ den < 0
    · rw [if_pos h, if_neg (by omega)]
      omega
    · rw [if_neg h, if_pos (by omega)]
      omega
  · rfl

/-- The quotient of natural numbers is rounded to the nearest integer. -/
theorem isNearest_roundHalfAway_natCast (m : Nat) {k : Nat} (hk : 0 < k) :
    IsNearest (roundHalfAway m k) ((m : ℚ) / k) := by
  have hkq : (0 : ℚ) < k := by exact_mod_cast hk
  have hround : roundHalfAway m k = ((if k ≤ 2 * (m % k) then m / k + 1 else m / k : Nat) : Int) := by
    have hsign : (m : Int) < 0 ↔ (k : Int) < 0 := by omega
    rw [roundHalfAway, Int.tdiv_eq_ediv_of_nonneg (by omega), Int.tmod_eq_emod_of_nonneg (by omega),
      if_pos hsign, ← Int.natCast_ediv, ← Int.natCast_emod, Int.natAbs_natCast, Int.natAbs_natCast]
    split <;> push_cast <;> rfl
  have hdiv : (k : ℚ) * (m / k : Nat) + (m % k : Nat) = m := by exact_mod_cast Nat.div_add_mod m k
  have hrest : ((m % k : Nat) : ℚ) < k := by exact_mod_cast Nat.mod_lt m hk
  -- the quotient is its whole part and a rest below one, which decides
  have hquotient : (m : ℚ) / k = (m / k : Nat) + (m % k : Nat) / k := by
    rw [← hdiv]
    field_simp
  rw [hround, hquotient]
  split
  next hlarge =>
    have hhalf : (1 / 2 : ℚ) ≤ (m % k : Nat) / k := by
      rw [div_le_div_iff₀ two_pos hkq]
      exact_mod_cast (by omega : 1 * k ≤ m % k * 2)
    have hone : ((m % k : Nat) : ℚ) / k < 1 := (div_lt_one hkq).mpr hrest
    refine isNearest_of_nonneg (by positivity) ?_ ?_
    · rw [Nat.cast_add_one]
      linarith
    · rw [Nat.cast_add_one]
      linarith
  next hsmall =>
    have hhalf : ((m % k : Nat) : ℚ) / k < 1 / 2 := by
      rw [div_lt_div_iff₀ hkq two_pos]
      exact_mod_cast (by omega : m % k * 2 < 1 * k)
    have hpos : (0 : ℚ) ≤ (m % k : Nat) / k := by positivity
    refine isNearest_of_nonneg (by positivity) ?_ ?_
    · linarith
    · linarith

/-- So is every quotient of integers, whatever their signs. -/
theorem isNearest_roundHalfAway (num : Int) {den : Int} (hden : den ≠ 0) :
    IsNearest (roundHalfAway num den) ((num : ℚ) / den) := by
  have hdenominator : ∀ num : Int, (∀ k : Nat, 0 < k → IsNearest (roundHalfAway num k) (num / k)) →
      IsNearest (roundHalfAway num den) ((num : ℚ) / den) := by
    intro num h
    obtain ⟨k, rfl | rfl⟩ := den.eq_nat_or_neg
    · rw [Int.cast_natCast]
      exact h k (by omega)
    · have hk : (k : Int) ≠ 0 := by omega
      rw [roundHalfAway_neg_right num hk, Int.cast_neg, div_neg, Int.cast_natCast]
      exact (h k (by omega)).neg
  refine hdenominator num fun k hk => ?_
  obtain ⟨m, rfl | rfl⟩ := num.eq_nat_or_neg
  · rw [Int.cast_natCast]
    exact isNearest_roundHalfAway_natCast m hk
  · have hk0 : (k : Int) ≠ 0 := by omega
    rw [roundHalfAway_neg_left _ hk0, Int.cast_neg, neg_div, Int.cast_natCast]
    exact (isNearest_roundHalfAway_natCast m hk).neg

/-! ## Quotients -/

theorem value_eq_zero_iff {d : Decimal} : d.value = 0 ↔ d.unscaled = 0 := by
  have hten : (10 : ℚ) ^ (-d.scale) ≠ 0 := by positivity
  rw [value, mul_eq_zero, or_iff_left hten, Int.cast_eq_zero]

/-- When there is no quotient. -/
theorem div?_eq_none_iff {a b : Decimal} {scale : Nat} :
    a.div? b scale = none ↔
      b.value = 0 ∨ greatestScale < scale ∨ greatestShift < |scale + b.scale - a.scale| := by
  have hzero : b.isZero = true ↔ b.value = 0 := by
    rw [value_eq_zero_iff, isZero, decide_eq_true_eq]
  rw [div?, ← hzero, ← Int.natCast_natAbs]
  split
  next h => exact iff_of_true rfl h
  next h =>
    refine iff_of_false ?_ h
    split <;> exact Option.some_ne_none _

/-- What is divided by what, once the operands have been shifted. -/
theorem exists_roundHalfAway_of_div? {a b q : Decimal} {scale : Nat}
    (h : a.div? b scale = some q) :
    ∃ num den : Int, den ≠ 0 ∧ q = ⟨roundHalfAway num den, scale⟩ ∧
      (num : ℚ) / den = a.value / b.value * 10 ^ scale := by
  have hb : b.unscaled ≠ 0 := by
    intro hb
    rw [div?_eq_none_iff.mpr (Or.inl (value_eq_zero_iff.mpr hb))] at h
    cases h
  have hbq : (b.unscaled : ℚ) ≠ 0 := Int.cast_ne_zero.mpr hb
  have hvalue : a.value / b.value * 10 ^ scale =
      (a.unscaled : ℚ) / b.unscaled * 10 ^ ((scale : Int) + b.scale - a.scale) := by
    rw [value, value, sub_eq_add_neg, zpow_add₀ ten_ne_zero, zpow_add₀ ten_ne_zero, zpow_natCast,
      zpow_neg, zpow_neg]
    field_simp
  rw [div?] at h
  generalize (scale : Int) + b.scale - a.scale = shift at h hvalue
  split at h
  · cases h
  · split at h
    next hshift =>
      -- zeros are put behind the dividend
      obtain ⟨k, rfl⟩ := Int.eq_ofNat_of_zero_le hshift
      cases h
      refine ⟨_, _, hb, rfl, ?_⟩
      rw [hvalue, Int.toNat_natCast, Int.cast_mul, Int.cast_natCast, Binary64.cast_tenPow,
        zpow_natCast]
      ring
    next hshift =>
      -- zeros are put behind the divisor
      obtain ⟨k, hk⟩ := Int.eq_ofNat_of_zero_le (by omega : 0 ≤ -shift)
      cases h
      have hpos := tenPow_pos k
      rw [hk, Int.toNat_natCast]
      refine ⟨_, _, mul_ne_zero hb (by omega), rfl, ?_⟩
      rw [hvalue, ← neg_neg shift, hk, zpow_neg, zpow_natCast, Int.cast_mul, Int.cast_natCast,
        Binary64.cast_tenPow]
      field_simp

/--
**Division rounds to the nearest**, away from zero where two are equally near. There is no
quotient exactly if the divisor is zero, the scale is out of range or the operands would have
to be shifted further than can be; otherwise it has the scale that was asked for, and its
unscaled part is the integer nearest to the exact quotient at that scale.
-/
theorem div?_nearest (a b : Decimal) (scale : Nat) :
    (a.div? b scale = none ↔
      b.value = 0 ∨ greatestScale < scale ∨ greatestShift < |scale + b.scale - a.scale|) ∧
      ∀ q, a.div? b scale = some q →
        q.scale = scale ∧ IsNearest q.unscaled (a.value / b.value * 10 ^ scale) := by
  refine ⟨div?_eq_none_iff, fun q hq => ?_⟩
  obtain ⟨num, den, hden, rfl, hquotient⟩ := exists_roundHalfAway_of_div? hq
  exact ⟨rfl, hquotient ▸ isNearest_roundHalfAway num hden⟩

/-- For instance minus one divided by two, where the quotient toward zero has no sign. -/
theorem div?_nearest_half :
    (⟨-1, 0⟩ : Decimal).div? ⟨2, 0⟩ 0 = some ⟨-1, 0⟩ ∧
      IsNearest (-1) ((⟨-1, 0⟩ : Decimal).value / (⟨2, 0⟩ : Decimal).value * 10 ^ 0) := by
  have hq : (⟨-1, 0⟩ : Decimal).div? ⟨2, 0⟩ 0 = some ⟨-1, 0⟩ := rfl
  exact ⟨hq, ((div?_nearest ⟨-1, 0⟩ ⟨2, 0⟩ 0).2 _ hq).2⟩

end Decimal

end ExactLisp
