import ExactLisp.Binary64.Text
import ExactLisp.Proofs.Binary64.Bits

/-!
# The shortest decimal reads back

The search for the shortest decimal looks at the two points of a decimal grid around the
float, on finer and finer grids. Whatever it finds lies in the interval of the float, so
it is read as that float again (`ofDecimal_of_contains`).

It always finds something: the seventeenth grid is finer than the interval is wide, so of
its two points around the float one lies in the interval (`onGrid_isSome`). Sixteen would
not do, as `2^53` is more than `10^15`.
-/

namespace ExactLisp.Binary64

theorem cast_tenPow (n : Nat) : ((tenPow n : Nat) : ℚ) = 10 ^ n := by
  rw [tenPow]
  exact Nat.cast_pow 10 n

theorem ratio_decimalFraction (c : Nat) (k : Int) :
    ratio (decimalFraction c k) = (c : ℚ) * 10 ^ k := by
  unfold decimalFraction
  split
  next h =>
    obtain ⟨n, rfl⟩ := Int.eq_ofNat_of_zero_le h
    simp only [ratio, Int.toNat_natCast, zpow_natCast, Nat.cast_mul, cast_tenPow, Nat.cast_one,
      div_one]
  next h =>
    obtain ⟨n, rfl⟩ : ∃ n : Nat, k = -(n : Int) := ⟨(-k).toNat, by omega⟩
    simp only [ratio, neg_neg, Int.toNat_natCast, zpow_neg, zpow_natCast, cast_tenPow]
    rw [div_eq_mul_inv]

theorem decimalFraction_den_pos (c : Nat) (k : Int) : 0 < (decimalFraction c k).2 := by
  unfold decimalFraction
  split
  · exact Nat.one_pos
  · exact tenPow_pos _

/-- A decimal in the interval of a float is read as that float. -/
theorem ofDecimal_of_contains {x : Float} {negative : Bool} {m c : Nat} {q k : Int}
    (hx : shape x = .finite negative m q) (hm : 0 < m) (hc : Contains m q ((c : ℚ) * 10 ^ k)) :
    ofDecimal negative c k = x := by
  rw [← ratio_decimalFraction] at hc
  exact nearest_eq hx
    (nearestBits_of_contains (normalized_of_shape hx hm) (decimalFraction_den_pos c k) hc)

/-- Decimals of one value are read as the same float. -/
theorem ofDecimal_congr (negative : Bool) {c c' : Nat} {k k' : Int}
    (h : (c : ℚ) * 10 ^ k = c' * 10 ^ k') : ofDecimal negative c k = ofDecimal negative c' k' := by
  rw [← ratio_decimalFraction, ← ratio_decimalFraction] at h
  have hbits : nearestBits (decimalFraction c k).1 (decimalFraction c k).2 =
      nearestBits (decimalFraction c' k').1 (decimalFraction c' k').2 :=
    nearestBits_congr (decimalFraction_den_pos c k) (decimalFraction_den_pos c' k') h
  unfold ofDecimal nearest
  dsimp only
  rw [hbits]

/-! ## The interval and the grid -/

theorem value_eq (m : Nat) (q : Int) :
    ((Interval.of m q).value : ℚ) / (Interval.of m q).den = m * 2 ^ q := by
  have hratio := ratio_timesPowerOfTwo 1 1 (q - 2)
  rw [ratio, zpow_sub_two] at hratio
  unfold Interval.of
  dsimp only
  rw [Nat.cast_mul, Nat.cast_mul, mul_div_assoc, hratio]
  push_cast
  ring

theorem den_pos (m : Nat) (q : Int) : 0 < (Interval.of m q).den :=
  timesPowerOfTwo_den_pos Nat.one_pos 1 (q - 2)

theorem lowEnd_lt (m : Nat) (q : Int) : lowEnd m q < m * 2 ^ q := by
  have hb : (1 : ℚ) ≤ below m q := by exact_mod_cast one_le_below m q
  have hu : (0 : ℚ) < 2 ^ q := by positivity
  rw [lowEnd, zpow_sub_two]
  nlinarith

theorem lt_highEnd (m : Nat) (q : Int) : m * 2 ^ q < highEnd m q := by
  have hu : (0 : ℚ) < 2 ^ q := by positivity
  rw [highEnd_eq]
  nlinarith

theorem contains_of_between {m : Nat} {q : Int} {v : ℚ} (h1 : lowEnd m q < v)
    (h2 : v < highEnd m q) : Contains m q v :=
  ⟨h1.le, h2.le, fun _ => ⟨h1, h2⟩⟩

/-- The point of a decimal grid below a value. -/
def gridFloor (i : Interval) (k : Int) : Nat :=
  i.value * (decimalFraction 1 k).2 / (i.den * (decimalFraction 1 k).1)

theorem decimalFraction_num_pos (k : Int) : 0 < (decimalFraction 1 k).1 := by
  unfold decimalFraction
  split
  · exact Nat.mul_pos Nat.one_pos (tenPow_pos _)
  · exact Nat.one_pos

theorem gridFloor_bounds (m : Nat) (q k : Int) :
    (gridFloor (Interval.of m q) k : ℚ) * 10 ^ k ≤ m * 2 ^ q ∧
      (m : ℚ) * 2 ^ q < ((gridFloor (Interval.of m q) k + 1 : Nat) : ℚ) * 10 ^ k := by
  have hratio := ratio_decimalFraction 1 k
  have hd := den_pos m q
  have hn := decimalFraction_num_pos k
  have hp := decimalFraction_den_pos 1 k
  rw [← value_eq]
  unfold gridFloor
  generalize Interval.of m q = i at *
  generalize decimalFraction 1 k = p at *
  obtain ⟨num, den⟩ := p
  dsimp only at *
  have hd' : (0 : ℚ) < i.den := by exact_mod_cast hd
  have hn' : (0 : ℚ) < num := by exact_mod_cast hn
  have hp' : (0 : ℚ) < den := by exact_mod_cast hp
  have hk : (10 : ℚ) ^ k = num / den := by
    rw [ratio] at hratio
    simpa using hratio.symm
  have hle : i.value * den / (i.den * num) * (i.den * num) ≤ i.value * den := Nat.div_mul_le_self _ _
  have hlt : i.value * den < (i.value * den / (i.den * num) + 1) * (i.den * num) := by
    have := @Nat.lt_div_mul_add (i.value * den) (i.den * num) (Nat.mul_pos hd hn)
    rw [Nat.add_mul, Nat.one_mul]
    exact this
  generalize i.value * den / (i.den * num) = f at *
  have hle' : (f : ℚ) * (i.den * num) ≤ i.value * den := by exact_mod_cast hle
  have hlt' : (i.value : ℚ) * den < ((f + 1 : Nat) : ℚ) * (i.den * num) := by exact_mod_cast hlt
  rw [hk]
  constructor
  · rw [le_div_iff₀ hd', mul_div_assoc', div_mul_eq_mul_div, div_le_iff₀ hp']
    linarith
  · rw [div_lt_iff₀ hd', mul_div_assoc', div_mul_eq_mul_div, lt_div_iff₀ hp']
    linarith

/-- The executable test on a point of the grid. -/
theorem holds_grid {m : Nat} (hm : 0 < m) (q k : Int) (c : Nat) :
    (Interval.of m q).holds (c * (decimalFraction 1 k).1) (decimalFraction 1 k).2 = true ↔
      Contains m q ((c : ℚ) * 10 ^ k) := by
  have hratio := ratio_decimalFraction 1 k
  rw [holds_iff hm q _ (decimalFraction_den_pos 1 k), Nat.cast_mul, mul_div_assoc]
  rw [ratio, Nat.cast_one, one_mul] at hratio
  rw [hratio]

/-- The search on one grid, without the choice between two points that both fit. -/
theorem onGrid_eq (i : Interval) (k : Int) :
    i.onGrid k = none ∧
        i.holds (gridFloor i k * (decimalFraction 1 k).1) (decimalFraction 1 k).2 = false ∧
        i.holds ((gridFloor i k + 1) * (decimalFraction 1 k).1) (decimalFraction 1 k).2 = false ∨
      ∃ c, i.onGrid k = some (c, k) ∧
        i.holds (c * (decimalFraction 1 k).1) (decimalFraction 1 k).2 = true := by
  unfold Interval.onGrid gridFloor
  dsimp only
  generalize i.value * (decimalFraction 1 k).2 / (i.den * (decimalFraction 1 k).1) = floor
  split
  next h => exact Or.inr ⟨floor, rfl, (Bool.and_eq_true_iff.mp h).1⟩
  next h =>
    split
    next h' => exact Or.inr ⟨floor + 1, rfl, h'⟩
    next h' => exact Or.inl ⟨rfl, by simp_all, by simp_all⟩

/-- What is found on a grid is in the interval. -/
theorem contains_onGrid {m c : Nat} {q k k' : Int} (hm : 0 < m)
    (h : (Interval.of m q).onGrid k = some (c, k')) : k' = k ∧ Contains m q ((c : ℚ) * 10 ^ k) := by
  rcases onGrid_eq (Interval.of m q) k with ⟨hnone, -⟩ | ⟨d, hsome, hd⟩
  · rw [hnone] at h
    cases h
  · rw [hsome] at h
    cases h
    exact ⟨rfl, (holds_grid hm q k c).mp hd⟩

/-- On a grid that is finer than the interval is wide, something is found. -/
theorem onGrid_isSome {m : Nat} {q k : Int} (hm : 0 < m)
    (hk : (10 : ℚ) ^ k < highEnd m q - lowEnd m q) : (Interval.of m q).onGrid k ≠ none := by
  intro hnone
  obtain ⟨hbelow, habove⟩ := gridFloor_bounds m q k
  rcases onGrid_eq (Interval.of m q) k with ⟨-, h1, h2⟩ | ⟨c, hsome, -⟩
  · have h1' : ¬ Contains m q ((gridFloor (Interval.of m q) k : ℚ) * 10 ^ k) :=
      fun hc => Bool.eq_false_iff.mp h1 ((holds_grid hm q k _).mpr hc)
    have h2' : ¬ Contains m q (((gridFloor (Interval.of m q) k + 1 : Nat) : ℚ) * 10 ^ k) :=
      fun hc => Bool.eq_false_iff.mp h2 ((holds_grid hm q k _).mpr hc)
    -- the two points lie outside, one on either side, so they are too far apart
    have hlow : (gridFloor (Interval.of m q) k : ℚ) * 10 ^ k ≤ lowEnd m q := by
      by_contra h
      exact h1' (contains_of_between (not_le.mp h) (lt_of_le_of_lt hbelow (lt_highEnd m q)))
    have hhigh : highEnd m q ≤ ((gridFloor (Interval.of m q) k + 1 : Nat) : ℚ) * 10 ^ k := by
      by_contra h
      exact h2' (contains_of_between (lt_trans (lowEnd_lt m q) habove) (not_le.mp h))
    push_cast at hhigh
    linarith
  · rw [hsome] at hnone
    cases hnone

/-! ## Seventeen digits -/

theorem pow_digitCount_le {n : Nat} (hn : 0 < n) : 10 ^ (digitCount n - 1) ≤ n := by
  unfold digitCount
  by_contra h
  rcases Nat.lt_or_ge 1 (Nat.toDigits 10 n).length with hl | hl
  · have := (@Nat.length_toDigits_le_iff 10 n _ (by decide)
      (Nat.sub_pos_of_lt hl)).mpr (not_le.mp h)
    omega
  · have : (Nat.toDigits 10 n).length - 1 = 0 := by omega
    rw [this] at h
    omega

theorem lt_pow_digitCount (n : Nat) : n < 10 ^ digitCount n :=
  (Nat.length_toDigits_le_iff (by decide) Nat.length_toDigits_pos).mp le_rfl

/-- The decimal point is not placed too far to the right. -/
theorem pow_decimalPoint_le {num den : Nat} (hn : 0 < num) (hd : 0 < den) :
    (10 : ℚ) ^ (decimalPoint num den - 1) ≤ (num : ℚ) / den := by
  have hd' : (0 : ℚ) < den := by exact_mod_cast hd
  have hn' : (0 : ℚ) < num := by exact_mod_cast hn
  unfold decimalPoint
  split
  next h =>
    have hq : 0 < num / den := Nat.div_pos h hd
    have hle := pow_digitCount_le hq
    have hpos : 0 < digitCount (num / den) := Nat.length_toDigits_pos
    have hexp : (digitCount (num / den) : Int) - 1 = (digitCount (num / den) - 1 : Nat) := by omega
    rw [hexp, zpow_natCast, le_div_iff₀ hd']
    have hmul : 10 ^ (digitCount (num / den) - 1) * den ≤ num :=
      (Nat.mul_le_mul_right den hle).trans (Nat.div_mul_le_self num den)
    exact_mod_cast hmul
  next h =>
    have hlt := lt_pow_digitCount ((den - 1) / num)
    generalize digitCount ((den - 1) / num) = n at *
    have hexp : (1 : Int) - n - 1 = -(n : Int) := by omega
    have hle : den ≤ num * 10 ^ n := by
      have := Nat.lt_mul_of_div_lt hlt hn
      rw [Nat.mul_comm num]
      omega
    have hle' : (den : ℚ) ≤ num * 10 ^ n := by exact_mod_cast hle
    rw [hexp, zpow_neg, zpow_natCast, le_div_iff₀ hd', inv_mul_le_iff₀ (by positivity)]
    linarith

/-- The seventeenth grid is finer than the interval is wide. -/
theorem pow_lt_width {m : Nat} {q : Int} (hf : Normalized m q) {point : Int}
    (h : (10 : ℚ) ^ (point - 1) ≤ m * 2 ^ q) :
    (10 : ℚ) ^ (point - 17) < highEnd m q - lowEnd m q := by
  have hu : (0 : ℚ) < 2 ^ q := by positivity
  have hsplit : (10 : ℚ) ^ (point - 17) = 10 ^ (point - 1) / 10 ^ 16 := by
    have : point - 17 = point - 1 - 16 := by omega
    rw [this, zpow_sub₀ (by norm_num)]
    norm_num
  have hwidth : highEnd m q - lowEnd m q = (2 + below m q) * (2 ^ q / 4) := by
    rw [highEnd, lowEnd, zpow_sub_two]
    ring
  have hm : (m : ℚ) < 2 ^ 53 := by exact_mod_cast hf.lt
  rw [hsplit, hwidth, div_lt_iff₀ (by norm_num)]
  unfold below
  split
  next hleast =>
    have hm52 : (m : ℚ) = 2 ^ 52 := by
      rw [hleast.1]
      exact cast_twoPow 52
    norm_num
    rw [hm52] at h
    norm_num at h
    linarith
  next =>
    have hmu : (m : ℚ) * 2 ^ q < 2 ^ 53 * 2 ^ q := mul_lt_mul_of_pos_right hm hu
    norm_num at hmu ⊢
    linarith

/-- **The shortest decimal of a float is in its interval.** -/
theorem contains_shortest {m : Nat} {q : Int} (hf : Normalized m q) :
    Contains m q (((shortest m q).1 : ℚ) * 10 ^ (shortest m q).2) := by
  have hm := hf.pos
  have hvalue := value_eq m q
  have hpos : 0 < (Interval.of m q).value := by
    by_contra h
    have hm' : (0 : ℚ) < m := by exact_mod_cast hm
    have hu : (0 : ℚ) < m * 2 ^ q := by positivity
    rw [Nat.eq_zero_of_not_pos h, Nat.cast_zero, zero_div] at hvalue
    linarith
  have hpoint := pow_decimalPoint_le hpos (den_pos m q)
  rw [hvalue] at hpoint
  unfold shortest
  dsimp only
  generalize decimalPoint (Interval.of m q).value (Interval.of m q).den = point at *
  split
  next c k hfound =>
    obtain ⟨n, -, hn⟩ := List.exists_of_findSome?_eq_some hfound
    obtain ⟨rfl, hc⟩ := contains_onGrid hm hn
    split
    next hten =>
      -- a trailing zero is dropped
      have hcast : (c : ℚ) = ((c / 10 : Nat) : ℚ) * 10 := by
        exact_mod_cast (Nat.div_mul_cancel (Nat.dvd_of_mod_eq_zero hten)).symm
      rw [hcast] at hc
      dsimp only
      rw [zpow_add₀ (by norm_num), zpow_one, mul_comm ((10 : ℚ) ^ _), ← mul_assoc]
      exact hc
    next => exact hc
  next hnone =>
    have hlast := List.findSome?_eq_none_iff.mp hnone 16 (by simp)
    refine absurd hlast (onGrid_isSome hm ?_)
    have := pow_lt_width hf hpoint
    norm_num
    exact this

end ExactLisp.Binary64
