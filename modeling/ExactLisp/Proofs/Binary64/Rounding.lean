import ExactLisp.Binary64.Shortest
import Mathlib.Algebra.Order.Field.Power
import Mathlib.Data.Rat.Cast.Order
import Mathlib.Tactic.FieldSimp
import Mathlib.Tactic.Linarith
import Mathlib.Tactic.NormNum
import Mathlib.Tactic.Positivity
import Mathlib.Tactic.Ring

/-!
# Rounding to the nearest float

What a fraction of natural numbers rounds to is a matter of its value alone, so
everything here is about rational numbers. A float `m · 2^q` is what a value rounds to
exactly if the value lies in the interval around the float (`Contains`), and on such a
value `nearestBits` gives the pattern of that float (`nearestBits_of_contains`).

The one float that needs care is the least of its binade. Below it the floats are twice
as dense, so a value just under it is rounded on the finer grid, where it goes up to
`2^53` and carries into the exponent.
-/

namespace ExactLisp.Binary64

/-- The value of a fraction. -/
def ratio (p : Nat × Nat) : ℚ := (p.1 : ℚ) / p.2

theorem cast_twoPow (n : Nat) : ((twoPow n : Nat) : ℚ) = 2 ^ n := by
  rw [twoPow]
  exact Nat.cast_pow 2 n

theorem ratio_timesPowerOfTwo (num den : Nat) (k : Int) :
    ratio (timesPowerOfTwo num den k) = (num : ℚ) / den * 2 ^ k := by
  unfold timesPowerOfTwo
  split
  next h =>
    obtain ⟨n, rfl⟩ := Int.eq_ofNat_of_zero_le h
    simp only [ratio, Int.toNat_natCast, zpow_natCast, Nat.cast_mul, cast_twoPow]
    ring
  next h =>
    obtain ⟨n, rfl⟩ : ∃ n : Nat, k = -(n : Int) := ⟨(-k).toNat, by omega⟩
    simp only [ratio, neg_neg, Int.toNat_natCast, zpow_neg, zpow_natCast, Nat.cast_mul,
      cast_twoPow]
    rw [div_mul_eq_div_div, div_eq_mul_inv _ ((2 : ℚ) ^ n)]

theorem timesPowerOfTwo_den_pos {den : Nat} (h : 0 < den) (num : Nat) (k : Int) :
    0 < (timesPowerOfTwo num den k).2 := by
  unfold timesPowerOfTwo
  split
  · exact h
  · exact Nat.mul_pos h (twoPow_pos _)

/-! ## Whole numbers -/

/-- A fraction is rounded to the whole number it is within a half of, an even one at a half. -/
theorem roundHalfEven_eq {n d m : Nat} (hd : 0 < d) (hlow : 2 * m * d ≤ 2 * n + d)
    (hhigh : 2 * n ≤ (2 * m + 1) * d)
    (hodd : m % 2 = 1 → 2 * m * d < 2 * n + d ∧ 2 * n < (2 * m + 1) * d) :
    roundHalfEven n d = m := by
  have hn : d * (n / d) + n % d = n := Nat.div_add_mod n d
  have hr : n % d < d := Nat.mod_lt n hd
  unfold roundHalfEven
  dsimp only
  generalize n / d = q at *
  generalize n % d = r at *
  -- the quotient is rounded down to itself or up to the next number
  have hq : q = m ∨ q + 1 = m := by
    have h1 : q ≤ m := by
      by_contra h
      have : (m + 1) * d ≤ d * q := by
        rw [Nat.mul_comm d]
        exact Nat.mul_le_mul_right d (by omega)
      nlinarith
    have h2 : m ≤ q + 1 := by
      by_contra h
      have : (q + 2) * d ≤ m * d := Nat.mul_le_mul_right d (by omega)
      nlinarith
    omega
  rcases hq with rfl | rfl
  · have hle : 2 * r ≤ d := by nlinarith
    have hlt : q % 2 = 1 → 2 * r < d := by
      intro h
      have := (hodd h).2
      nlinarith
    rw [if_neg]
    rintro (h | ⟨h, ho⟩)
    · omega
    · have := hlt ho
      omega
  · have hle : d ≤ 2 * r := by nlinarith
    have hlt : (q + 1) % 2 = 1 → d < 2 * r := by
      intro h
      have := (hodd h).1
      nlinarith
    rw [if_pos]
    rcases Nat.lt_or_ge d (2 * r) with h | h
    · exact Or.inl h
    · refine Or.inr ⟨by omega, ?_⟩
      by_contra ho
      have := hlt (by omega)
      omega

/-- The same for the value of a fraction. -/
theorem roundHalfEven_of_ratio {p : Nat × Nat} {m : Nat} (hd : 0 < p.2)
    (hlow : (m : ℚ) - 1 / 2 ≤ ratio p) (hhigh : ratio p ≤ m + 1 / 2)
    (hodd : m % 2 = 1 → (m : ℚ) - 1 / 2 < ratio p ∧ ratio p < m + 1 / 2) :
    roundHalfEven p.1 p.2 = m := by
  have hd' : (0 : ℚ) < p.2 := by exact_mod_cast hd
  have hn : (p.1 : ℚ) = ratio p * p.2 := by
    rw [ratio]
    field_simp
  refine roundHalfEven_eq hd ?_ ?_ fun ho => ⟨?_, ?_⟩
  · have : ((2 * m * p.2 : Nat) : ℚ) ≤ ((2 * p.1 + p.2 : Nat) : ℚ) := by
      push_cast
      rw [hn]
      nlinarith
    exact_mod_cast this
  · have : ((2 * p.1 : Nat) : ℚ) ≤ (((2 * m + 1) * p.2 : Nat) : ℚ) := by
      push_cast
      rw [hn]
      nlinarith
    exact_mod_cast this
  · have : ((2 * m * p.2 : Nat) : ℚ) < ((2 * p.1 + p.2 : Nat) : ℚ) := by
      push_cast
      rw [hn]
      nlinarith [(hodd ho).1]
    exact_mod_cast this
  · have : ((2 * p.1 : Nat) : ℚ) < (((2 * m + 1) * p.2 : Nat) : ℚ) := by
      push_cast
      rw [hn]
      nlinarith [(hodd ho).2]
    exact_mod_cast this

/-! ## Binades -/

theorem le_of_zpow_lt {a b : Int} (h : (2 : ℚ) ^ a < 2 ^ (b + 1)) : a ≤ b := by
  have := (zpow_lt_zpow_iff_right₀ (by norm_num : (1 : ℚ) < 2)).mp h
  omega

/-- The binade of a positive value. -/
theorem floorLog2_bounds {num den : Nat} (hn : 0 < num) (hd : 0 < den) :
    (2 : ℚ) ^ floorLog2 num den ≤ (num : ℚ) / den ∧
      (num : ℚ) / den < 2 ^ (floorLog2 num den + 1) := by
  have hd' : (0 : ℚ) < den := by exact_mod_cast hd
  have hn1 : (2 : ℚ) ^ num.log2 ≤ num := by exact_mod_cast Nat.log2_self_le (by omega)
  have hn2 : (num : ℚ) < 2 ^ (num.log2 + 1) := by exact_mod_cast Nat.lt_log2_self
  have hd1 : (2 : ℚ) ^ den.log2 ≤ den := by exact_mod_cast Nat.log2_self_le (by omega)
  have hd2 : (den : ℚ) < 2 ^ (den.log2 + 1) := by exact_mod_cast Nat.lt_log2_self
  have hsplit : ∀ a b : Nat, (2 : ℚ) ^ ((a : Int) - b) = 2 ^ a / 2 ^ b := by
    intro a b
    rw [zpow_sub₀ two_ne_zero, zpow_natCast, zpow_natCast]
  -- the difference of the logarithms is right or one too large
  have hlow : (2 : ℚ) ^ ((num.log2 : Int) - den.log2 - 1) ≤ num / den := by
    have : (num.log2 : Int) - den.log2 - 1 = num.log2 - (den.log2 + 1 : Nat) := by omega
    rw [this, hsplit]
    exact div_le_div₀ (by positivity) hn1 hd' hd2.le
  have hhigh : (num : ℚ) / den < 2 ^ ((num.log2 : Int) - den.log2 + 1) := by
    have : (num.log2 : Int) - den.log2 + 1 = (num.log2 + 1 : Nat) - den.log2 := by omega
    rw [this, hsplit]
    exact div_lt_div₀ hn2 hd1 (by positivity) (by positivity)
  unfold floorLog2
  dsimp only
  generalize (num.log2 : Int) - den.log2 = k at *
  have hpos := timesPowerOfTwo_den_pos hd num (-k)
  have hratio := ratio_timesPowerOfTwo num den (-k)
  have hpos' : (0 : ℚ) < (timesPowerOfTwo num den (-k)).2 := by exact_mod_cast hpos
  have hk : (0 : ℚ) < 2 ^ k := by positivity
  -- which of them it is shows when the value is compared to the power itself
  have hiff : (timesPowerOfTwo num den (-k)).2 ≤ (timesPowerOfTwo num den (-k)).1 ↔
      (2 : ℚ) ^ k ≤ num / den := by
    rw [← Nat.cast_le (α := ℚ), ← one_le_div hpos']
    change 1 ≤ ratio (timesPowerOfTwo num den (-k)) ↔ _
    rw [hratio, zpow_neg, ← div_eq_mul_inv, one_le_div hk]
  split
  next h => exact ⟨hiff.mp h, hhigh⟩
  next h =>
    refine ⟨hlow, ?_⟩
    rw [sub_add_cancel]
    exact lt_of_not_ge fun hge => h (hiff.mpr hge)

/-! ## The interval around a float -/

/-- The significand and the exponent of a positive float. -/
structure Normalized (m : Nat) (q : Int) : Prop where
  pos : 0 < m
  lt : m < 2 ^ 53
  least : leastExponent ≤ q
  greatest : q ≤ 971
  /-- The leading bit of the significand is set, unless the exponent cannot be smaller. -/
  leading : leastExponent < q → 2 ^ 52 ≤ m

/-- How far the interval of a float reaches below it, in quarters of its last place. -/
def below (m : Nat) (q : Int) : Nat := if m = twoPow 52 ∧ leastExponent < q then 1 else 2

/-- The lower end of the interval of a float. -/
def lowEnd (m : Nat) (q : Int) : ℚ := (4 * m - below m q) * 2 ^ (q - 2)

/-- The upper end of the interval of a float. -/
def highEnd (m : Nat) (q : Int) : ℚ := (4 * m + 2) * 2 ^ (q - 2)

/-- Whether a value is in the interval of a float. The ends belong to it if `m` is even. -/
def Contains (m : Nat) (q : Int) (v : ℚ) : Prop :=
  lowEnd m q ≤ v ∧ v ≤ highEnd m q ∧ (m % 2 = 1 → lowEnd m q < v ∧ v < highEnd m q)

theorem one_le_below (m : Nat) (q : Int) : 1 ≤ below m q := by
  unfold below
  split <;> omega

theorem below_le_two (m : Nat) (q : Int) : below m q ≤ 2 := by
  unfold below
  split <;> omega

theorem zpow_sub_two (q : Int) : (2 : ℚ) ^ (q - 2) = 2 ^ q / 4 := by
  rw [zpow_sub₀ two_ne_zero]
  norm_num

/-- The interval starts at most half a place below the float. -/
theorem le_lowEnd (m : Nat) (q : Int) : ((m : ℚ) - 1 / 2) * 2 ^ q ≤ lowEnd m q := by
  have hb : (below m q : ℚ) ≤ 2 := by exact_mod_cast below_le_two m q
  have hu : (0 : ℚ) < 2 ^ q := by positivity
  rw [lowEnd, zpow_sub_two]
  nlinarith

theorem highEnd_eq (m : Nat) (q : Int) : highEnd m q = ((m : ℚ) + 1 / 2) * 2 ^ q := by
  rw [highEnd, zpow_sub_two]
  ring

theorem lowEnd_pos {m : Nat} (h : 0 < m) (q : Int) : 0 < lowEnd m q := by
  have hm : (1 : ℚ) ≤ m := by exact_mod_cast h
  have hu : (0 : ℚ) < 2 ^ q := by positivity
  have := le_lowEnd m q
  nlinarith

/-- The executable test is membership in the interval. -/
theorem holds_iff {m : Nat} (hm : 0 < m) (q : Int) (num : Nat) {den : Nat} (hd : 0 < den) :
    (Interval.of m q).holds num den = true ↔ Contains m q ((num : ℚ) / den) := by
  have hratio := ratio_timesPowerOfTwo 1 1 (q - 2)
  have hpos := timesPowerOfTwo_den_pos Nat.one_pos 1 (q - 2)
  have hd' : (0 : ℚ) < den := by exact_mod_cast hd
  have hb := below_le_two m q
  unfold Interval.of
  rw [← below]
  generalize timesPowerOfTwo 1 1 (q - 2) = p at *
  obtain ⟨unit, place⟩ := p
  have hpos' : (0 : ℚ) < place := by exact_mod_cast hpos
  have hunit : (unit : ℚ) = 2 ^ (q - 2) * place := by
    rw [ratio, div_eq_iff hpos'.ne'] at hratio
    simpa using hratio
  have hlow : (((4 * m - below m q) * unit * den : Nat) : ℚ) = lowEnd m q * (place * den) := by
    rw [Nat.cast_mul, Nat.cast_mul, Nat.cast_sub (by omega), hunit, lowEnd]
    push_cast
    ring
  have hhigh : (((4 * m + 2) * unit * den : Nat) : ℚ) = highEnd m q * (place * den) := by
    rw [Nat.cast_mul, Nat.cast_mul, hunit, highEnd]
    push_cast
    ring
  have hnum : ((num * place : Nat) : ℚ) = (num : ℚ) / den * (place * den) := by
    push_cast
    field_simp
  have hscale : (0 : ℚ) < place * den := mul_pos hpos' hd'
  -- every comparison is one of values, multiplied out by a common denominator
  have hle : (4 * m - below m q) * unit * den ≤ num * place ↔ lowEnd m q ≤ (num : ℚ) / den := by
    rw [← Nat.cast_le (α := ℚ), hlow, hnum, mul_le_mul_iff_of_pos_right hscale]
  have hle' : num * place ≤ (4 * m + 2) * unit * den ↔ (num : ℚ) / den ≤ highEnd m q := by
    rw [← Nat.cast_le (α := ℚ), hhigh, hnum, mul_le_mul_iff_of_pos_right hscale]
  have hlt : (4 * m - below m q) * unit * den < num * place ↔ lowEnd m q < (num : ℚ) / den := by
    rw [← Nat.cast_lt (α := ℚ), hlow, hnum, mul_lt_mul_iff_of_pos_right hscale]
  have hlt' : num * place < (4 * m + 2) * unit * den ↔ (num : ℚ) / den < highEnd m q := by
    rw [← Nat.cast_lt (α := ℚ), hhigh, hnum, mul_lt_mul_iff_of_pos_right hscale]
  unfold Interval.holds Contains
  by_cases hodd : m % 2 = 0
  · simp [hodd, hle, hle']
  · simp only [hodd, decide_false, Bool.false_eq_true, if_false, Bool.and_eq_true,
      decide_eq_true_eq, hlt, hlt']
    constructor
    · rintro ⟨h1, h2⟩
      exact ⟨h1.le, h2.le, fun _ => ⟨h1, h2⟩⟩
    · rintro ⟨-, -, h⟩
      exact h (by omega)

/-! ## Rounding into the interval -/

/-- The pattern of a positive float. -/
def pattern (m : Nat) (q : Int) : Nat := (q - leastExponent).toNat * twoPow 52 + m

theorem pattern_lt {m : Nat} {q : Int} (h : Normalized m q) : pattern m q < infinityBits := by
  have hm := h.lt
  have hq := h.greatest
  have hp : twoPow 52 = 2 ^ 52 := rfl
  have hn : (q - leastExponent).toNat ≤ 2045 := by
    rw [leastExponent]
    omega
  unfold pattern infinityBits
  have := Nat.mul_le_mul_right (twoPow 52) hn
  rw [hp] at *
  omega

/-- A value that is rounded on the grid of the float itself. -/
theorem roundHalfEven_of_contains {m num den : Nat} {q : Int} (hd : 0 < den)
    (h : Contains m q ((num : ℚ) / den)) :
    roundHalfEven (timesPowerOfTwo num den (-q)).1 (timesPowerOfTwo num den (-q)).2 = m := by
  obtain ⟨hlow, hhigh, hodd⟩ := h
  have hu : (0 : ℚ) < 2 ^ q := by positivity
  have hle := le_lowEnd m q
  have hratio : ratio (timesPowerOfTwo num den (-q)) = (num : ℚ) / den / 2 ^ q := by
    rw [ratio_timesPowerOfTwo, zpow_neg, ← div_eq_mul_inv]
  rw [highEnd_eq] at hhigh hodd
  refine roundHalfEven_of_ratio (timesPowerOfTwo_den_pos hd num (-q)) ?_ ?_ fun ho => ?_
  · rw [hratio, le_div_iff₀ hu]
    linarith
  · rw [hratio, div_le_iff₀ hu]
    exact hhigh
  · obtain ⟨h1, h2⟩ := hodd ho
    rw [hratio, lt_div_iff₀ hu, div_lt_iff₀ hu]
    exact ⟨by linarith, h2⟩

/-- Below the binade of a float there are values in its interval only if it is the least there. -/
theorem eq_of_contains_of_lt {m : Nat} {q : Int} {v : ℚ} (hf : Normalized m q)
    (hq : leastExponent < q) (h : lowEnd m q ≤ v) (hv : v < 2 ^ (q + 52)) :
    m = 2 ^ 52 ∧ (2 ^ 52 - 1 / 4) * (2 : ℚ) ^ q ≤ v := by
  have hu : (0 : ℚ) < 2 ^ q := by positivity
  have hsplit : (2 : ℚ) ^ (q + 52) = 2 ^ q * 2 ^ 52 := by
    rw [zpow_add₀ two_ne_zero]
    norm_num
  have hle := le_lowEnd m q
  have hm : m = 2 ^ 52 := by
    by_contra hne
    have hge : (2 : ℚ) ^ 52 + 1 ≤ m := by
      have := hf.leading hq
      have hm : 2 ^ 52 + 1 ≤ m := by omega
      exact_mod_cast hm
    rw [hsplit] at hv
    nlinarith
  refine ⟨hm, ?_⟩
  have hb : below m q = 1 := if_pos ⟨hm, hq⟩
  rw [lowEnd, hb, hm, zpow_sub_two] at h
  push_cast at h
  linarith

theorem num_pos_of_contains {m num den : Nat} {q : Int} (hm : 0 < m)
    (h : Contains m q ((num : ℚ) / den)) : 0 < num := by
  have hpos : (0 : ℚ) < num / den := lt_of_lt_of_le (lowEnd_pos hm q) h.1
  by_contra hz
  rw [Nat.eq_zero_of_not_pos hz] at hpos
  simp at hpos

/-- The interval of a float ends inside its binade. -/
theorem lt_of_contains {m : Nat} {q : Int} {v : ℚ} (hf : Normalized m q) (h : Contains m q v) :
    v < 2 ^ (q + 53) := by
  have hu : (0 : ℚ) < 2 ^ q := by positivity
  have hm : (m : ℚ) + 1 ≤ 2 ^ 53 := by exact_mod_cast hf.lt
  have hsplit : (2 : ℚ) ^ (q + 53) = 2 ^ q * 2 ^ 53 := by
    rw [zpow_add₀ two_ne_zero]
    norm_num
  have hhigh := h.2.1
  rw [highEnd_eq] at hhigh
  rw [hsplit]
  nlinarith

/-- A value at most a quarter of a place below a binade is in the binade before it. -/
theorem floorLog2_below {num den : Nat} {q : Int} (hnum : 0 < num) (hd : 0 < den)
    (hlow : (2 ^ 52 - 1 / 4) * (2 : ℚ) ^ q ≤ num / den) (hv : (num : ℚ) / den < 2 ^ (q + 52)) :
    floorLog2 num den = q + 51 := by
  obtain ⟨hk1, hk2⟩ := floorLog2_bounds hnum hd
  have hu : (0 : ℚ) < 2 ^ q := by positivity
  have hsplit : (2 : ℚ) ^ (q + 51) = 2 ^ q * 2 ^ 51 := by
    rw [zpow_add₀ two_ne_zero]
    norm_num
  have hle : floorLog2 num den ≤ q + 51 := le_of_zpow_lt (lt_of_le_of_lt hk1 (by
    rw [add_assoc]
    exact hv))
  have hge : q + 51 ≤ floorLog2 num den := by
    refine le_of_zpow_lt (lt_of_le_of_lt ?_ hk2)
    rw [hsplit]
    linarith
  omega

/-- There the grid is finer, and the value is rounded up to the least float of the binade. -/
theorem roundHalfEven_below {num den : Nat} {q : Int} (hd : 0 < den)
    (hlow : (2 ^ 52 - 1 / 4) * (2 : ℚ) ^ q ≤ num / den) (hv : (num : ℚ) / den < 2 ^ (q + 52)) :
    roundHalfEven (timesPowerOfTwo num den (-(q - 1))).1
      (timesPowerOfTwo num den (-(q - 1))).2 = 2 ^ 53 := by
  have hu : (0 : ℚ) < 2 ^ q := by positivity
  have hratio : ratio (timesPowerOfTwo num den (-(q - 1))) = (num : ℚ) / den / 2 ^ q * 2 := by
    rw [ratio_timesPowerOfTwo, neg_sub, zpow_sub₀ two_ne_zero]
    ring
  have hsplit : (2 : ℚ) ^ (q + 52) = 2 ^ q * 2 ^ 52 := by
    rw [zpow_add₀ two_ne_zero]
    norm_num
  refine roundHalfEven_of_ratio (timesPowerOfTwo_den_pos hd num _) ?_ ?_ (by simp)
  · rw [hratio, ← div_le_iff₀ two_pos, le_div_iff₀ hu]
    push_cast
    linarith
  · rw [hratio, ← le_div_iff₀ two_pos, div_le_iff₀ hu]
    rw [hsplit] at hv
    push_cast
    linarith

/-- A significand that is rounded up into the next binade has the pattern of the least float there. -/
theorem pattern_carry {q : Int} (hq : leastExponent < q) :
    (q - 1 - leastExponent).toNat * twoPow 52 + 2 ^ 53 = pattern (2 ^ 52) q := by
  have hone : (q - leastExponent).toNat = (q - 1 - leastExponent).toNat + 1 := by omega
  have hp : twoPow 52 = 2 ^ 52 := rfl
  rw [pattern, hone, hp]
  omega

/-- **What a value in the interval of a float is rounded to is the float.** -/
theorem nearestBits_of_contains {m num den : Nat} {q : Int} (hf : Normalized m q) (hd : 0 < den)
    (h : Contains m q ((num : ℚ) / den)) : nearestBits num den = pattern m q := by
  have hnum := num_pos_of_contains hf.pos h
  have hinf := pattern_lt hf
  obtain ⟨hk1, hk2⟩ := floorLog2_bounds hnum hd
  unfold nearestBits
  rw [if_neg (by omega)]
  dsimp only
  by_cases hbinade : leastExponent < q ∧ (num : ℚ) / den < 2 ^ (q + 52)
  · -- just below its binade, where the grid is finer
    obtain ⟨hq, hv⟩ := hbinade
    obtain ⟨rfl, hlow⟩ := eq_of_contains_of_lt hf hq h.1 hv
    have hlog := floorLog2_below hnum hd hlow hv
    have hexp : max leastExponent (floorLog2 num den - 52) = q - 1 := by omega
    rw [hexp, roundHalfEven_below hd hlow hv, pattern_carry hq]
    exact Nat.min_eq_right hinf.le
  · -- on the grid of the float itself
    have hk : floorLog2 num den ≤ q + 52 := le_of_zpow_lt (lt_of_le_of_lt hk1 (by
      rw [add_assoc]
      exact lt_of_contains hf h))
    have hexp : max leastExponent (floorLog2 num den - 52) = q := by
      have hq := hf.least
      rcases eq_or_lt_of_le hq with heq | hlt
      · omega
      · have hge : (2 : ℚ) ^ (q + 52) ≤ num / den := not_lt.mp fun hv => hbinade ⟨hlt, hv⟩
        have : q + 52 ≤ floorLog2 num den := le_of_zpow_lt (lt_of_le_of_lt hge hk2)
        omega
    rw [hexp, roundHalfEven_of_contains hd h]
    exact Nat.min_eq_right hinf.le

/-! ## Fractions of one value -/

/-- Expanding a fraction does not change what it is rounded to. -/
theorem roundHalfEven_mul_right (n d : Nat) {k : Nat} (hk : 0 < k) :
    roundHalfEven (n * k) (d * k) = roundHalfEven n d := by
  have htwice : 2 * (n % d * k) = 2 * (n % d) * k := (Nat.mul_assoc ..).symm
  unfold roundHalfEven
  rw [Nat.mul_div_mul_right n d hk, Nat.mul_mod_mul_right, htwice]
  simp only [Nat.mul_lt_mul_right hk, Nat.mul_left_inj hk.ne']

theorem roundHalfEven_congr {p p' : Nat × Nat} (hp : 0 < p.2) (hp' : 0 < p'.2)
    (h : ratio p = ratio p') : roundHalfEven p.1 p.2 = roundHalfEven p'.1 p'.2 := by
  have hq : (0 : ℚ) < p.2 := by exact_mod_cast hp
  have hq' : (0 : ℚ) < p'.2 := by exact_mod_cast hp'
  have hcross : p.1 * p'.2 = p'.1 * p.2 := by
    rw [ratio, ratio, div_eq_div_iff hq.ne' hq'.ne'] at h
    exact_mod_cast h
  rw [← roundHalfEven_mul_right p.1 p.2 hp', ← roundHalfEven_mul_right p'.1 p'.2 hp, hcross,
    Nat.mul_comm p.2]

/-- **Fractions of one value are rounded alike.** -/
theorem nearestBits_congr {num den num' den' : Nat} (hd : 0 < den) (hd' : 0 < den')
    (h : (num : ℚ) / den = num' / den') : nearestBits num den = nearestBits num' den' := by
  have hq : (0 : ℚ) < den := by exact_mod_cast hd
  have hq' : (0 : ℚ) < den' := by exact_mod_cast hd'
  have hzero : num = 0 ↔ num' = 0 := by
    have hiff : (num : ℚ) / den = 0 ↔ (num' : ℚ) / den' = 0 := by rw [h]
    rwa [div_eq_zero_iff, div_eq_zero_iff, or_iff_left hq.ne', or_iff_left hq'.ne', Nat.cast_eq_zero,
      Nat.cast_eq_zero] at hiff
  by_cases hnum : num = 0
  · rw [nearestBits, nearestBits, if_pos hnum, if_pos (hzero.mp hnum)]
  have hnum' := mt hzero.mpr hnum
  -- both lie in one binade, and are rounded on its grid
  obtain ⟨hlow, hhigh⟩ := floorLog2_bounds (Nat.pos_of_ne_zero hnum) hd
  obtain ⟨hlow', hhigh'⟩ := floorLog2_bounds (Nat.pos_of_ne_zero hnum') hd'
  have hbinade : floorLog2 num den = floorLog2 num' den' :=
    le_antisymm (le_of_zpow_lt (hlow.trans_lt (h ▸ hhigh')))
      (le_of_zpow_lt (hlow'.trans_lt (h ▸ hhigh)))
  have hround : ∀ k, roundHalfEven (timesPowerOfTwo num den k).1 (timesPowerOfTwo num den k).2 =
      roundHalfEven (timesPowerOfTwo num' den' k).1 (timesPowerOfTwo num' den' k).2 := by
    intro k
    refine roundHalfEven_congr (timesPowerOfTwo_den_pos hd num k)
      (timesPowerOfTwo_den_pos hd' num' k) ?_
    rw [ratio_timesPowerOfTwo, ratio_timesPowerOfTwo, h]
  rw [nearestBits, nearestBits, if_neg hnum, if_neg hnum']
  dsimp only
  rw [hbinade, hround]

end ExactLisp.Binary64
