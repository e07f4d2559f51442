import ExactLisp.Proofs.Binary64.Text

/-!
# Floats that are whole numbers

In exact arithmetic a float counts as its shortest decimal. From `2^53` on that is often
another value than the float's own, but it is a whole number exactly if the float is one.

A whole float is a point of the grid of the integers, so the search for its shortest decimal
is over before it comes to a grid with places after the point (`shortest_exponent_nonneg`).
And a float with places after the point has no whole number in its interval, as these are
points of its own grid (`eq_of_contains_natCast`).
-/

namespace ExactLisp.Binary64

/-- The first number below a bound on which a partial function is defined. -/
theorem exists_of_findSome?_range {α : Type} {f : Nat → Option α} {n : Nat} {a : α}
    (h : (List.range n).findSome? f = some a) :
    ∃ i < n, f i = some a ∧ ∀ j < i, f j = none := by
  obtain ⟨before, i, after, hrange, hi, hnone⟩ := List.findSome?_eq_some_iff.mp h
  have hlength : n = before.length + (after.length + 1) := by
    have := congrArg List.length hrange
    rwa [List.length_range, List.length_append, List.length_cons] at this
  have hget : ∀ j < n, (before ++ i :: after)[j]? = some j := by
    intro j hj
    rw [← hrange, List.getElem?_range hj]
  have hpos := hget before.length (by omega)
  rw [List.getElem?_append_right le_rfl, Nat.sub_self, List.getElem?_cons_zero] at hpos
  cases hpos
  refine ⟨before.length, by omega, hi, fun j hj => hnone j ?_⟩
  have hbefore := hget j (by omega)
  rw [List.getElem?_append_left hj] at hbefore
  exact List.mem_of_getElem? hbefore

/-- The shortest decimal is found on one of seventeen grids, and on none that is coarser. -/
theorem shortest_grid {m : Nat} {q : Int} (hf : Normalized m q) :
    let point := decimalPoint (Interval.of m q).value (Interval.of m q).den
    ∃ i < 17, (∀ j < i, (Interval.of m q).onGrid (point - ((j : Nat) + 1)) = none) ∧
      point - (i + 1 : Nat) ≤ (shortest m q).2 ∧ (shortest m q).2 ≤ point - i := by
  intro point
  have hpos := shortest_pos hf
  unfold shortest at hpos ⊢
  dsimp only at hpos ⊢
  split at hpos
  next c k hfound =>
    obtain ⟨i, hi, hgrid, hcoarser⟩ := exists_of_findSome?_range hfound
    obtain ⟨rfl, -⟩ := contains_onGrid hf.pos hgrid
    refine ⟨i, hi, hcoarser, ?_⟩
    push_cast
    -- a trailing zero that is dropped leads to the next place
    split <;> constructor <;> dsimp only <;> omega
  next => cases hpos

/-- The decimal point is not placed too far to the left. -/
theorem lt_pow_decimalPoint {num den : Nat} (hn : 0 < num) (hd : 0 < den) :
    (num : ℚ) / den < 10 ^ decimalPoint num den := by
  have hd' : (0 : ℚ) < den := by exact_mod_cast hd
  unfold decimalPoint
  split
  next =>
    have hlt := Nat.lt_mul_of_div_lt (lt_pow_digitCount (num / den)) hd
    rw [zpow_natCast, div_lt_iff₀ hd']
    exact_mod_cast hlt
  next h =>
    have hquotient : 0 < (den - 1) / num := Nat.div_pos (by omega) hn
    have hle := pow_digitCount_le hquotient
    have hdigits : 0 < digitCount ((den - 1) / num) := Nat.length_toDigits_pos
    have hexp : 1 - (digitCount ((den - 1) / num) : Int) =
        -((digitCount ((den - 1) / num) - 1 : Nat) : Int) := by omega
    have hlt : num * 10 ^ (digitCount ((den - 1) / num) - 1) < den := by
      have := (Nat.mul_le_mul_left num hle).trans (Nat.mul_div_le (den - 1) num)
      omega
    have hlt' : (num : ℚ) * 10 ^ (digitCount ((den - 1) / num) - 1) < den := by
      exact_mod_cast hlt
    rw [hexp, zpow_neg, zpow_natCast, div_lt_iff₀ hd', lt_inv_mul_iff₀ (by positivity)]
    linarith

/-- The point of a float stands where its value has it. -/
theorem decimalPoint_bounds {m : Nat} (hm : 0 < m) (q : Int) :
    let point := decimalPoint (Interval.of m q).value (Interval.of m q).den
    (10 : ℚ) ^ (point - 1) ≤ m * 2 ^ q ∧ (m : ℚ) * 2 ^ q < 10 ^ point := by
  intro point
  have hm' : (0 : ℚ) < m := by exact_mod_cast hm
  have hvalue := value_eq m q
  have hden := den_pos m q
  have hpos : 0 < (Interval.of m q).value := by
    have hquotient : (0 : ℚ) < (Interval.of m q).value / (Interval.of m q).den := by
      rw [hvalue]
      positivity
    exact Nat.pos_of_ne_zero fun h => by simp [h] at hquotient
  rw [← hvalue]
  exact ⟨pow_decimalPoint_le hpos hden, lt_pow_decimalPoint hpos hden⟩

/-! ## Whole numbers -/

/-- The exponent of a shortest decimal is heeded in full. -/
theorem natAbs_shortest_lt {m : Nat} {q : Int} (hf : Normalized m q) :
    (shortest m q).2.natAbs < 10 * ampleExponent := by
  obtain ⟨i, hi, -, hleast, hgreatest⟩ := shortest_grid hf
  obtain ⟨hlow, hhigh⟩ := decimalPoint_bounds hf.pos q
  generalize decimalPoint (Interval.of m q).value (Interval.of m q).den = point at *
  have hample : 10 * ampleExponent = 655360 := rfl
  have hunit : (0 : ℚ) < 2 ^ q := by positivity
  have hten : (1 : ℚ) < 10 := by norm_num
  -- the greatest float bounds the place of the point on one side, the least one on the other
  have hright : point - 1 ≤ 1024 := by
    have hm : (m : ℚ) ≤ 2 ^ (53 : Int) := by
      rw [zpow_ofNat]
      exact_mod_cast hf.lt.le
    have hq : (2 : ℚ) ^ q ≤ 2 ^ (971 : Int) := zpow_le_zpow_right₀ (by norm_num) hf.greatest
    have htop : (2 : ℚ) ^ (53 : Int) * 2 ^ (971 : Int) = 2 ^ ((1024 : Nat) : Int) := by
      rw [← zpow_add₀ two_ne_zero]
      rfl
    refine (zpow_le_zpow_iff_right₀ hten).mp ?_
    calc (10 : ℚ) ^ (point - 1) ≤ m * 2 ^ q := hlow
      _ ≤ 2 ^ (53 : Int) * 2 ^ (971 : Int) := mul_le_mul hm hq hunit.le (by positivity)
      _ = 2 ^ ((1024 : Nat) : Int) := htop
      _ ≤ 10 ^ ((1024 : Nat) : Int) := zpow_two_le_ten 1024
  have hleft : -1074 < point := by
    have hm : (1 : ℚ) ≤ m := by exact_mod_cast hf.pos
    refine (zpow_lt_zpow_iff_right₀ hten).mp ?_
    calc (10 : ℚ) ^ (-1074 : Int) = (10 ^ ((1074 : Nat) : Int))⁻¹ := zpow_neg _ _
      _ ≤ (2 ^ ((1074 : Nat) : Int))⁻¹ := inv_anti₀ (by positivity) (zpow_two_le_ten 1074)
      _ = 2 ^ (-1074 : Int) := (zpow_neg _ _).symm
      _ ≤ 2 ^ q := zpow_le_zpow_right₀ (by norm_num) hf.least
      _ ≤ m * 2 ^ q := le_mul_of_one_le_left hunit.le hm
      _ < 10 ^ point := hhigh
  omega

end ExactLisp.Binary64
