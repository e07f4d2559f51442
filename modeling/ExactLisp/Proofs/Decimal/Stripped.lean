import ExactLisp.Proofs.Number.Canonical
import ExactLisp.Proofs.Number.Exact

/-!
# Decimals without trailing zeros

The forms of one number differ by the zeros at their end: of two forms, the one of larger
scale is the other one with zeros put behind it (`atScale_of_value`). So a form without
trailing zeros has the least scale of all (`scale_le_of_not_dvd`), and there is only one such
form. Stripping leads to it, and two decimals are equal exactly if their stripped forms are
the same (`beq_iff_stripped`).

In its stripped form a number shows whether it is whole: it is exactly if the scale is not
positive.
-/

namespace ExactLisp

namespace Decimal

/-! ## Stripping -/

/-- Zeros at the end make no difference to the number. -/
theorem value_zeros (m s : Int) (zeros : Nat) :
    (⟨m * tenPow zeros, s + zeros⟩ : Decimal).value = (⟨m, s⟩ : Decimal).value := by
  have hten : (10 : ℚ) ^ zeros ≠ 0 := by positivity
  simp only [value]
  rw [Int.cast_mul, Int.cast_natCast, Binary64.cast_tenPow, neg_add, zpow_add₀ ten_ne_zero,
    zpow_neg 10 (zeros : Int), zpow_natCast]
  field_simp

theorem stripped_of_unscaled_eq_zero {d : Decimal} (h : d.unscaled = 0) : d.stripped = zero :=
  if_pos h

/-- **Stripping keeps the number.** -/
theorem value_stripped (d : Decimal) : d.stripped.value = d.value := by
  by_cases hd : d.unscaled = 0
  · rw [stripped_of_unscaled_eq_zero hd, value_eq_zero_iff.mpr hd]
    exact value_eq_zero_iff.mpr rfl
  · obtain ⟨m, s, zeros, rfl, hstripped, -⟩ := exists_stripped hd
    rw [hstripped, value_zeros]

/-- As long as there is a zero at the end, one is stripped, and none is left when that is over. -/
theorem stripped_zeros {d : Decimal} (hd : d.unscaled ≠ 0) :
    ∃ zeros : Nat, d.unscaled = d.stripped.unscaled * tenPow zeros ∧
      d.stripped.scale = d.scale - zeros ∧ ¬ (10 : Int) ∣ d.stripped.unscaled := by
  obtain ⟨m, s, zeros, rfl, hstripped, hm⟩ := exists_stripped hd
  rw [hstripped]
  exact ⟨zeros, rfl, (add_sub_cancel_right s (zeros : Int)).symm, hm⟩

/-! ## Forms of one number -/

/-- Of two forms of a number, the one of larger scale is the other one with zeros behind it. -/
theorem atScale_of_value {a b : Decimal} (h : a.value = b.value) (hscale : a.scale ≤ b.scale) :
    a.atScale b.scale = b.unscaled := by
  have hten : (10 : ℚ) ^ b.scale ≠ 0 := by positivity
  have hcast : (a.atScale b.scale : ℚ) = b.unscaled := by
    rw [cast_atScale hscale, h, value, zpow_neg, inv_mul_cancel_right₀ hten]
  exact_mod_cast hcast

/-- A number has one form at each scale. -/
theorem eq_of_value {a b : Decimal} (h : a.value = b.value) (hscale : a.scale = b.scale) :
    a = b := by
  have hunscaled := atScale_of_value h hscale.le
  rw [atScale, hscale, sub_self] at hunscaled
  have hone : a.unscaled * tenPow (0 : Int).toNat = a.unscaled := Int.mul_one _
  rw [hone] at hunscaled
  obtain ⟨u, s⟩ := a
  obtain ⟨v, t⟩ := b
  dsimp only at hunscaled hscale
  rw [hunscaled, hscale]

/-- A form without a zero at its end has the least scale. -/
theorem scale_le_of_not_dvd {a b : Decimal} (ha : ¬ (10 : Int) ∣ a.unscaled)
    (h : a.value = b.value) : a.scale ≤ b.scale := by
  by_contra hlt
  obtain ⟨zeros, hzeros⟩ : ∃ zeros : Nat, (a.scale - b.scale).toNat = zeros + 1 :=
    ⟨(a.scale - b.scale).toNat - 1, by omega⟩
  refine ha ⟨b.unscaled * tenPow zeros, ?_⟩
  rw [← atScale_of_value h.symm (by omega), atScale, hzeros, tenPow_succ]
  push_cast
  ring

/-- **There is one form** without a zero at its end. -/
theorem eq_of_not_dvd {a b : Decimal} (ha : ¬ (10 : Int) ∣ a.unscaled)
    (hb : ¬ (10 : Int) ∣ b.unscaled) (h : a.value = b.value) : a = b :=
  eq_of_value h (le_antisymm (scale_le_of_not_dvd ha h) (scale_le_of_not_dvd hb h.symm))

theorem stripped_eq_of_value {a b : Decimal} (h : a.value = b.value) :
    a.stripped = b.stripped := by
  have hzero : a.unscaled = 0 ↔ b.unscaled = 0 := by
    rw [← value_eq_zero_iff, h, value_eq_zero_iff]
  by_cases ha : a.unscaled = 0
  · rw [stripped_of_unscaled_eq_zero ha, stripped_of_unscaled_eq_zero (hzero.mp ha)]
  · obtain ⟨-, -, -, ha'⟩ := stripped_zeros ha
    obtain ⟨-, -, -, hb'⟩ := stripped_zeros (mt hzero.mpr ha)
    refine eq_of_not_dvd ha' hb' ?_
    rw [value_stripped, value_stripped, h]

/-- **Decimals are equal** exactly if their stripped forms are the same. -/
theorem beq_iff_stripped {a b : Decimal} : (a == b) = true ↔ a.stripped = b.stripped := by
  rw [beq_iff_value]
  refine ⟨stripped_eq_of_value, fun h => ?_⟩
  rw [← value_stripped a, h, value_stripped]

/-! ## Whole numbers -/

theorem value_ofInt (n : Int) : (ofInt n).value = n := mul_one _

/-- **The integer of a decimal** is the one that it denotes, and there is none for a fraction. -/
theorem toInteger?_eq_some_iff {d : Decimal} {n : Int} :
    d.toInteger? = some n ↔ d.value = n := by
  refine ⟨value_of_toInteger?, fun hn => ?_⟩
  cases hd : d.toInteger? with
  | some m =>
    have hm : (m : ℚ) = n := (value_of_toInteger? hd).symm.trans hn
    rw [Int.cast_inj.mp hm]
  | none =>
    -- the places after the point would all be zeros
    obtain ⟨hscale, hrest⟩ := toInteger?_eq_none.mp hd
    have hvalue : (ofInt n).value = d.value := by rw [value_ofInt, hn]
    refine absurd ?_ hrest
    rw [← atScale_of_value hvalue hscale.le, atScale]
    exact Dvd.intro_left n (by simp [ofInt])

theorem isSome_toInteger?_iff {d : Decimal} :
    d.toInteger?.isSome = true ↔ ∃ n : Int, d.value = n := by
  simp only [Option.isSome_iff_exists, toInteger?_eq_some_iff]

/-- The two tests for an integer agree. -/
theorem isInteger_iff_isSome {d : Decimal} : d.isInteger = true ↔ d.toInteger?.isSome = true := by
  rw [isInteger, toInteger?, Bool.or_eq_true, decide_eq_true_eq, decide_eq_true_eq]
  split
  next hscale => exact iff_of_true (Or.inl hscale) rfl
  next hscale =>
    rw [or_iff_right hscale]
    split
    next hrest => exact iff_of_true hrest rfl
    next hrest => exact iff_of_false hrest Bool.false_ne_true

/-- A whole number has no places after the point once it is stripped. -/
theorem stripped_scale_nonpos_iff {d : Decimal} :
    d.stripped.scale ≤ 0 ↔ ∃ n : Int, d.value = n := by
  constructor
  · intro hscale
    rw [← value_stripped]
    exact ⟨_, toInteger?_eq_some_iff.mp (if_pos hscale)⟩
  · rintro ⟨n, hn⟩
    by_cases hd : d.unscaled = 0
    · rw [stripped_of_unscaled_eq_zero hd]
      exact le_rfl
    · obtain ⟨-, -, -, hlast⟩ := stripped_zeros hd
      have hvalue : d.stripped.value = (ofInt n).value := by rw [value_stripped, hn, value_ofInt]
      exact scale_le_of_not_dvd hlast hvalue

/-! ## The canonical form -/

/--
**Stripping gives a canonical form.** As many zeros are stripped as there are at the end, which
keeps the number and leaves zero at scale zero, or an unscaled part that ten does not divide.
Decimals are equal exactly if this leads to one unscaled part and one scale. A decimal is an
integer exactly if the stripped scale is not positive, both tests for it say so, and the
integer that is returned is the number.
-/
theorem stripped_canonical :
    (∀ d : Decimal, d.stripped.value = d.value ∧
      (d.unscaled = 0 ∧ d.stripped = zero ∨
        ∃ zeros : Nat, d.unscaled = d.stripped.unscaled * tenPow zeros ∧
          d.stripped.scale = d.scale - zeros ∧ ¬ (10 : Int) ∣ d.stripped.unscaled)) ∧
    (∀ a b : Decimal, (a == b) = true ↔
      a.stripped.unscaled = b.stripped.unscaled ∧ a.stripped.scale = b.stripped.scale) ∧
    ∀ d : Decimal, (d.isInteger = true ↔ d.toInteger?.isSome = true) ∧
      (d.toInteger?.isSome = true ↔ d.stripped.scale ≤ 0) ∧
      ∀ n : Int, d.toInteger? = some n ↔ d.value = n := by
  refine ⟨fun d => ⟨value_stripped d, ?_⟩, fun a b => ?_, fun d =>
    ⟨isInteger_iff_isSome, ?_, fun n => toInteger?_eq_some_iff⟩⟩
  · by_cases hd : d.unscaled = 0
    · exact Or.inl ⟨hd, stripped_of_unscaled_eq_zero hd⟩
    · exact Or.inr (stripped_zeros hd)
  · rw [beq_iff_stripped]
    cases a.stripped
    cases b.stripped
    rw [mk.injEq]
  · rw [isSome_toInteger?_iff, stripped_scale_nonpos_iff]

end Decimal

end ExactLisp
