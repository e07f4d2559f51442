import ExactLisp.Proofs.Binary64.Rounding
import Mathlib

/-!
# Floats and their bits

A float is its bit pattern, and the pattern of a finite one is read off its shape
(`toNat_toBits`). So to know that rounding gives a certain float, it is enough to compare
patterns (`nearest_eq`). The patterns that rounding gives end at the one of infinity, so a
fraction is rounded to a finite float or to infinity, and never to NaN.
-/

namespace ExactLisp.Binary64

/-- The bits of a finite float. -/
theorem toNat_toBits {x : Float} {negative : Bool} {m : Nat} {q : Int}
    (h : shape x = .finite negative m q) :
    x.toBits.toNat = pattern m q + if negative then twoPow 63 else 0 := by
  have hlt := x.toBits.toNat_lt
  have h52 : twoPow 52 = 4503599627370496 := rfl
  have h63 : twoPow 63 = 9223372036854775808 := rfl
  unfold shape at h
  dsimp only at h
  generalize x.toBits.toNat = bits at *
  rw [pattern]
  simp only [h52, h63] at *
  have hsign : (if decide (9223372036854775808 ≤ bits) = true then 9223372036854775808 else 0) =
      9223372036854775808 * (bits / 9223372036854775808) := by
    split
    next hn =>
      have hn := of_decide_eq_true hn
      omega
    next hn =>
      have hn := of_decide_eq_false (Bool.not_eq_true _ ▸ hn)
      omega
  split at h
  · split at h <;> cases h
  · split at h
    · cases h
      rw [hsign, sub_self]
      omega
    · cases h
      rw [hsign, leastExponent]
      omega

/-- The significand and the exponent of a finite float are normalized. -/
theorem normalized_of_shape {x : Float} {negative : Bool} {m : Nat} {q : Int}
    (h : shape x = .finite negative m q) (hm : 0 < m) : Normalized m q := by
  have h52 : twoPow 52 = 4503599627370496 := rfl
  unfold shape at h
  dsimp only at h
  generalize x.toBits.toNat = bits at *
  rw [h52] at h
  split at h
  · split at h <;> cases h
  · split at h
    · cases h
      exact ⟨hm, by omega, le_rfl, by decide, fun hq => absurd hq (lt_irrefl _)⟩
    · cases h
      refine ⟨hm, by omega, ?_, by omega, fun _ => by omega⟩
      rw [leastExponent]
      omega

theorem exponent_of_shape_zero {x : Float} {negative : Bool} {q : Int}
    (h : shape x = .finite negative 0 q) : q = leastExponent := by
  have h52 : twoPow 52 = 4503599627370496 := rfl
  unfold shape at h
  dsimp only at h
  generalize x.toBits.toNat = bits at h
  rw [h52] at h
  split at h
  · split at h <;> cases h
  · split at h
    · exact (Shape.finite.inj h).2.2.symm
    · have := (Shape.finite.inj h).2.1
      omega

/-- Rounding gives a float if it gives its pattern. -/
theorem nearest_eq {x : Float} {negative : Bool} {m num den : Nat} {q : Int}
    (h : shape x = .finite negative m q) (hb : nearestBits num den = pattern m q) :
    nearest negative num den = x := by
  rw [nearest, hb, ← toNat_toBits h, UInt64.ofNat_toNat, Float.ofBits_toBits]

/-- A finite float equals itself. -/
theorem beq_self {x : Float} (h : isFinite x = true) : (x == x) = true := by
  rw [Float.beq_self_iff]
  rintro rfl
  have hnan : isFinite Float.nan = false := by decide
  rw [hnan] at h
  cases h

/-! ## Rounding past the largest float -/

/-- A pattern that is not past infinity is that of its float. -/
theorem toBits_ofBits {b : UInt64} (h : b.toNat % twoPow 63 ≤ infinityBits) :
    (Float.ofBits b).toBits = b := by
  have hvalid : Float.Model.Format.binary64.Valid b.toBitVec := by
    refine ⟨fun he hm => absurd ?_ hm⟩
    have hexponent := congrArg BitVec.toNat he
    rw [Float.Model.UnpackedFloat.unpackExponent_def, BitVec.extractLsb'_toNat,
      Nat.shiftRight_eq_div_pow] at hexponent
    rw [Float.Model.UnpackedFloat.unpackMantissa_def]
    apply BitVec.eq_of_toNat_eq
    rw [BitVec.extractLsb'_toNat, Nat.shiftRight_zero]
    have h52 : twoPow 52 = 4503599627370496 := rfl
    have h63 : twoPow 63 = 9223372036854775808 := rfl
    have hones : (-1#11).toNat = 2047 := rfl
    simp only [UInt64.toNat_toBitVec, hones, BitVec.toNat_ofNat, Nat.zero_mod] at hexponent ⊢
    simp only [infinityBits, h52, h63] at h
    omega
  have hpack := Float.Model.UnpackedFloat.pack_unpack_of_valid hvalid
  rw [Float.toBits, Float.ofBits, Float.Model.ofBits, Float.Model.pack]
  exact congrArg UInt64.ofBitVec hpack

theorem nearestBits_le (num den : Nat) : nearestBits num den ≤ infinityBits := by
  unfold nearestBits
  split
  · exact Nat.zero_le _
  · exact Nat.min_le_left ..

/-- The bits of a rounded fraction. -/
theorem toNat_toBits_nearest (negative : Bool) (num den : Nat) :
    (nearest negative num den).toBits.toNat =
      nearestBits num den + if negative then twoPow 63 else 0 := by
  have hle := nearestBits_le num den
  have h52 : twoPow 52 = 4503599627370496 := rfl
  have h63 : twoPow 63 = 9223372036854775808 := rfl
  simp only [infinityBits, h52] at hle
  have hbits : (UInt64.ofNat (nearestBits num den + if negative then twoPow 63 else 0)).toNat =
      nearestBits num den + if negative then twoPow 63 else 0 := by
    rw [UInt64.toNat_ofNat']
    apply Nat.mod_eq_of_lt
    rw [h63]
    split <;> omega
  rw [nearest, toBits_ofBits, hbits]
  rw [hbits, infinityBits, h52, h63]
  split <;> omega

/-- The exponent bits of a finite float are not all set. -/
theorem isFinite_iff (x : Float) : isFinite x = true ↔ x.toBits.toNat / twoPow 52 % 2048 ≠ 2047 := by
  unfold isFinite shape
  dsimp only
  by_cases hb : x.toBits.toNat / twoPow 52 % 2048 = 2047
  · rw [if_pos hb]
    by_cases hf : x.toBits.toNat % twoPow 52 = 0
    · simp [hb, hf]
    · simp [hb, hf]
  · rw [if_neg hb]
    by_cases hz : x.toBits.toNat / twoPow 52 % 2048 = 0
    · simp [hz]
    · simp [hb, hz]

/-- A fraction is rounded to a finite float or to infinity. -/
theorem isFinite_nearest (negative : Bool) (num den : Nat) :
    isFinite (nearest negative num den) = true ↔ nearestBits num den < infinityBits := by
  have hle := nearestBits_le num den
  have h52 : twoPow 52 = 4503599627370496 := rfl
  have h63 : twoPow 63 = 9223372036854775808 := rfl
  rw [isFinite_iff, toNat_toBits_nearest]
  simp only [infinityBits, h52, h63] at hle ⊢
  split <;> omega

theorem nearest_eq_infinity {negative : Bool} {num den : Nat}
    (h : ¬ isFinite (nearest negative num den) = true) :
    nearest negative num den = infinity negative := by
  rw [isFinite_nearest] at h
  rw [nearest, infinity, Nat.le_antisymm (nearestBits_le num den) (Nat.not_lt.mp h)]

end ExactLisp.Binary64
