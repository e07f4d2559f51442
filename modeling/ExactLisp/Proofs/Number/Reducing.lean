import ExactLisp.Proofs.Decimal.Stripped
import ExactLisp.Proofs.Number.Settled

/-!
# Reducing the forms of a number

What a decimal is reduced to goes by the number that it denotes. An integer is kept in 64 bits
if it fits there and exactly otherwise, and a fraction is its float if that is finite and is
kept exactly, without its trailing zeros, otherwise (`reduce_cases`).

The float is the one thing here that need not be the same for all forms of a number: it is
while all digits of the scale count (`toFloat_eq_of_value`), but beyond that zeros that are put
behind a fraction may change it. So two forms of an integer are always reduced to the same
number, and two forms of a fraction are exactly if they are read as the same float
(`reduce_eq_iff`).
-/

namespace ExactLisp

namespace Decimal

open Binary64 (ampleExponent heeded)

/-- A fraction is no integer. -/
theorem toInteger?_eq_none_iff {d : Decimal} :
    d.toInteger? = none ↔ ¬ ∃ n : Int, d.value = n := by
  rw [← isSome_toInteger?_iff, Bool.not_eq_true, Option.isSome_eq_false_iff,
    Option.isNone_iff_eq_none]

/-! ## Floats of one number -/

theorem abs_value (d : Decimal) : |d.value| = d.unscaled.natAbs * 10 ^ (-d.scale) := by
  rw [value, abs_mul, ← Int.cast_abs, ← Nat.cast_natAbs, abs_of_pos (by positivity)]

theorem unscaled_neg_iff {d : Decimal} : d.unscaled < 0 ↔ d.value < 0 := by
  have hplace : (0 : ℚ) < 10 ^ (-d.scale) := by positivity
  rw [value, ← Int.cast_lt_zero (R := ℚ), mul_neg_iff, or_iff_right fun h => lt_asymm hplace h.2,
    and_iff_left hplace]

/-- Forms of one number have the same sign. -/
theorem decide_unscaled_neg_congr {a b : Decimal} (h : a.value = b.value) :
    decide (a.unscaled < 0) = decide (b.unscaled < 0) := by
  rw [decide_eq_decide, unscaled_neg_iff, unscaled_neg_iff, h]

/-- **Forms of one number are read as the same float** while all digits of their scales count. -/
theorem toFloat_eq_of_value {a b : Decimal} (h : a.value = b.value)
    (ha : a.scale.natAbs < 10 * ampleExponent) (hb : b.scale.natAbs < 10 * ampleExponent) :
    a.toFloat = b.toFloat := by
  rw [toFloat, toFloat, decide_unscaled_neg_congr h, Binary64.heeded_of_natAbs_lt (by omega),
    Binary64.heeded_of_natAbs_lt (by omega)]
  refine Binary64.ofDecimal_congr _ ?_
  rw [← abs_value, ← abs_value, h]

end Decimal

namespace Number

open Binary64 (ampleExponent)

/-! ## The four outcomes -/

/-- **What a decimal is reduced to**, by the number that it denotes. -/
theorem reduce_cases (d : Decimal) :
    (∃ n : Int64, d.value = n.toInt ∧ reduce d = .int n) ∨
    (∃ n : Int, d.value = n ∧ fitsInt64 n = false ∧ reduce d = .big ⟨n, 0⟩) ∨
    ((¬ ∃ n : Int, d.value = n) ∧ Binary64.isFinite d.toFloat = true ∧
      reduce d = .float d.toFloat) ∨
    ((¬ ∃ n : Int, d.value = n) ∧ ¬ Binary64.isFinite d.toFloat = true ∧
      reduce d = .big d.stripped) := by
  cases hd : d.toInteger? with
  | some n =>
    have hvalue := Decimal.toInteger?_eq_some_iff.mp hd
    rw [reduce, hd]
    dsimp only
    cases hfits : fitsInt64 n with
    | true =>
      obtain ⟨hlow, hhigh⟩ := fitsInt64_iff.mp hfits
      refine Or.inl ⟨Int64.ofInt n, ?_, rfl⟩
      rw [hvalue, Int64.toInt_ofInt_of_le hlow hhigh]
    | false => exact Or.inr (Or.inl ⟨n, hvalue, hfits, rfl⟩)
  | none =>
    have hfraction := Decimal.toInteger?_eq_none_iff.mp hd
    by_cases hfinite : Binary64.isFinite d.toFloat = true
    · exact Or.inr (Or.inr (Or.inl ⟨hfraction, hfinite, reduce_eq_float hd hfinite⟩))
    · exact Or.inr (Or.inr (Or.inr ⟨hfraction, hfinite, reduce_eq_big hd hfinite⟩))

theorem reduce_eq_int_iff {d : Decimal} {n : Int64} :
    reduce d = .int n ↔ d.value = n.toInt := by
  rcases reduce_cases d with ⟨m, hm, h⟩ | ⟨m, hm, hbeyond, h⟩ | ⟨hfraction, -, h⟩ |
    ⟨hfraction, -, h⟩
  · rw [h, hm, int.injEq, Int.cast_inj, Int64.toInt_inj]
  · rw [h, hm, Int.cast_inj]
    exact iff_of_false (by simp) (toInt_ne_of_not_fits hbeyond).symm
  · rw [h]
    exact iff_of_false (by simp) fun hn => hfraction ⟨_, hn⟩
  · rw [h]
    exact iff_of_false (by simp) fun hn => hfraction ⟨_, hn⟩

theorem reduce_eq_whole_iff {d : Decimal} {n : Int} :
    reduce d = .big ⟨n, 0⟩ ↔ d.value = n ∧ fitsInt64 n = false := by
  rcases reduce_cases d with ⟨m, hm, h⟩ | ⟨m, hm, hbeyond, h⟩ | ⟨hfraction, -, h⟩ |
    ⟨hfraction, -, h⟩
  · rw [h, hm, Int.cast_inj]
    exact iff_of_false (by simp) fun hn => toInt_ne_of_not_fits hn.2 hn.1
  · rw [h, hm, Int.cast_inj, big.injEq, Decimal.mk.injEq, and_iff_left rfl]
    exact ⟨fun hmn => ⟨hmn, hmn ▸ hbeyond⟩, And.left⟩
  · rw [h]
    exact iff_of_false (by simp) fun hn => hfraction ⟨_, hn.1⟩
  · -- what is left of a fraction without its zeros is no integer either
    rw [h]
    refine iff_of_false (fun hn => hfraction ⟨n, ?_⟩) fun hn => hfraction ⟨_, hn.1⟩
    rw [← Decimal.value_stripped, big.inj hn]
    exact Decimal.value_ofInt n

theorem reduce_eq_float_iff {d : Decimal} {x : Float} :
    reduce d = .float x ↔
      (¬ ∃ n : Int, d.value = n) ∧ Binary64.isFinite d.toFloat = true ∧ x = d.toFloat := by
  rcases reduce_cases d with ⟨m, hm, h⟩ | ⟨m, hm, -, h⟩ | ⟨hfraction, hfinite, h⟩ |
    ⟨-, hinfinite, h⟩
  · rw [h]
    exact iff_of_false (by simp) fun hn => hn.1 ⟨_, hm⟩
  · rw [h]
    exact iff_of_false (by simp) fun hn => hn.1 ⟨_, hm⟩
  · rw [h, float.injEq, and_iff_right hfraction, and_iff_right hfinite, eq_comm]
  · rw [h]
    exact iff_of_false (by simp) fun hn => hinfinite hn.2.1

/-! ## Forms of one number -/

/-- **Forms of one number are reduced to the same number**, unless their floats differ. -/
theorem reduce_eq_iff {d e : Decimal} (h : d.value = e.value) :
    reduce d = reduce e ↔ (∃ n : Int, d.value = n) ∨ d.toFloat = e.toFloat := by
  by_cases hwhole : ∃ n : Int, d.value = n
  · obtain ⟨n, hn⟩ := hwhole
    refine iff_of_true ?_ (Or.inl ⟨n, hn⟩)
    rw [reduce, reduce, Decimal.toInteger?_eq_some_iff.mpr hn,
      Decimal.toInteger?_eq_some_iff.mpr (h ▸ hn)]
  rw [or_iff_right hwhole]
  have hd := Decimal.toInteger?_eq_none_iff.mpr hwhole
  have he := Decimal.toInteger?_eq_none_iff.mpr (h ▸ hwhole)
  by_cases hfinite : Binary64.isFinite d.toFloat = true <;>
    by_cases hfinite' : Binary64.isFinite e.toFloat = true
  · rw [reduce_eq_float hd hfinite, reduce_eq_float he hfinite', float.injEq]
  · rw [reduce_eq_float hd hfinite, reduce_eq_big he hfinite']
    exact iff_of_false (by simp) fun hsame => hfinite' (hsame ▸ hfinite)
  · rw [reduce_eq_big hd hfinite, reduce_eq_float he hfinite']
    exact iff_of_false (by simp) fun hsame => hfinite (hsame ▸ hfinite')
  · rw [reduce_eq_big hd hfinite, reduce_eq_big he hfinite', Decimal.stripped_eq_of_value h,
      Decimal.toFloat_eq_infinity hfinite, Decimal.toFloat_eq_infinity hfinite',
      Decimal.decide_unscaled_neg_congr h]
    exact iff_of_true rfl rfl

/-- What is kept in digits has the value that it was reduced from. -/
theorem exists_toDecimal?_reduce {d : Decimal} (h : ∀ x, reduce d ≠ .float x) :
    ∃ e, (reduce d).toDecimal? = some e ∧ d.value = e.value := by
  rcases reduce_cases d with ⟨n, hn, hd⟩ | ⟨n, hn, -, hd⟩ | ⟨-, -, hd⟩ | ⟨-, -, hd⟩
  · exact ⟨_, by rw [hd]; rfl, hn.trans (Decimal.value_ofInt _).symm⟩
  · exact ⟨_, by rw [hd]; rfl, hn.trans (Decimal.value_ofInt n).symm⟩
  · exact absurd hd (h _)
  · exact ⟨_, by rw [hd]; rfl, (Decimal.value_stripped d).symm⟩

/--
**Reduction goes by the value.** A decimal is reduced to an integer exactly if it denotes that
integer, in 64 bits or beyond them, to a float exactly if it is a fraction with a finite float,
and to its stripped form otherwise. Two equal decimals are reduced to the same number, if the
number is an integer or they are read as the same float, which they are as long as all digits
of their scales count. And what was kept in digits is reduced to itself on the same condition.
-/
theorem reduce_by_value (d : Decimal) :
    (∀ n : Int64, reduce d = .int n ↔ d.value = n.toInt) ∧
    (∀ n : Int, reduce d = .big ⟨n, 0⟩ ↔ d.value = n ∧ ¬ (-2 ^ 63 ≤ n ∧ n < 2 ^ 63)) ∧
    (∀ x, reduce d = .float x ↔
      (¬ ∃ n : Int, d.value = n) ∧ Binary64.isFinite d.toFloat = true ∧ x = d.toFloat) ∧
    ((¬ ∃ n : Int, d.value = n) ∧ ¬ Binary64.isFinite d.toFloat = true →
      reduce d = .big d.stripped) ∧
    (∀ e, (d == e) = true →
      (reduce d = reduce e ↔ (∃ n : Int, d.value = n) ∨ d.toFloat = e.toFloat) ∧
      (d.scale.natAbs < 10 * ampleExponent → e.scale.natAbs < 10 * ampleExponent →
        d.toFloat = e.toFloat)) ∧
    ((∀ x, reduce d ≠ .float x) →
      ∃ e, (reduce d).toDecimal? = some e ∧ (d == e) = true ∧
        (reduce e = reduce d ↔ (∃ n : Int, d.value = n) ∨ d.toFloat = e.toFloat)) := by
  refine ⟨fun n => reduce_eq_int_iff, fun n => ?_, fun x => reduce_eq_float_iff,
    fun ⟨hfraction, hinfinite⟩ =>
      reduce_eq_big (Decimal.toInteger?_eq_none_iff.mpr hfraction) hinfinite,
    fun e he => ?_, fun h => ?_⟩
  · rw [reduce_eq_whole_iff, ← fitsInt64_iff, Bool.not_eq_true]
  · have hvalue := Decimal.beq_iff_value.mp he
    exact ⟨reduce_eq_iff hvalue, Decimal.toFloat_eq_of_value hvalue⟩
  · obtain ⟨e, he, hvalue⟩ := exists_toDecimal?_reduce h
    exact ⟨e, he, Decimal.beq_iff_value.mpr hvalue, eq_comm.trans (reduce_eq_iff hvalue)⟩

/-- A fraction with a zero at its end that is too large for a float. -/
def vast : Decimal := ⟨(10 ^ 310 + 5) * 10, 2⟩

/-- For instance such a fraction, which is kept without the zero, and so is its stripped form. -/
theorem reduce_by_value_vast :
    let short : Decimal := ⟨10 ^ 310 + 5, 1⟩
    ((¬ ∃ n : Int, vast.value = n) ∧ ¬ Binary64.isFinite vast.toFloat = true ∧
      reduce vast = .big vast.stripped) ∧
    ((vast == short) = true ∧ vast.scale.natAbs < 10 * ampleExponent ∧
      short.scale.natAbs < 10 * ampleExponent ∧ reduce vast = reduce short) ∧
    (∀ x, reduce vast ≠ .float x) ∧
      ∃ e, (reduce vast).toDecimal? = some e ∧ (vast == e) = true := by
  intro short
  obtain ⟨-, -, hfloat, hkept, hforms, hlifted⟩ := reduce_by_value vast
  have hfraction : ¬ ∃ n : Int, vast.value = n :=
    Decimal.toInteger?_eq_none_iff.mp (by decide +kernel)
  have hinfinite : ¬ Binary64.isFinite vast.toFloat = true := by decide +kernel
  have hsame : (vast == short) = true := by decide +kernel
  have hheeded : vast.scale.natAbs < 10 * ampleExponent := by decide
  have hheeded' : short.scale.natAbs < 10 * ampleExponent := by decide
  have hdigits : ∀ x, reduce vast ≠ .float x := fun x hx => hinfinite ((hfloat x).mp hx).2.1
  obtain ⟨hiff, hread⟩ := hforms short hsame
  obtain ⟨e, he, hvalue, -⟩ := hlifted hdigits
  exact ⟨⟨hfraction, hinfinite, hkept ⟨hfraction, hinfinite⟩⟩,
    ⟨hsame, hheeded, hheeded', hiff.mpr (Or.inr (hread hheeded hheeded'))⟩, hdigits, e, he, hvalue⟩

end Number

end ExactLisp
