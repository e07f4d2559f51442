import ExactLisp.Number.Arithmetic
import Mathlib

/-!
# Arithmetic on integers

Integers stay integers all the way: an operand is lifted to a decimal of scale zero, sums,
differences and products of such decimals have scale zero again, and the result is put
into 64 bits if it fits there and kept as an exact integer otherwise. So no operation on
integers wraps or loses a digit, whichever of the two forms its operands come in.

Division is different, as it works at a scale of its own. There the quotient of a multiple
is the factor followed by zeros (`div?_mul_ofInt`), which reduces to the factor.
-/

namespace ExactLisp

namespace Decimal

/-! ## Decimals of scale zero -/

theorem atScale_ofInt (a : Int) : (ofInt a).atScale 0 = a := Int.mul_one a

theorem ofInt_add (a b : Int) : ofInt a + ofInt b = ofInt (a + b) := by
  change (⟨(ofInt a).atScale 0 + (ofInt b).atScale 0, 0⟩ : Decimal) = _
  rw [atScale_ofInt, atScale_ofInt]
  rfl

theorem ofInt_sub (a b : Int) : ofInt a - ofInt b = ofInt (a - b) := by
  change (⟨(ofInt a).atScale 0 - (ofInt b).atScale 0, 0⟩ : Decimal) = _
  rw [atScale_ofInt, atScale_ofInt]
  rfl

theorem ofInt_mul (a b : Int) : ofInt a * ofInt b = ofInt (a * b) := by
  have hscale : max leastScale (min greatestScale (0 + 0)) = 0 := by decide
  change (⟨a * b, max leastScale (min greatestScale (0 + 0))⟩ : Decimal) = _
  rw [hscale]
  rfl

/-! ## Quotients of multiples -/

/-- A multiple is divided without a rest, so there is nothing to round. -/
theorem roundHalfAway_mul (n : Int) {d : Int} (hd : d ≠ 0) : roundHalfAway (n * d) d = n := by
  have hrest : (n * d).tmod d = 0 := Int.mul_tmod_left n d
  have hlarge : ¬ d.natAbs ≤ 2 * ((n * d).tmod d).natAbs := by
    rw [hrest]
    omega
  simp only [roundHalfAway, if_neg hlarge]
  exact Int.mul_tdiv_cancel n hd

/-- The quotient of a multiple, at any scale, is the factor with zeros after the point. -/
theorem div?_mul_ofInt (m : Int) {n : Int} (hn : n ≠ 0) {scale : Nat}
    (hscale : (scale : Int) ≤ greatestScale) :
    (ofInt (m * n)).div? (ofInt n) scale = some ⟨m * tenPow scale, scale⟩ := by
  have hshift : (scale : Int) + (ofInt n).scale - (ofInt (m * n)).scale = scale := by
    simp [ofInt]
  have hzero : ¬ (ofInt n).isZero = true := by
    rw [isZero, decide_eq_true_eq]
    exact hn
  have hfits : ¬ ((ofInt n).isZero = true ∨ greatestScale < scale ∨
      greatestShift < (scale : Int).natAbs) := by
    have hgreatest : greatestScale < greatestShift := by decide
    rintro (h | h | h)
    · exact hzero h
    · omega
    · rw [Int.natAbs_natCast] at h
      omega
  simp only [div?]
  rw [hshift, if_neg hfits, if_pos (Int.natCast_nonneg scale), Int.toNat_natCast]
  change some (⟨roundHalfAway (m * n * tenPow scale) n, scale⟩ : Decimal) = _
  rw [Int.mul_right_comm, roundHalfAway_mul _ hn]

theorem toInteger?_ofInt (n : Int) : (ofInt n).toInteger? = some n := by
  change some (n * 1) = some n
  rw [Int.mul_one]

/-- Zeros after the point do not count. -/
theorem toInteger?_mul_tenPow (n : Int) (scale : Nat) :
    (⟨n * tenPow scale, scale⟩ : Decimal).toInteger? = some n := by
  have hpos : (tenPow scale : Int) ≠ 0 := by
    have h := tenPow_pos scale
    omega
  rw [toInteger?]
  by_cases hscale : (scale : Int) ≤ 0
  · obtain rfl : scale = 0 := by omega
    rw [if_pos hscale]
    change some (n * 1 * 1) = some n
    rw [Int.mul_one, Int.mul_one]
  · rw [if_neg hscale]
    change (if (n * (tenPow scale : Int)).tmod (tenPow scale) = 0 then
      some ((n * (tenPow scale : Int)).tdiv (tenPow scale)) else none) = some n
    rw [if_pos (Int.mul_tmod_left _ _), Int.mul_tdiv_cancel _ hpos]

end Decimal

namespace Number

/-! ## The integer that a number is -/

/-- Whether a number is the integer `n`, in 64 bits or as an exact decimal of scale zero. -/
inductive IsInteger : Number → Int → Prop
  | int (n : Int64) : IsInteger (.int n) n.toInt
  | big (n : Int) : IsInteger (.big ⟨n, 0⟩) n

/-- A number is the integer `n` in the form that results have: 64 bits exactly if they suffice. -/
structure IsCanonical (r : Number) (n : Int) : Prop where
  isInteger : r.IsInteger n
  narrow : (∃ m, r = .int m) ↔ -2 ^ 63 ≤ n ∧ n < 2 ^ 63

theorem IsInteger.lift_eq {a : Number} {n : Int} (h : a.IsInteger n) :
    a.lift = .ok (Decimal.ofInt n) := by
  cases h <;> rfl

theorem fitsInt64_iff {n : Int} : fitsInt64 n = true ↔ -2 ^ 63 ≤ n ∧ n < 2 ^ 63 := by
  have hleast : Int64.minValue.toInt = -2 ^ 63 := by decide
  have hgreatest : Int64.maxValue.toInt = 2 ^ 63 - 1 := by decide
  rw [fitsInt64, hleast, hgreatest, Bool.and_eq_true, decide_eq_true_eq, decide_eq_true_eq]
  omega

/-- A whole value is reduced to the integer that it is. -/
theorem isCanonical_reduce {d : Decimal} {n : Int} (h : d.toInteger? = some n) :
    (reduce d).IsCanonical n := by
  rw [reduce, h]
  dsimp only
  by_cases hn : fitsInt64 n = true
  · rw [if_pos hn]
    obtain ⟨hlow, hhigh⟩ := fitsInt64_iff.mp hn
    have hkept : (Int64.ofInt n).toInt = n := Int64.toInt_ofInt_of_le hlow hhigh
    refine ⟨?_, iff_of_true ⟨_, rfl⟩ ⟨hlow, hhigh⟩⟩
    have hint := IsInteger.int (Int64.ofInt n)
    rwa [hkept] at hint
  · rw [if_neg hn]
    refine ⟨.big n, iff_of_false ?_ (mt fitsInt64_iff.mpr hn)⟩
    rintro ⟨m, hm⟩
    cases hm

/-! ## Running totals -/

/-- An operation that is exact on integers is exact on any number of them. -/
theorem foldExact_of_isInteger (op : Decimal → Decimal → Decimal) (opInt : Int → Int → Int)
    (hop : ∀ a b, op (Decimal.ofInt a) (Decimal.ofInt b) = Decimal.ofInt (opInt a b))
    {numbers : List Number} {ns : List Int} (h : List.Forall₂ IsInteger numbers ns)
    (total : Int) :
    foldExact (fun a b => .ok (op a b)) (Decimal.ofInt total) numbers =
      .ok (Decimal.ofInt (ns.foldl opInt total)) := by
  induction h generalizing total with
  | nil => rfl
  | cons hn _ ih =>
    rw [foldExact, hn.lift_eq]
    dsimp only
    rw [hop]
    exact ih _

theorem foldl_sub (ns : List Int) (total : Int) :
    ns.foldl (fun a b => a - b) total = total - ns.sum := by
  induction ns generalizing total with
  | nil => simp
  | cons n rest ih =>
    rw [List.foldl_cons, ih, List.sum_cons]
    omega

/-- Results are reduced, so a whole total is canonical. -/
theorem exists_isCanonical {total : Except ArithmeticFault Decimal} {d : Decimal} {n : Int}
    (h : total = .ok d) (hd : d.toInteger? = some n) :
    ∃ r, total.map reduce = .ok r ∧ r.IsCanonical n :=
  ⟨reduce d, by rw [h]; rfl, isCanonical_reduce hd⟩

theorem exists_sum {numbers : List Number} {ns : List Int}
    (h : List.Forall₂ IsInteger numbers ns) :
    ∃ r, sum numbers = .ok r ∧ r.IsCanonical ns.sum := by
  have htotal := foldExact_of_isInteger (fun a b => a + b) (fun a b => a + b)
    Decimal.ofInt_add h 0
  rw [← List.sum_eq_foldl] at htotal
  exact exists_isCanonical htotal (Decimal.toInteger?_ofInt _)

theorem exists_product {numbers : List Number} {ns : List Int}
    (h : List.Forall₂ IsInteger numbers ns) :
    ∃ r, product numbers = .ok r ∧ r.IsCanonical ns.prod := by
  have htotal := foldExact_of_isInteger (fun a b => a * b) (fun a b => a * b)
    Decimal.ofInt_mul h 1
  rw [← List.prod_eq_foldl] at htotal
  exact exists_isCanonical htotal (Decimal.toInteger?_ofInt _)

theorem exists_difference {first : Number} {n : Int} (hn : first.IsInteger n)
    {rest : List Number} {ns : List Int} (h : List.Forall₂ IsInteger rest ns) :
    ∃ r, difference first rest = .ok r ∧ r.IsCanonical (n - ns.sum) := by
  have htotal := foldExact_of_isInteger (fun a b => a - b) (fun a b => a - b)
    Decimal.ofInt_sub h n
  rw [foldl_sub] at htotal
  rw [difference, hn.lift_eq]
  exact exists_isCanonical htotal (Decimal.toInteger?_ofInt _)

/-- What was multiplied by a number is got back by dividing by it. -/
theorem exists_quotient {p b : Number} {m n : Int} (hp : p.IsInteger (m * n))
    (hb : b.IsInteger n) (hn : n ≠ 0) : ∃ r, quotient p [b] = .ok r ∧ r.IsCanonical m := by
  -- the factor is followed by as many zeros as quotients have decimals
  have hstep : divideStep (Decimal.ofInt (m * n)) (Decimal.ofInt n) =
      .ok ⟨m * tenPow quotientScale, quotientScale⟩ := by
    rw [divideStep, Decimal.div?_mul_ofInt m hn (by decide)]
  have hfold : foldExact divideStep (Decimal.ofInt (m * n)) [b] =
      .ok ⟨m * tenPow quotientScale, quotientScale⟩ := by
    rw [foldExact, hb.lift_eq]
    dsimp only
    rw [hstep]
    rfl
  rw [quotient, hp.lift_eq]
  exact exists_isCanonical hfold (Decimal.toInteger?_mul_tenPow m quotientScale)

/--
**Arithmetic on integers is that of the integers.** Any number of integers, each in either
of its forms, has the sum, the product and the difference that the integers have, in 64
bits exactly if the result fits there. Dividing a product by one of its two factors, if it
is not zero, gives the other one back.
-/
theorem integers_exact :
    (∀ numbers ns, List.Forall₂ IsInteger numbers ns →
      (∃ r, sum numbers = .ok r ∧ r.IsCanonical ns.sum) ∧
      (∃ r, product numbers = .ok r ∧ r.IsCanonical ns.prod)) ∧
    (∀ first n rest ns, IsInteger first n → List.Forall₂ IsInteger rest ns →
      ∃ r, difference first rest = .ok r ∧ r.IsCanonical (n - ns.sum)) ∧
    (∀ a m b n, IsInteger a m → IsInteger b n → n ≠ 0 →
      ∃ p r, product [a, b] = .ok p ∧ quotient p [b] = .ok r ∧ r.IsCanonical m) := by
  refine ⟨fun numbers ns h => ⟨exists_sum h, exists_product h⟩,
    fun first n rest ns hn h => exists_difference hn h, fun a m b n ha hb hn => ?_⟩
  obtain ⟨p, hp, hcanonical⟩ := exists_product (.cons ha (.cons hb .nil))
  have hprod : [m, n].prod = m * n := by simp
  rw [hprod] at hcanonical
  obtain ⟨r, hr, hm⟩ := exists_quotient hcanonical.isInteger hb hn
  exact ⟨p, r, hp, hr, hm⟩

/--
For instance across the end of the 64-bit range: one more than the greatest integer, one
less again, and three times as much with the sign changed, divided by minus three.
-/
theorem integers_exact_beyond :
    let greatest : Number := .int Int64.maxValue
    let beyond : Number := .big ⟨2 ^ 63, 0⟩
    (List.Forall₂ IsInteger [greatest, .big ⟨1, 0⟩] [2 ^ 63 - 1, 1] ∧
      ∃ r, sum [greatest, .big ⟨1, 0⟩] = .ok r ∧ r.IsCanonical [2 ^ 63 - 1, 1].sum) ∧
    ((IsInteger beyond (2 ^ 63) ∧ List.Forall₂ IsInteger [.int 1] [1]) ∧
      ∃ r, difference beyond [.int 1] = .ok r ∧ r.IsCanonical (2 ^ 63 - [1].sum)) ∧
    ((IsInteger greatest (2 ^ 63 - 1) ∧ IsInteger (.int (-3)) (-3) ∧ (-3 : Int) ≠ 0) ∧
      ∃ p r, product [greatest, .int (-3)] = .ok p ∧ quotient p [.int (-3)] = .ok r ∧
        r.IsCanonical (2 ^ 63 - 1)) := by
  intro greatest beyond
  have hgreatest : IsInteger greatest (2 ^ 63 - 1) := .int Int64.maxValue
  have hbeyond : IsInteger beyond (2 ^ 63) := .big _
  have hone : IsInteger (.int 1) 1 := .int 1
  have hthree : IsInteger (.int (-3)) (-3) := .int (-3)
  have hadded : List.Forall₂ IsInteger [greatest, .big ⟨1, 0⟩] [2 ^ 63 - 1, 1] :=
    .cons hgreatest (.cons (.big 1) .nil)
  have htaken : List.Forall₂ IsInteger [.int 1] [1] := .cons hone .nil
  have hnonzero : (-3 : Int) ≠ 0 := by decide
  exact ⟨⟨hadded, (integers_exact.1 _ _ hadded).1⟩,
    ⟨⟨hbeyond, htaken⟩, integers_exact.2.1 _ _ _ _ hbeyond htaken⟩,
    ⟨⟨hgreatest, hthree, hnonzero⟩, integers_exact.2.2 _ _ _ _ hgreatest hthree hnonzero⟩⟩

end Number

end ExactLisp
