import ExactLisp.Proofs.Binary64.Range
import ExactLisp.Proofs.Number.Whole

/-!
# Canonical numbers

Reducing a decimal gives the canonical form of its number, with one exception. Whether a
fraction is kept exactly is decided by its float, and the float is taken before the trailing
zeros are stripped. Up to `10 * ampleExponent` places that makes no difference, as the float
depends on the value alone. A scale beyond that is not heeded in full: a decimal with that
many places is taken for a far greater one, may have an infinite float, and is kept, though
with its zeros stripped it has a finite one. Decimals that this can happen to are called far
(`Decimal.IsFar`); all others are reduced to canonical numbers (`canonical_reduce`).

Whole numbers have one form for each integer. So two of them are equal exactly if they are the
same integer (`beq_eq_decide`).
-/

namespace ExactLisp

/-! ## Trailing zeros -/

namespace Decimal

/-- A positive number without its trailing zeros. -/
theorem exists_trailingZeros {n : Nat} (hn : 0 < n) :
    ∃ m, n = m * tenPow (trailingZeros n) ∧ m % 10 ≠ 0 := by
  fun_induction trailingZeros n with
  | case1 n h ih =>
    obtain ⟨m, hm, hlast⟩ := ih (by omega)
    refine ⟨m, ?_, hlast⟩
    rw [tenPow_succ, Nat.mul_left_comm, ← hm]
    omega
  | case2 n h => exact ⟨n, (Nat.mul_one n).symm, by omega⟩

/-- A decimal other than zero is its stripped form with zeros put back. -/
theorem exists_stripped {d : Decimal} (hd : d.unscaled ≠ 0) :
    ∃ (m s : Int) (zeros : Nat), d = ⟨m * tenPow zeros, s + zeros⟩ ∧ d.stripped = ⟨m, s⟩ ∧
      ¬ (10 : Int) ∣ m := by
  obtain ⟨unscaled, scale⟩ := d
  obtain ⟨k, hk, hlast⟩ := exists_trailingZeros (Int.natAbs_pos.mpr hd)
  simp only [stripped, if_neg hd]
  generalize trailingZeros unscaled.natAbs = zeros at *
  have hpos : (tenPow zeros : Int) ≠ 0 := by exact_mod_cast (tenPow_pos zeros).ne'
  obtain ⟨m, rfl, hm⟩ : ∃ m : Int, unscaled = m * tenPow zeros ∧ m.natAbs = k := by
    rcases Int.natAbs_eq unscaled with h | h
    · exact ⟨k, by rw [h, hk]; push_cast; rfl, Int.natAbs_natCast k⟩
    · exact ⟨-k, by rw [h, hk]; push_cast; ring, by omega⟩
  refine ⟨m, scale - zeros, zeros, by rw [Int.sub_add_cancel], ?_, by omega⟩
  rw [Int.mul_tdiv_cancel m hpos]

/-- A decimal is no integer if not all its places are zeros. -/
theorem toInteger?_eq_none {d : Decimal} :
    d.toInteger? = none ↔ 0 < d.scale ∧ ¬ (tenPow d.scale.toNat : Int) ∣ d.unscaled := by
  rw [toInteger?, Int.dvd_iff_tmod_eq_zero]
  split
  · simp only [reduceCtorEq, false_iff]
    omega
  · split
    next hzero => simp [hzero]
    next hrest => exact iff_of_true rfl ⟨by omega, hrest⟩

/-- The integer that a decimal is has its value. -/
theorem value_of_toInteger? {d : Decimal} {n : Int} (h : d.toInteger? = some n) :
    (d.unscaled : ℚ) * 10 ^ (-d.scale) = n := by
  obtain ⟨u, s⟩ := d
  rw [toInteger?] at h
  dsimp only at h ⊢
  split at h
  next hs =>
    obtain ⟨k, hk⟩ : ∃ k : Nat, -s = k := ⟨(-s).toNat, by omega⟩
    rw [hk, Int.toNat_natCast] at h
    cases h
    rw [hk, zpow_natCast, Int.cast_mul, Int.cast_natCast, Binary64.cast_tenPow]
  next hs =>
    split at h
    next hrest =>
      obtain ⟨k, rfl⟩ : ∃ k : Nat, s = k := ⟨s.toNat, by omega⟩
      rw [Int.toNat_natCast] at h hrest
      obtain ⟨c, rfl⟩ := Int.dvd_of_tmod_eq_zero hrest
      have hpos : (tenPow k : Int) ≠ 0 := by exact_mod_cast (tenPow_pos k).ne'
      have hten : (10 : ℚ) ^ k ≠ 0 := by positivity
      rw [Int.mul_tdiv_cancel_left _ hpos] at h
      cases h
      rw [Int.cast_mul, Int.cast_natCast, Binary64.cast_tenPow, zpow_neg, zpow_natCast]
      field_simp
    next => cases h

theorem unscaled_ne_zero_of_fraction {d : Decimal} (hd : d.toInteger? = none) :
    d.unscaled ≠ 0 := by
  intro hzero
  exact (toInteger?_eq_none.mp hd).2 (hzero ▸ dvd_zero _)

/-- A fraction stays one without its trailing zeros. -/
theorem stripped_fraction {m s : Int} {zeros : Nat}
    (hd : (⟨m * tenPow zeros, s + zeros⟩ : Decimal).toInteger? = none) (hm : ¬ (10 : Int) ∣ m) :
    0 < s ∧ (⟨m, s⟩ : Decimal).toInteger? = none := by
  obtain ⟨hscale, hrest⟩ := toInteger?_eq_none.mp hd
  dsimp only at hscale hrest
  have hs : 0 < s := by
    by_contra hle
    -- all places are among the zeros
    obtain ⟨n, hn⟩ : ∃ n : Nat, zeros = (s + zeros).toNat + n := ⟨(-s).toNat, by omega⟩
    refine hrest ?_
    rw [hn, tenPow_add]
    push_cast
    exact Dvd.dvd.mul_left (Dvd.intro _ (by congr; omega)) m
  refine ⟨hs, toInteger?_eq_none.mpr ⟨hs, fun hdvd => hm (dvd_trans ?_ hdvd)⟩⟩
  obtain ⟨n, hn⟩ : ∃ n : Nat, s.toNat = n + 1 := ⟨s.toNat - 1, by omega⟩
  rw [hn, tenPow_succ]
  push_cast
  exact Dvd.intro _ rfl

/-! ## Floats of decimals -/

open Binary64 (ampleExponent heeded infinity)

theorem isFinite_toFloat_iff (d : Decimal) :
    Binary64.isFinite d.toFloat = true ↔
      (d.unscaled.natAbs : ℚ) * 10 ^ heeded (-d.scale) < Binary64.overflow :=
  Binary64.isFinite_ofDecimal_iff ..

theorem toFloat_eq_infinity {d : Decimal} (h : ¬ Binary64.isFinite d.toFloat = true) :
    d.toFloat = infinity (d.unscaled < 0) :=
  (Binary64.ofDecimal_finite_or_infinity ..).resolve_left h

/-- Zeros put back make no difference as long as the scale is heeded. -/
theorem isFinite_toFloat_zeros (m : Int) {s : Int} {zeros : Nat} (hs : 0 < s)
    (h : s + zeros < 10 * ampleExponent) :
    Binary64.isFinite (⟨m * tenPow zeros, s + zeros⟩ : Decimal).toFloat = true ↔
      Binary64.isFinite (⟨m, s⟩ : Decimal).toFloat = true := by
  have hall : heeded (-(s + zeros)) = -(s + zeros) := Binary64.heeded_of_natAbs_lt (by omega)
  have hstripped : heeded (-s) = -s := Binary64.heeded_of_natAbs_lt (by omega)
  have hvalue : ((m * tenPow zeros).natAbs : ℚ) * 10 ^ (-(s + zeros)) = m.natAbs * 10 ^ (-s) := by
    have hten : (10 : ℚ) ^ zeros ≠ 0 := by positivity
    rw [Int.natAbs_mul, Int.natAbs_natCast, Nat.cast_mul, Binary64.cast_tenPow, neg_add,
      zpow_add₀ (by norm_num), zpow_neg 10 (zeros : Int), zpow_natCast]
    field_simp
  rw [isFinite_toFloat_iff, isFinite_toFloat_iff]
  dsimp only
  rw [hall, hstripped, hvalue]

/--
A fraction that ends in zeros, has as many places as are not heeded in full, and has an infinite
float.
-/
structure IsFar (d : Decimal) : Prop where
  fraction : d.toInteger? = none
  unstripped : (10 : Int) ∣ d.unscaled
  unheeded : 10 * ampleExponent ≤ d.scale
  infinite : d.toFloat = infinity (d.unscaled < 0)

/-- Where there is a zero to strip, the last digit is one. -/
theorem ten_dvd_unscaled (m : Int) {zeros : Nat} (h : zeros ≠ 0) :
    (10 : Int) ∣ m * tenPow zeros := by
  obtain ⟨n, rfl⟩ := Nat.exists_eq_succ_of_ne_zero h
  rw [tenPow_succ, Nat.cast_mul]
  exact Dvd.dvd.mul_left (Dvd.intro _ rfl) m

/-- A fraction without its trailing zeros is one that does not end in a zero. -/
theorem toInteger?_stripped {d : Decimal} (hd : d.toInteger? = none) :
    d.stripped.toInteger? = none ∧ ¬ (10 : Int) ∣ d.stripped.unscaled := by
  obtain ⟨m, s, zeros, rfl, hstripped, hm⟩ := exists_stripped (unscaled_ne_zero_of_fraction hd)
  rw [hstripped]
  exact ⟨(stripped_fraction hd hm).2, hm⟩

end Decimal

namespace Number

/-! ## Forms of numbers -/

/-- The forms that numbers have: each value its narrowest one. -/
inductive Canonical : Number → Prop
  | int (n : Int64) : Canonical (.int n)
  | float (x : Float) : Canonical (.float x)
  /-- An integer that does not fit in 64 bits. -/
  | whole {n : Int} : fitsInt64 n = false → Canonical (.big ⟨n, 0⟩)
  /-- A fraction without trailing zeros that is no finite float. -/
  | fraction {d : Decimal} : d.toInteger? = none → ¬ (10 : Int) ∣ d.unscaled →
    d.toFloat = Binary64.infinity (d.unscaled < 0) → Canonical (.big d)

/-- The forms that reducing gives: the canonical ones, and what far decimals are reduced to. -/
def Reduced (n : Number) : Prop := n.Canonical ∨ ∃ d : Decimal, d.IsFar ∧ reduce d = n

/-- A fraction is kept exactly if its float is infinite. -/
theorem reduce_eq_big {d : Decimal} (hd : d.toInteger? = none)
    (hinfinite : ¬ Binary64.isFinite d.toFloat = true) : reduce d = .big d.stripped := by
  rw [reduce, hd]
  exact if_neg hinfinite

/-- **What is not far is reduced to a canonical number.** -/
theorem canonical_reduce {d : Decimal} (hnear : ¬ d.IsFar) : (reduce d).Canonical := by
  cases hd : d.toInteger? with
  | some n =>
    rw [reduce, hd]
    dsimp only
    cases hfits : fitsInt64 n with
    | true => exact .int _
    | false => exact .whole hfits
  | none =>
    by_cases hfinite : Binary64.isFinite d.toFloat = true
    · rw [reduce, hd]
      dsimp only
      rw [if_pos hfinite]
      exact .float _
    obtain ⟨m, s, zeros, rfl, hstripped, hm⟩ :=
      Decimal.exists_stripped (Decimal.unscaled_ne_zero_of_fraction hd)
    obtain ⟨hs, hfraction⟩ := Decimal.stripped_fraction hd hm
    have hinfinity := Decimal.toFloat_eq_infinity hfinite
    rw [reduce_eq_big hd hfinite, hstripped]
    -- the float is that of the stripped form, as no zero is stripped or all places are heeded
    rcases Nat.eq_zero_or_pos zeros with rfl | hzeros
    · have hone : (tenPow 0 : Int) = 1 := rfl
      rw [hone, Int.mul_one, Int.natCast_zero, Int.add_zero] at hinfinity
      exact .fraction hfraction hm hinfinity
    · have hheeded : s + zeros < 10 * Binary64.ampleExponent := by
        by_contra hunheeded
        exact hnear ⟨hd, Decimal.ten_dvd_unscaled m hzeros.ne', not_lt.mp hunheeded, hinfinity⟩
      rw [Decimal.isFinite_toFloat_zeros m hs hheeded] at hfinite
      exact .fraction hfraction hm (Decimal.toFloat_eq_infinity hfinite)

theorem reduced_reduce (d : Decimal) : (reduce d).Reduced := by
  by_cases hfar : d.IsFar
  · exact Or.inr ⟨d, hfar, rfl⟩
  · exact Or.inl (canonical_reduce hfar)

/-- A far decimal is kept exactly, as the fraction that it is. -/
theorem reduce_eq_big_of_isFar {d : Decimal} (h : d.IsFar) : reduce d = .big d.stripped := by
  refine reduce_eq_big h.fraction ?_
  rw [h.infinite, Binary64.isFinite_infinity]
  exact Bool.false_ne_true

/-- A fraction that has been reduced does not end in a zero. -/
theorem Reduced.not_dvd {d : Decimal} (h : (big d).Reduced) (hd : d.toInteger? = none) :
    ¬ (10 : Int) ∣ d.unscaled := by
  rcases h with hcanonical | ⟨e, hfar, heq⟩
  · cases hcanonical with
    | whole => cases (Decimal.toInteger?_ofInt _).symm.trans hd
    | fraction _ hlast _ => exact hlast
  · obtain rfl := big.inj ((reduce_eq_big_of_isFar hfar).symm.trans heq)
    exact (Decimal.toInteger?_stripped hfar.fraction).2

/-- What has been reduced is not far. -/
theorem Reduced.not_isFar {d : Decimal} (h : (big d).Reduced) : ¬ d.IsFar :=
  fun hfar => h.not_dvd hfar.fraction hfar.unstripped

/--
A fraction is not canonical if its float is infinite, but the scale is heeded once a zero is
stripped and the value is within the range of floats.
-/
theorem not_canonical_reduce {u s : Int} (hd : (⟨u * 10, s + 1⟩ : Decimal).toInteger? = none)
    (hinfinite : ¬ Binary64.isFinite (⟨u * 10, s + 1⟩ : Decimal).toFloat = true)
    (hs : s < 10 * Binary64.ampleExponent)
    (hvalue : (u.natAbs : ℚ) * 10 ^ (-s) < Binary64.overflow) :
    ¬ (reduce ⟨u * 10, s + 1⟩).Canonical := by
  obtain ⟨m, t, zeros, heq, hstripped, hm⟩ :=
    Decimal.exists_stripped (Decimal.unscaled_ne_zero_of_fraction hd)
  obtain ⟨hunscaled, hscale⟩ := Decimal.mk.inj heq
  obtain ⟨ht, hfraction⟩ := Decimal.stripped_fraction (heq ▸ hd) hm
  -- there is a zero to strip
  obtain ⟨n, rfl⟩ : ∃ n, zeros = n + 1 := by
    refine Nat.exists_eq_succ_of_ne_zero ?_
    rintro rfl
    refine hm ⟨u, ?_⟩
    have hone : (tenPow 0 : Int) = 1 := rfl
    rw [hone, Int.mul_one] at hunscaled
    omega
  have hu : u = m * tenPow n := by
    rw [tenPow_succ] at hunscaled
    push_cast at hunscaled
    linarith
  obtain rfl : s = t + n := by
    push_cast at hscale
    omega
  -- the stripped form has the same value, all digits of its scale count
  have hfinite : Binary64.isFinite (⟨m, t⟩ : Decimal).toFloat = true := by
    rw [← Decimal.isFinite_toFloat_zeros m ht hs, ← hu, Decimal.isFinite_toFloat_iff]
    dsimp only
    rwa [Binary64.heeded_of_natAbs_lt (by omega)]
  rw [reduce_eq_big hd hinfinite, hstripped]
  intro hcanonical
  cases hcanonical with
  | whole => cases (Decimal.toInteger?_ofInt m).symm.trans hfraction
  | fraction _ _ hinfinity =>
    rw [hinfinity, Binary64.isFinite_infinity] at hfinite
    cases hfinite

/-! ## A product that is not canonical -/

/-- Repeated factors make a power, as long as the scale stays in range. -/
theorem foldExact_replicate {n : Number} {u : Int} {scale : Nat} (hn : n.lift = .ok ⟨u, scale⟩)
    (rest : List Number) (k : Nat) (total : Int) (s : Nat)
    (hrange : ((s + k * scale : Nat) : Int) ≤ Decimal.greatestScale) :
    foldExact (fun a b => .ok (a * b)) ⟨total, s⟩ (List.replicate k n ++ rest) =
      foldExact (fun a b => .ok (a * b)) ⟨total * u ^ k, (s + k * scale : Nat)⟩ rest := by
  induction k generalizing total s with
  | zero => simp
  | succ k ih =>
    have hsum : s + (k + 1) * scale = s + scale + k * scale := by ring
    rw [hsum] at hrange ⊢
    have hleast : Decimal.leastScale ≤ 0 := by decide
    have hstep : (⟨total, s⟩ : Decimal) * ⟨u, scale⟩ = ⟨total * u, (s + scale : Nat)⟩ := by
      change (⟨total * u, max Decimal.leastScale (min Decimal.greatestScale (s + scale))⟩ :
        Decimal) = _
      congr 1
      omega
    rw [List.replicate_succ, List.cons_append, foldExact, hn]
    dsimp only
    rw [hstep, ih _ _ hrange, pow_succ', Int.mul_assoc]

/-- A float that is near the least ones. -/
def tiny : Number := .float (Binary64.ofDecimal false 1 (-320))

/-- An integer of eighteen digits. -/
def nines : Number := .int 999999999999999999

theorem lift_tiny : tiny.lift = .ok ⟨1, 320⟩ := by
  have hshape : Binary64.shape (Binary64.ofDecimal false 1 (-320)) = .finite false 2024 (-1074) := by
    decide +kernel
  have hshortest : Binary64.shortest 2024 (-1074) = (1, -320) := by decide +kernel
  rw [lift, tiny, toDecimal?, Decimal.ofFloat?, hshape]
  dsimp only
  rw [if_neg (by omega), hshortest]
  rfl

/-- Small factors that make as many places as are not heeded, great ones, and a zero. -/
def factors : List Number := List.replicate 2048 tiny ++ (List.replicate 4096 nines ++ [.int 10])

/-- Their product has 655360 places, and far fewer digits, but more than a tenth as many. -/
theorem exists_foldExact_factors :
    ∃ u : Nat, foldExact (fun a b => .ok (a * b)) (Decimal.ofInt 1) factors =
        .ok ⟨u * 10, 655359 + 1⟩ ∧
      (10 : ℚ) ^ 69632 ≤ u ∧ (u : ℚ) ≤ 10 ^ 73728 := by
  obtain ⟨u, hu⟩ : ∃ u : Nat, u = 999999999999999999 ^ 4096 := ⟨_, rfl⟩
  refine ⟨u, ?_, ?_, ?_⟩
  · have hliftNines : nines.lift = .ok ⟨999999999999999999, (0 : Nat)⟩ := rfl
    have hliftTen : (Number.int 10).lift = .ok ⟨10, (0 : Nat)⟩ := rfl
    have htiny := foldExact_replicate lift_tiny (List.replicate 4096 nines ++ [.int 10]) 2048 1 0
      (by decide)
    have hnines := foldExact_replicate hliftNines [.int 10] 4096 (1 * 1 ^ 2048) 655360 (by decide)
    have hten := foldExact_replicate hliftTen [] 1 u 655360 (by decide)
    have hcast : (1 * 1 ^ 2048 * 999999999999999999 ^ 4096 : Int) = u := by
      rw [one_pow, one_mul, one_mul, hu, Nat.cast_pow]
      rfl
    rw [hcast] at hnines
    exact htiny.trans (hnines.trans hten)
  · have hpow : (10 : ℚ) ^ 69632 = (10 ^ 17) ^ 4096 := pow_mul 10 17 4096
    rw [hu, hpow, Nat.cast_pow]
    exact pow_le_pow_left₀ (by norm_num) (by norm_num) 4096
  · have hpow : (10 : ℚ) ^ 73728 = (10 ^ 18) ^ 4096 := pow_mul 10 18 4096
    rw [hu, hpow, Nat.cast_pow]
    exact pow_le_pow_left₀ (by norm_num) (by norm_num) 4096

/--
The product is less than one, and its canonical form would be a float. It is kept exactly for
the float of a value with a tenth of its places.
-/
theorem exists_product_not_canonical : ∃ n, product factors = .ok n ∧ ¬ n.Canonical := by
  obtain ⟨u, hfold, hgreater, hless⟩ := exists_foldExact_factors
  refine ⟨reduce ⟨u * 10, 655359 + 1⟩, by rw [product, hfold]; rfl, ?_⟩
  have hbeyond : (10 : ℚ) ^ 73728 < 10 ^ 655359 := pow_lt_pow_right₀ (by norm_num) (by norm_num)
  refine not_canonical_reduce ?_ ?_ (by decide) ?_
  · refine Decimal.toInteger?_eq_none.mpr ⟨(by decide : (0 : Int) < 655359 + 1), fun hdvd => ?_⟩
    have hpos : (0 : Int) < u * 10 := by
      have hcast : (0 : ℚ) < u := lt_of_lt_of_le (by positivity) hgreater
      have hu : 0 < u := by exact_mod_cast hcast
      omega
    have hle : ((tenPow (655359 + 1) : Nat) : Int) ≤ u * 10 := Int.le_of_dvd hpos hdvd
    have hcast : ((tenPow (655359 + 1) : Nat) : ℚ) ≤ u * 10 := by exact_mod_cast hle
    rw [Binary64.cast_tenPow, pow_succ] at hcast
    exact absurd (le_of_mul_le_mul_right hcast (by norm_num)) (not_le.mpr (hless.trans_lt hbeyond))
  · have hheeded : Binary64.heeded (-(655359 + 1)) = -(65536 : Nat) := by decide +kernel
    have hoverflow : Binary64.overflow ≤ 10 ^ 1024 :=
      Binary64.overflow_le_pow.trans (pow_le_pow_left₀ (by norm_num) (by norm_num) 1024)
    rw [Decimal.isFinite_toFloat_iff]
    dsimp only
    rw [hheeded, not_lt, zpow_neg, zpow_natCast, ← div_eq_mul_inv, le_div_iff₀ (by positivity)]
    calc Binary64.overflow * 10 ^ 65536 ≤ 10 ^ 1024 * 10 ^ 65536 :=
          mul_le_mul_of_nonneg_right hoverflow (by positivity)
      _ = 10 ^ (1024 + 65536) := (pow_add ..).symm
      _ ≤ 10 ^ 69632 := pow_le_pow_right₀ (by norm_num) (by norm_num)
      _ ≤ u := hgreater
      _ ≤ ((u * 10 : Int).natAbs : ℚ) := by
        exact_mod_cast (by omega : u ≤ (u * 10 : Int).natAbs)
  · have hplaces : (-655359 : Int) = -(655359 : Nat) := rfl
    have hone : 1 < Binary64.overflow :=
      (one_lt_pow₀ (by norm_num) (by norm_num)).trans Binary64.pow_lt_overflow
    rw [hplaces, zpow_neg, zpow_natCast, ← div_eq_mul_inv, div_lt_iff₀ (by positivity),
      Int.natAbs_natCast]
    calc (u : ℚ) ≤ 10 ^ 73728 := hless
      _ < 10 ^ 655359 := hbeyond
      _ < Binary64.overflow * 10 ^ 655359 := lt_mul_of_one_lt_left (by positivity) hone

/-! ## Equality of whole numbers -/

/-- The integer that a number is; floats are none, whatever their value. -/
def integer? : Number → Option Int
  | .int n => some n.toInt
  | .float _ => none
  | .big d => d.toInteger?

/-- An integer has one form. -/
theorem Reduced.of_integer? {a : Number} {n : Int} (ha : a.Reduced) (hn : a.integer? = some n) :
    (∃ k : Int64, a = .int k ∧ k.toInt = n) ∨ (a = .big ⟨n, 0⟩ ∧ fitsInt64 n = false) := by
  rcases ha with ha | ⟨d, hd, rfl⟩
  · cases ha with
    | int k => exact Or.inl ⟨k, rfl, Option.some.inj hn⟩
    | float => cases hn
    | @whole m hfits =>
      obtain rfl : m = n := Option.some.inj ((Decimal.toInteger?_ofInt m).symm.trans hn)
      exact Or.inr ⟨rfl, hfits⟩
    | fraction hd =>
      rw [integer?, hd] at hn
      cases hn
  · rw [reduce_eq_big_of_isFar hd, integer?, (Decimal.toInteger?_stripped hd.fraction).1] at hn
    cases hn

theorem fitsInt64_toInt (k : Int64) : fitsInt64 k.toInt = true := by
  rw [fitsInt64, Bool.and_eq_true, decide_eq_true_eq, decide_eq_true_eq]
  exact ⟨Int64.minValue_le_toInt k, Int64.toInt_le k⟩

/-- What does not fit in 64 bits is no 64-bit integer. -/
theorem toInt_ne_of_not_fits {k : Int64} {n : Int} (h : fitsInt64 n = false) : k.toInt ≠ n := by
  rintro rfl
  rw [fitsInt64_toInt] at h
  cases h

/-- **Whole numbers are equal** exactly if they are the same integer. -/
theorem beq_eq_decide {a b : Number} {m n : Int} (ha : a.Reduced) (hb : b.Reduced)
    (hm : a.integer? = some m) (hn : b.integer? = some n) : (a == b) = decide (m = n) := by
  rcases ha.of_integer? hm with ⟨k, rfl, rfl⟩ | ⟨rfl, hbeyond⟩ <;>
    rcases hb.of_integer? hn with ⟨l, rfl, rfl⟩ | ⟨rfl, hbeyond'⟩
  · change (k == l) = decide (k.toInt = l.toInt)
    rw [Bool.eq_iff_iff, beq_iff_eq, decide_eq_true_eq, Int64.toInt_inj]
  · exact (decide_eq_false (toInt_ne_of_not_fits hbeyond')).symm
  · exact (decide_eq_false (toInt_ne_of_not_fits hbeyond).symm).symm
  · change decide ((⟨m, 0⟩ : Decimal).atScale 0 = (⟨n, 0⟩ : Decimal).atScale 0) = decide (m = n)
    rw [← Decimal.ofInt, ← Decimal.ofInt, Decimal.atScale_ofInt, Decimal.atScale_ofInt]

end Number

end ExactLisp
