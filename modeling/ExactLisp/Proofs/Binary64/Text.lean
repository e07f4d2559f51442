import ExactLisp.Datum.Word
import ExactLisp.Proofs.Binary64.Shortest
import ExactLisp.Proofs.Text.Integer

/-!
# Floats read back

The text of a finite float is read as that float (`parse?_text`). The digits that are
written are those of the shortest decimal; where the point stands and how many zeros pad
the digits changes the decimal that is spelled, but not its value, and the value is all
that rounding looks at.
-/

namespace ExactLisp.Binary64

/-! ## Reading a magnitude -/

theorem takeWhile_isDigit {digits rest : List Char} (hd : ∀ c ∈ digits, c.isDigit = true)
    (hr : ∀ c ∈ rest.head?, c.isDigit = false) :
    (digits ++ rest).takeWhile Char.isDigit = digits := by
  rw [List.takeWhile_append_of_pos hd]
  cases rest with
  | nil => simp
  | cons c rest => simp [hr c rfl]

theorem dropWhile_isDigit {digits rest : List Char} (hd : ∀ c ∈ digits, c.isDigit = true)
    (hr : ∀ c ∈ rest.head?, c.isDigit = false) :
    (digits ++ rest).dropWhile Char.isDigit = rest := by
  rw [List.dropWhile_append_of_pos hd]
  cases rest with
  | nil => rfl
  | cons c rest => simp [hr c rfl]

/-- Digits, a point, more digits, and maybe an exponent. -/
theorem magnitude?_of_point {whole fraction rest : List Char} {e : Int} (negative : Bool)
    (hw : ∀ c ∈ whole, c.isDigit = true) (hne : whole ≠ [])
    (hf : ∀ c ∈ fraction, c.isDigit = true) (hr : ∀ c ∈ rest.head?, c.isDigit = false)
    (he : exponent? rest = some e) :
    magnitude? negative (whole ++ '.' :: (fraction ++ rest)) =
      some (ofDecimal negative (digitsValue (whole ++ fraction)) (heeded e - fraction.length)) := by
  have hpoint : ∀ c ∈ ('.' :: (fraction ++ rest)).head?, c.isDigit = false := by
    intro c hc
    cases hc
    decide
  unfold magnitude?
  rw [takeWhile_isDigit hw hpoint, dropWhile_isDigit hw hpoint]
  change (if whole = [] ∧ (fraction ++ rest).takeWhile Char.isDigit = [] then none
    else (exponent? ((fraction ++ rest).dropWhile Char.isDigit)).map fun e =>
      ofDecimal negative (digitsValue (whole ++ (fraction ++ rest).takeWhile Char.isDigit))
        (heeded e - ((fraction ++ rest).takeWhile Char.isDigit).length)) = _
  rw [takeWhile_isDigit hf hr, dropWhile_isDigit hf hr, if_neg fun h => hne h.1, he]
  rfl

theorem heeded_zero : heeded 0 = 0 := heeded_of_natAbs_lt (by decide)

/-- Digits, a point and more digits. -/
theorem magnitude?_of_fixed {whole fraction : List Char} (negative : Bool)
    (hw : ∀ c ∈ whole, c.isDigit = true) (hne : whole ≠ [])
    (hf : ∀ c ∈ fraction, c.isDigit = true) :
    magnitude? negative (whole ++ '.' :: fraction) =
      some (ofDecimal negative (digitsValue (whole ++ fraction)) (-(fraction.length : Int))) := by
  have h := @magnitude?_of_point whole fraction [] 0 negative hw hne hf (by simp) rfl
  rw [List.append_nil, heeded_zero, Int.zero_sub] at h
  exact h

/-- Digits and maybe an exponent. -/
theorem magnitude?_of_whole {whole rest : List Char} {e : Int} (negative : Bool)
    (hw : ∀ c ∈ whole, c.isDigit = true) (hne : whole ≠ [])
    (hr : ∀ c ∈ rest.head?, c.isDigit = false ∧ c ≠ '.') (he : exponent? rest = some e) :
    magnitude? negative (whole ++ rest) = some (ofDecimal negative (digitsValue whole) (heeded e)) := by
  have hr' : ∀ c ∈ rest.head?, c.isDigit = false := fun c hc => (hr c hc).1
  unfold magnitude?
  rw [takeWhile_isDigit hw hr', dropWhile_isDigit hw hr']
  dsimp only
  split
  next after => exact absurd rfl (hr '.' rfl).2
  next => simp [hne, he]

/-! ## Writing a magnitude -/

/-- A text of a magnitude is read as some decimal of the given value. -/
def Spells (cs : List Char) (v : ℚ) : Prop :=
  ∀ negative, ∃ (c : Nat) (k : Int),
    magnitude? negative cs = some (ofDecimal negative c k) ∧ (c : ℚ) * 10 ^ k = v

theorem isDigit_replicate_zero (n : Nat) : ∀ c ∈ List.replicate n '0', c.isDigit = true := by
  intro c hc
  rw [List.eq_of_mem_replicate hc]
  rfl

theorem spells_positional {digits : List Char} (hd : ∀ c ∈ digits, c.isDigit = true)
    (hne : digits ≠ []) (point : Int) :
    Spells (positional digits point) ((digitsValue digits : ℚ) * 10 ^ (point - digits.length)) := by
  intro negative
  unfold positional
  split
  next hleft =>
    -- zeros between the point and the digits
    have hzeros : ∀ c ∈ List.replicate (-point).toNat '0' ++ digits, c.isDigit = true := by
      intro c hc
      rcases List.mem_append.mp hc with hc | hc
      · exact isDigit_replicate_zero _ c hc
      · exact hd c hc
    refine ⟨_, _, magnitude?_of_fixed negative (isDigit_replicate_zero 1) (by simp) hzeros, ?_⟩
    have hvalue : digitsValue (List.replicate 1 '0' ++ (List.replicate (-point).toNat '0' ++ digits)) =
        digitsValue digits := by
      rw [digitsValue_append, digitsValue_append, digitsValue_replicate_zero,
        digitsValue_replicate_zero, Nat.zero_mul, Nat.zero_mul, Nat.zero_add, Nat.zero_add]
    rw [hvalue]
    congr 2
    simp only [List.length_append, List.length_replicate, Nat.cast_add]
    omega
  split
  next hright =>
    -- zeros between the digits and the point
    obtain ⟨n, rfl⟩ : ∃ n : Nat, point = digits.length + n := ⟨(point - digits.length).toNat, by omega⟩
    have hn : ((digits.length : Int) + n).toNat - digits.length = n := by omega
    have hzeros : ∀ c ∈ digits ++ List.replicate n '0', c.isDigit = true := by
      intro c hc
      rcases List.mem_append.mp hc with hc | hc
      · exact hd c hc
      · exact isDigit_replicate_zero _ c hc
    rw [hn]
    refine ⟨_, _, magnitude?_of_fixed negative hzeros (by simp [hne]) (isDigit_replicate_zero 1), ?_⟩
    have hzero : digitsValue ['0'] = 0 := rfl
    rw [digitsValue_append, digitsValue_append, digitsValue_replicate_zero, hzero]
    simp only [List.length_replicate, List.length_singleton, pow_one, add_zero, Nat.cast_mul,
      Nat.cast_pow, Nat.cast_ofNat, Nat.cast_one, add_sub_cancel_left, zpow_natCast]
    rw [zpow_neg_one]
    field_simp
  next hwithin =>
    -- the point between two digits
    obtain ⟨n, rfl⟩ : ∃ n : Nat, point = n := ⟨point.toNat, by omega⟩
    have htake : digits.take n ≠ [] := by
      rw [Ne, List.take_eq_nil_iff]
      rintro (h | h)
      · omega
      · exact hne h
    refine ⟨_, _, magnitude?_of_fixed negative (fun c hc => hd c (List.mem_of_mem_take hc)) htake
      fun c hc => hd c (List.mem_of_mem_drop hc), ?_⟩
    rw [List.take_append_drop, List.length_drop]
    congr 2
    omega

theorem spells_scientific {digits : List Char} (hd : ∀ c ∈ digits, c.isDigit = true)
    (hne : digits ≠ []) {point : Int} (hpoint : (point - 1).natAbs < 10 * ampleExponent) :
    Spells (scientific digits point) ((digitsValue digits : ℚ) * 10 ^ (point - digits.length)) := by
  intro negative
  have hexponent : exponent? ('e' :: (toString (point - 1)).toList) = some (point - 1) := by
    rw [exponent?, if_pos (Or.inl rfl), integer?_toString]
  unfold scientific
  match digits with
  | [] => exact absurd rfl hne
  | [d] =>
    have h := @magnitude?_of_whole [d] ('e' :: (toString (point - 1)).toList) _ negative hd (by simp)
      (by
        intro c hc
        cases hc
        decide)
      hexponent
    refine ⟨_, _, h, ?_⟩
    rw [heeded_of_natAbs_lt hpoint]
    rfl
  | d :: e :: rest =>
    have h := @magnitude?_of_point [d] (e :: rest) ('e' :: (toString (point - 1)).toList) _ negative
      (fun c hc => hd c (by simp_all)) (by simp) (fun c hc => hd c (List.mem_cons_of_mem _ hc))
      (by
        intro c hc
        cases hc
        decide)
      hexponent
    refine ⟨_, _, h, ?_⟩
    rw [heeded_of_natAbs_lt hpoint]
    congr 2
    simp only [List.length_cons]
    push_cast
    ring

/-! ## Which magnitudes there are -/

/-- The point stands where the size of the value has it. -/
theorem pow_point_bounds {c : Nat} (hc : 0 < c) (k : Int) :
    (10 : ℚ) ^ ((digitCount c : Int) + k - 1) ≤ c * 10 ^ k ∧
      (c : ℚ) * 10 ^ k < 10 ^ ((digitCount c : Int) + k) := by
  have hk : (0 : ℚ) < 10 ^ k := by positivity
  have hpos : 0 < digitCount c := Nat.length_toDigits_pos
  have hlow : (10 : ℚ) ^ (digitCount c - 1) ≤ c := by exact_mod_cast pow_digitCount_le hc
  have hhigh : (c : ℚ) < 10 ^ digitCount c := by exact_mod_cast lt_pow_digitCount c
  constructor
  · have hexp : (digitCount c : Int) + k - 1 = (digitCount c - 1 : Nat) + k := by omega
    rw [hexp, zpow_add₀ (by norm_num), zpow_natCast]
    exact mul_le_mul_of_nonneg_right hlow hk.le
  · rw [zpow_add₀ (by norm_num), zpow_natCast]
    exact mul_lt_mul_of_pos_right hhigh hk

theorem zpow_two_le_ten (n : Nat) : (2 : ℚ) ^ (n : Int) ≤ 10 ^ (n : Int) :=
  zpow_le_zpow_left₀ (by omega) (by norm_num) (by norm_num)

/-- No float is so large or so small that its exponent would not be heeded. -/
theorem natAbs_point_lt {m c : Nat} {q k : Int} (hf : Normalized m q) (hc : 0 < c)
    (h : Contains m q ((c : ℚ) * 10 ^ k)) :
    ((digitCount c : Int) + k - 1).natAbs < 10 * ampleExponent := by
  obtain ⟨hlow, hhigh⟩ := pow_point_bounds hc k
  have hample : 10 * ampleExponent = 655360 := rfl
  have hten : (1 : ℚ) < 10 := by norm_num
  have hu : (0 : ℚ) < 2 ^ q := by positivity
  -- a float is below 2 ^ 1024, so its decimal exponent is at most that
  have hleft : (digitCount c : Int) + k - 1 ≤ 1024 := by
    have hm : (m : ℚ) + 1 ≤ 2 ^ 53 := by exact_mod_cast hf.lt
    have hq : (2 : ℚ) ^ q ≤ 2 ^ (971 : Int) := zpow_le_zpow_right₀ (by norm_num) hf.greatest
    have htop : (2 : ℚ) ^ (53 : Int) * 2 ^ (971 : Int) = 2 ^ ((1024 : Nat) : Int) := by
      rw [← zpow_add₀ two_ne_zero]
      rfl
    have hv : (10 : ℚ) ^ ((digitCount c : Int) + k - 1) ≤ 10 ^ ((1024 : Nat) : Int) := by
      calc (10 : ℚ) ^ ((digitCount c : Int) + k - 1) ≤ c * 10 ^ k := hlow
        _ ≤ (m + 1 / 2) * 2 ^ q := by
          rw [← highEnd_eq]
          exact h.2.1
        _ ≤ 2 ^ (53 : Int) * 2 ^ (971 : Int) := by
          refine mul_le_mul ?_ hq hu.le (by positivity)
          have : (2 : ℚ) ^ (53 : Int) = 2 ^ 53 := zpow_natCast 2 53
          rw [this]
          linarith
        _ = 2 ^ ((1024 : Nat) : Int) := htop
        _ ≤ 10 ^ ((1024 : Nat) : Int) := zpow_two_le_ten 1024
    exact (zpow_le_zpow_iff_right₀ hten).mp hv
  -- half the least float is 2 ^ -1075, and no value in its interval is smaller
  have hright : -1075 < (digitCount c : Int) + k := by
    have hm : (1 : ℚ) ≤ m := by exact_mod_cast hf.pos
    have hq : (2 : ℚ) ^ (-1074 : Int) ≤ 2 ^ q := zpow_le_zpow_right₀ (by norm_num) hf.least
    have hbottom : (2 : ℚ) ^ (-1074 : Int) * (1 / 2) = (2 ^ ((1075 : Nat) : Int))⁻¹ := by
      rw [← zpow_neg, one_div, ← zpow_neg_one, ← zpow_add₀ two_ne_zero]
      rfl
    have hv : (10 : ℚ) ^ (-((1075 : Nat) : Int)) < 10 ^ ((digitCount c : Int) + k) := by
      calc (10 : ℚ) ^ (-((1075 : Nat) : Int)) = (10 ^ ((1075 : Nat) : Int))⁻¹ := zpow_neg _ _
        _ ≤ (2 ^ ((1075 : Nat) : Int))⁻¹ :=
          inv_anti₀ (by positivity) (zpow_two_le_ten 1075)
        _ = 2 ^ (-1074 : Int) * (1 / 2) := hbottom.symm
        _ ≤ 2 ^ q * (1 / 2) := mul_le_mul_of_nonneg_right hq (by norm_num)
        _ ≤ ((m : ℚ) - 1 / 2) * 2 ^ q := by nlinarith
        _ ≤ c * 10 ^ k := (le_lowEnd m q).trans h.1
        _ < 10 ^ ((digitCount c : Int) + k) := hhigh
    exact (zpow_lt_zpow_iff_right₀ hten).mp hv
  omega

theorem shortest_pos {m : Nat} {q : Int} (hf : Normalized m q) : 0 < (shortest m q).1 := by
  have hlow := (contains_shortest hf).1
  have hpos := lowEnd_pos hf.pos q
  by_contra h
  rw [Nat.eq_zero_of_not_pos h, Nat.cast_zero, zero_mul] at hlow
  linarith

/-- The text of a magnitude spells a value in the interval of the float. -/
theorem spells_magnitudeText {m : Nat} {q : Int} (hf : Normalized m q) :
    ∃ v, Spells (magnitudeText m q) v ∧ Contains m q v := by
  have hpos := shortest_pos hf
  have hc := contains_shortest hf
  unfold magnitudeText
  generalize shortest m q = p at *
  obtain ⟨c, k⟩ := p
  dsimp only at *
  have hdigits := isDigit_toDigits c
  have hne : Nat.toDigits 10 c ≠ [] := Nat.toDigits_ne_nil
  have hvalue : (digitsValue (Nat.toDigits 10 c) : ℚ) *
      10 ^ ((Nat.toDigits 10 c).length + k - (Nat.toDigits 10 c).length) = c * 10 ^ k := by
    rw [digitsValue_toDigits, add_sub_cancel_left]
  refine ⟨c * 10 ^ k, ?_, hc⟩
  rw [← hvalue]
  split
  · exact spells_positional hdigits hne _
  · exact spells_scientific hdigits hne (natAbs_point_lt hf hpos hc)

/-! ## What the text looks like -/

/-- The text of a magnitude as a word: it starts with a digit, but is not a whole number. -/
structure Numeral (cs : List Char) : Prop where
  head : ∃ d rest, cs = d :: rest ∧ d.isDigit = true
  chars : ∀ c ∈ cs, c.isDigit = true ∨ c = '.' ∨ c = 'e' ∨ c = '-'
  /-- A point or an exponent mark. -/
  mark : ∃ c ∈ cs, c.isDigit = false

theorem numeral_positional {digits : List Char} (hd : ∀ c ∈ digits, c.isDigit = true)
    (hne : digits ≠ []) (point : Int) : Numeral (positional digits point) := by
  obtain ⟨d, rest, rfl⟩ := List.exists_cons_of_ne_nil hne
  unfold positional
  split
  · refine ⟨⟨_, _, rfl, rfl⟩, fun c hc => ?_, '.', by simp, rfl⟩
    simp only [List.mem_cons, List.mem_append] at hc
    rcases hc with rfl | rfl | hc | hc
    · exact Or.inl rfl
    · exact Or.inr (Or.inl rfl)
    · exact Or.inl (isDigit_replicate_zero _ c hc)
    · exact Or.inl (hd c (List.mem_cons.mpr hc))
  split
  · refine ⟨⟨d, _, rfl, hd d List.mem_cons_self⟩, fun c hc => ?_, '.', by simp, rfl⟩
    simp only [List.mem_append, List.mem_cons, List.not_mem_nil, or_false] at hc
    rcases hc with (hc | hc) | rfl | rfl
    · exact Or.inl (hd c (List.mem_cons.mpr hc))
    · exact Or.inl (isDigit_replicate_zero _ c hc)
    · exact Or.inr (Or.inl rfl)
    · exact Or.inl rfl
  next hpos _ =>
    obtain ⟨n, hn⟩ : ∃ n : Nat, point.toNat = n + 1 := ⟨point.toNat - 1, by omega⟩
    rw [hn]
    refine ⟨⟨d, _, rfl, hd d List.mem_cons_self⟩, fun c hc => ?_, '.', by simp, rfl⟩
    rcases List.mem_append.mp hc with hc | hc
    · exact Or.inl (hd c (List.mem_of_mem_take hc))
    · rcases List.mem_cons.mp hc with rfl | hc
      · exact Or.inr (Or.inl rfl)
      · exact Or.inl (hd c (List.mem_of_mem_drop hc))

theorem numeral_scientific {digits : List Char} (hd : ∀ c ∈ digits, c.isDigit = true)
    (hne : digits ≠ []) (point : Int) : Numeral (scientific digits point) := by
  have hexponent : ∀ c ∈ (toString (point - 1)).toList, c.isDigit = true ∨ c = '-' := by
    intro c hc
    rw [toList_toString_int] at hc
    split at hc
    · rcases List.mem_cons.mp hc with rfl | hc
      · exact Or.inr rfl
      · exact Or.inl (isDigit_toDigits _ c hc)
    · exact Or.inl (isDigit_toDigits _ c hc)
  have hmantissa : ∀ d mantissa, d.isDigit = true → (∀ c ∈ mantissa, c.isDigit = true ∨ c = '.') →
      Numeral (d :: mantissa ++ 'e' :: (toString (point - 1)).toList) := by
    intro d mantissa hfirst hrest
    refine ⟨⟨d, _, rfl, hfirst⟩, fun c hc => ?_, 'e', by simp, rfl⟩
    rcases List.mem_append.mp hc with hc | hc
    · rcases List.mem_cons.mp hc with rfl | hc
      · exact Or.inl hfirst
      · exact (hrest c hc).imp id Or.inl
    · rcases List.mem_cons.mp hc with rfl | hc
      · exact Or.inr (Or.inr (Or.inl rfl))
      · exact (hexponent c hc).imp id fun h => Or.inr (Or.inr h)
  unfold scientific
  match digits with
  | [] => exact absurd rfl hne
  | [d] => exact hmantissa d [] (hd d List.mem_cons_self) (by simp)
  | d :: e :: rest =>
    refine hmantissa d ('.' :: e :: rest) (hd d List.mem_cons_self) fun c hc => ?_
    rcases List.mem_cons.mp hc with rfl | hc
    · exact Or.inr rfl
    · exact Or.inl (hd c (List.mem_cons_of_mem _ hc))

theorem numeral_magnitudeText (m : Nat) (q : Int) : Numeral (magnitudeText m q) := by
  unfold magnitudeText
  dsimp only
  split
  · exact numeral_positional (isDigit_toDigits _) Nat.toDigits_ne_nil _
  · exact numeral_scientific (isDigit_toDigits _) Nat.toDigits_ne_nil _

/-- A sign in front of a magnitude is read as the sign. -/
theorem parse?_signed {cs : List Char} (h : Numeral cs) (negative : Bool) :
    parse? (if negative then '-' :: cs else cs) = magnitude? negative cs := by
  obtain ⟨d, rest, rfl, hd⟩ := h.head
  cases negative with
  | true => rfl
  | false =>
    rw [if_neg Bool.false_ne_true, parse?]
    · rintro _ he
      cases he
      exact absurd hd (by decide)
    · rintro _ he
      cases he
      exact absurd hd (by decide)

/-- The text of a finite float: an optional sign and a magnitude that reads as the float. -/
theorem text_eq {x : Float} (h : isFinite x = true) :
    ∃ negative cs, (text x).toList = (if negative then '-' :: cs else cs) ∧ Numeral cs ∧
      magnitude? negative cs = some x := by
  unfold isFinite at h
  unfold text
  split at h
  next negative m q hx =>
    rw [hx]
    dsimp only
    rw [String.toList_ofList]
    by_cases hm : m = 0
    · subst hm
      rw [if_pos rfl]
      refine ⟨negative, _, rfl, ⟨⟨_, _, rfl, rfl⟩, by simp, '.', by simp, rfl⟩, ?_⟩
      have hread := magnitude?_of_fixed negative (isDigit_replicate_zero 1) (by simp)
        (isDigit_replicate_zero 1)
      refine hread.trans (congrArg some (nearest_eq hx ?_))
      rw [exponent_of_shape_zero hx]
      rfl
    · have hpos : 0 < m := Nat.pos_of_ne_zero hm
      obtain ⟨v, hspells, hv⟩ := spells_magnitudeText (normalized_of_shape hx hpos)
      obtain ⟨c, k, hread, hck⟩ := hspells negative
      rw [if_neg hm]
      refine ⟨negative, _, rfl, numeral_magnitudeText m q, ?_⟩
      rw [hread, ofDecimal_of_contains hx hpos (hck ▸ hv)]
  · cases h

/-- **The text of a finite float is read as that float.** -/
theorem parse?_text {x : Float} (h : isFinite x = true) : parse? (text x).toList = some x := by
  obtain ⟨negative, cs, htext, hcs, hread⟩ := text_eq h
  rw [htext, parse?_signed hcs, hread]

theorem natural?_eq_none {cs : List Char} (h : ∃ c ∈ cs, c.isDigit = false) : natural? cs = none := by
  obtain ⟨c, hc, hdigit⟩ := h
  rw [natural?, if_neg]
  rintro ⟨-, hall⟩
  rw [List.all_eq_true.mp hall c hc] at hdigit
  cases hdigit

/-- The text of a float is not taken for an integer. -/
theorem int64?_text {x : Float} (h : isFinite x = true) : int64? (text x).toList = none := by
  obtain ⟨negative, cs, htext, hcs, -⟩ := text_eq h
  have hnone := natural?_eq_none hcs.mark
  have hinteger : integer? (text x).toList = none := by
    rw [htext, integer?]
    cases negative with
    | true =>
      change Option.map _ _ = none
      rw [hnone]
      rfl
    | false =>
      obtain ⟨d, rest, rfl, hd⟩ := hcs.head
      rw [if_neg Bool.false_ne_true, signed?_of_isDigit (by
        intro c hc
        cases hc
        exact hd), hnone]
      rfl
  rw [int64?, hinteger]

theorem looksNumeric_text {x : Float} (h : isFinite x = true) :
    Datum.looksNumeric (text x).toList = true := by
  obtain ⟨negative, cs, htext, hcs, -⟩ := text_eq h
  obtain ⟨d, rest, rfl, hd⟩ := hcs.head
  rw [htext, Datum.looksNumeric]
  cases negative <;> simp [hd]

/-- **The word of a finite float denotes that float.** -/
theorem numberOfWord?_text {x : Float} (h : isFinite x = true) :
    Datum.numberOfWord? (text x).toList = some (.float x) := by
  rw [Datum.numberOfWord?, int64?_text h]
  dsimp only
  rw [if_pos (looksNumeric_text h), parse?_text h]
  rfl

end ExactLisp.Binary64
