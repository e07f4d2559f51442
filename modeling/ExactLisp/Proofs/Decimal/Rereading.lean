import ExactLisp.Proofs.Binary64.Text
import ExactLisp.Proofs.Decimal.Stripped

/-!
# Decimals read back

The text of a decimal has no exponent: it is a sign, the digits of a whole part, and maybe a
point with more digits (`Positional`). Such a text is read as its digits, signs and zeros
included, at the scale that the digits after the point make (`Positional.parse?_eq`). So the
scale is read back where there are places to show it, and is zero where there are none, as the
zeros of a negative scale have been written out (`exists_parse?_text`).
-/

namespace ExactLisp

/-! ## Integers with grouped digits -/

theorem groupedNatural?_of_isDigit {cs : List Char} (hd : ∀ c ∈ cs, c.isDigit = true)
    (hne : cs ≠ []) : groupedNatural? cs = some (digitsValue cs) := by
  obtain ⟨c, rest, rfl⟩ := List.exists_cons_of_ne_nil hne
  have hall : (c :: rest).all (fun c => c.isDigit || c == '_') = true :=
    List.all_eq_true.mpr fun c hc => by rw [hd c hc, Bool.true_or]
  rw [groupedNatural?, if_pos ⟨hd c List.mem_cons_self, hall⟩, List.filter_eq_self.mpr hd]

/-- Digits with at most a minus sign in front are read as an integer. -/
theorem groupedInteger?_of_isDigit {cs : List Char} (negative : Bool)
    (hd : ∀ c ∈ cs, c.isDigit = true) (hne : cs ≠ []) :
    groupedInteger? (if negative then '-' :: cs else cs) =
      some (if negative then -(digitsValue cs : Int) else digitsValue cs) := by
  cases negative with
  | true =>
    rw [if_pos rfl, groupedInteger?, signed?, groupedNatural?_of_isDigit hd hne]
    rfl
  | false =>
    have hhead : ∀ c ∈ cs.head?, c.isDigit = true := fun c hc => hd c (List.mem_of_mem_head? hc)
    rw [if_neg Bool.false_ne_true, groupedInteger?, signed?_of_isDigit hhead,
      groupedNatural?_of_isDigit hd hne]
    rfl

namespace Decimal

/-! ## Positional texts -/

/-- A text of a sign, a whole part and maybe a point with a fraction, all in digits. -/
structure Positional (cs : List Char) (negative : Bool) (whole fraction : List Char) : Prop where
  spelled : cs = (if negative then '-' :: whole else whole) ++
    if fraction = [] then [] else '.' :: fraction
  whole_ne_nil : whole ≠ []
  isDigit_whole : ∀ c ∈ whole, c.isDigit = true
  isDigit_fraction : ∀ c ∈ fraction, c.isDigit = true

theorem ne_of_isDigit {c mark : Char} (h : c.isDigit = true) (hmark : mark.isDigit = false) :
    c ≠ mark := by
  rintro rfl
  rw [h] at hmark
  cases hmark

theorem isExponentMark_of_isDigit {c : Char} (h : c.isDigit = true) : isExponentMark c = false := by
  rw [isExponentMark, beq_false_of_ne (ne_of_isDigit h rfl : c ≠ 'e'),
    beq_false_of_ne (ne_of_isDigit h rfl : c ≠ 'E')]
  rfl

section

variable {cs whole fraction : List Char} {negative : Bool}

/-- There is no exponent in such a text. -/
theorem Positional.isExponentMark_eq_false (h : Positional cs negative whole fraction) :
    ∀ c ∈ cs, isExponentMark c = false := by
  intro c hc
  rw [h.spelled] at hc
  rcases List.mem_append.mp hc with hc | hc
  · split at hc
    · rcases List.mem_cons.mp hc with rfl | hc
      · rfl
      · exact isExponentMark_of_isDigit (h.isDigit_whole c hc)
    · exact isExponentMark_of_isDigit (h.isDigit_whole c hc)
  · split at hc
    · cases hc
    · rcases List.mem_cons.mp hc with rfl | hc
      · rfl
      · exact isExponentMark_of_isDigit (h.isDigit_fraction c hc)

/-- The point is found where it stands. -/
theorem Positional.split_point (h : Positional cs negative whole fraction) :
    cs.takeWhile (· != '.') = (if negative then '-' :: whole else whole) ∧
      (cs.dropWhile (· != '.')).drop 1 = fraction := by
  have hpoint : ∀ c ∈ if negative then '-' :: whole else whole, (c != '.') = true := by
    have hdigit : ∀ c ∈ whole, (c != '.') = true :=
      fun c hc => bne_iff_ne.mpr (ne_of_isDigit (h.isDigit_whole c hc) rfl)
    split
    · exact List.forall_mem_cons.mpr ⟨rfl, hdigit⟩
    · exact hdigit
  rw [h.spelled, List.takeWhile_append_of_pos hpoint, List.dropWhile_append_of_pos hpoint]
  by_cases hfraction : fraction = []
  · simp [hfraction]
  · simp [hfraction]

/-- A whole part with a digit is left as it is. -/
theorem wholeDigits_of_isDigit (hne : whole ≠ []) (hd : ∀ c ∈ whole, c.isDigit = true) :
    wholeDigits (if negative then '-' :: whole else whole) =
      if negative then '-' :: whole else whole := by
  obtain ⟨c, rest, rfl⟩ := List.exists_cons_of_ne_nil hne
  have hc := hd c List.mem_cons_self
  rw [wholeDigits, if_neg]
  cases negative with
  | true => simp
  | false =>
    rintro (hsign | hsign | hsign) <;> cases hsign <;> cases hc

/-- **A positional text is read** as its digits, at the scale of its fraction. -/
theorem Positional.parse?_eq {s : String} (h : Positional s.toList negative whole fraction)
    (hscale : scaleFits fraction.length = true) :
    parse? s = some ⟨if negative then -(digitsValue (whole ++ fraction) : Int)
      else digitsValue (whole ++ fraction), fraction.length⟩ := by
  have hmark : ∀ c ∈ s.toList, (!isExponentMark c) = true := fun c hc => by
    rw [h.isExponentMark_eq_false c hc]
    rfl
  have hdigits : ∀ c ∈ whole ++ fraction, c.isDigit = true :=
    List.forall_mem_append.mpr ⟨h.isDigit_whole, h.isDigit_fraction⟩
  have hne : whole ++ fraction ≠ [] := fun hnil => h.whole_ne_nil (List.append_eq_nil_iff.mp hnil).1
  have hjoin : (if negative then '-' :: whole else whole) ++ fraction =
      if negative then '-' :: (whole ++ fraction) else whole ++ fraction := by
    cases negative <;> rfl
  have hany : (if negative then '-' :: whole else whole).any Char.isDigit = true := by
    obtain ⟨c, rest, rfl⟩ := List.exists_cons_of_ne_nil h.whole_ne_nil
    have hc := h.isDigit_whole c List.mem_cons_self
    cases negative <;> simp [hc]
  obtain ⟨hwhole, hfraction⟩ := h.split_point
  rw [parse?, List.takeWhile_eq_self_iff.mpr hmark, List.dropWhile_eq_nil_iff.mpr hmark,
    ofMantissa?, hwhole, hfraction, List.all_eq_true.mpr h.isDigit_fraction, hany,
    wholeDigits_of_isDigit h.whole_ne_nil h.isDigit_whole, hjoin,
    groupedInteger?_of_isDigit negative hdigits hne]
  dsimp only
  rw [Int.sub_zero, hscale]
  rfl

end

/-! ## The text of a decimal -/

theorem isDigit_padded (magnitude scale : Nat) : ∀ c ∈ padded magnitude scale, c.isDigit = true :=
  List.forall_mem_append.mpr ⟨Binary64.isDigit_replicate_zero _, isDigit_toDigits magnitude⟩

/-- There are digits on both sides of the point. -/
theorem lt_length_padded (magnitude scale : Nat) : scale < (padded magnitude scale).length := by
  rw [padded, List.length_append, List.length_replicate]
  omega

theorem digitsValue_padded (magnitude scale : Nat) :
    digitsValue (padded magnitude scale) = magnitude := by
  rw [padded, digitsValue_append, digitsValue_replicate_zero, digitsValue_toDigits, Nat.zero_mul,
    Nat.zero_add]

theorem positional_whole (negative : Bool) {whole : List Char}
    (hd : ∀ c ∈ whole, c.isDigit = true) (hne : whole ≠ []) :
    Positional (if negative then '-' :: whole else whole) negative whole [] :=
  ⟨(List.append_nil _).symm, hne, hd, nofun⟩

/-- The point is put among the digits. -/
theorem positional_pointed (negative : Bool) (magnitude : Nat) {scale : Nat} (h : 0 < scale) :
    let digits := padded magnitude scale
    Positional (if negative then '-' :: pointed magnitude scale else pointed magnitude scale)
      negative (digits.take (digits.length - scale)) (digits.drop (digits.length - scale)) := by
  intro digits
  have hlength : scale < digits.length := lt_length_padded magnitude scale
  have hwhole : digits.take (digits.length - scale) ≠ [] := by
    rw [Ne, List.take_eq_nil_iff]
    rintro (hzero | hnil)
    · omega
    · rw [hnil] at hlength
      cases hlength
  have hfraction : digits.drop (digits.length - scale) ≠ [] := by
    rw [Ne, List.drop_eq_nil_iff]
    omega
  refine ⟨?_, hwhole, fun c hc => isDigit_padded _ _ c (List.mem_of_mem_take hc),
    fun c hc => isDigit_padded _ _ c (List.mem_of_mem_drop hc)⟩
  rw [if_neg hfraction]
  cases negative <;> rfl

/-- **The text of a decimal is positional**, with as many places as a positive scale has. -/
theorem positional_text (d : Decimal) :
    ∃ whole fraction, Positional d.text.toList (d.unscaled < 0) whole fraction ∧
      (fraction.length : Int) = (if d.unscaled ≠ 0 ∧ 0 < d.scale then d.scale else 0) ∧
      digitsValue (whole ++ fraction) = d.unscaled.natAbs * tenPow (-d.scale).toNat := by
  obtain ⟨u, s⟩ := d
  rw [text]
  dsimp only
  by_cases hu : u = 0
  · subst hu
    have hpositional := positional_whole false (Binary64.isDigit_replicate_zero 1) nofun
    rw [if_pos rfl, Int.natAbs_zero, Nat.zero_mul, if_neg fun h => h.1 rfl]
    exact ⟨_, _, hpositional, rfl, rfl⟩
  rw [if_neg hu, String.toList_ofList]
  by_cases hs : s ≤ 0
  · have hdigits := List.forall_mem_append.mpr ⟨isDigit_toDigits u.natAbs,
      Binary64.isDigit_replicate_zero (-s).toNat⟩
    have hpositional := positional_whole (decide (u < 0)) hdigits (by simp)
    have hplaces : ¬ (u ≠ 0 ∧ 0 < s) := fun h => not_lt.mpr hs h.2
    rw [if_pos hs, if_neg hplaces]
    refine ⟨_, _, by simpa only [decide_eq_true_eq] using hpositional, rfl, ?_⟩
    rw [List.append_nil, digitsValue_append, digitsValue_toDigits, digitsValue_replicate_zero,
      List.length_replicate, Nat.add_zero]
    rfl
  · obtain ⟨k, rfl⟩ : ∃ k : Nat, s = k := ⟨s.toNat, by omega⟩
    have hplaces : u ≠ 0 ∧ 0 < (k : Int) := ⟨hu, by omega⟩
    have hpositional := positional_pointed (decide (u < 0)) u.natAbs (by omega : 0 < k)
    have hlength := lt_length_padded u.natAbs k
    have hzeros : tenPow (-(k : Int)).toNat = 1 := by
      rw [Int.toNat_neg_natCast]
      rfl
    rw [if_neg hs, Int.toNat_natCast, if_pos hplaces]
    refine ⟨_, _, by simpa only [decide_eq_true_eq] using hpositional, ?_, ?_⟩
    · rw [List.length_drop]
      omega
    · rw [List.take_append_drop, digitsValue_padded, hzeros, Nat.mul_one]

/-- What the text of a decimal is read as. -/
theorem parse?_text_eq {d : Decimal} (h : scaleFits d.scale = true) :
    parse? d.text = some ⟨d.unscaled * tenPow (-d.scale).toNat,
      if d.unscaled ≠ 0 ∧ 0 < d.scale then d.scale else 0⟩ := by
  obtain ⟨whole, fraction, htext, hplaces, hdigits⟩ := d.positional_text
  have hscale : scaleFits fraction.length = true := by
    rw [hplaces]
    split
    · exact h
    · rfl
  rw [htext.parse?_eq hscale, hplaces, hdigits]
  refine congrArg (fun u => some (Decimal.mk u _)) ?_
  by_cases hnegative : d.unscaled < 0
  · rw [if_pos (decide_eq_true hnegative), Nat.cast_mul, ← Int.neg_mul,
      Int.ofNat_natAbs_of_nonpos hnegative.le, Int.neg_neg]
  · rw [if_neg (by simpa using hnegative), Nat.cast_mul, Int.natAbs_of_nonneg (not_lt.mp hnegative)]

/--
**The text of a decimal is read back.** It is read as an equal decimal: as the same one if the
decimal has places after the point and is not zero, and as an integer of scale zero otherwise.
There is no exponent in it, and the place where the point is put among the digits, zeros in
front included, has at least one of them before it.
-/
theorem exists_parse?_text {d : Decimal} (h : scaleFits d.scale = true) :
    (∃ e, parse? d.text = some e ∧ (e == d) = true ∧
      if d.unscaled ≠ 0 ∧ 0 < d.scale then e = d else e.scale = 0) ∧
    (∀ c ∈ d.text.toList, isExponentMark c = false) ∧
    d.scale.toNat < (padded d.unscaled.natAbs d.scale.toNat).length := by
  obtain ⟨whole, fraction, htext, -⟩ := d.positional_text
  refine ⟨?_, htext.isExponentMark_eq_false, lt_length_padded ..⟩
  rw [parse?_text_eq h]
  by_cases hpoint : d.unscaled ≠ 0 ∧ 0 < d.scale
  · -- there are no zeros of a negative scale
    have hzeros : tenPow (-d.scale).toNat = 1 := by
      rw [Int.toNat_of_nonpos (by omega)]
      rfl
    refine ⟨d, ?_, BEq.refl d, by rw [if_pos hpoint]⟩
    rw [if_pos hpoint, hzeros, Nat.cast_one, Int.mul_one]
  · refine ⟨_, rfl, beq_iff_value.mpr ?_, by rw [if_neg hpoint, if_neg hpoint]⟩
    rw [if_neg hpoint]
    by_cases hzero : d.unscaled = 0
    · rw [value_eq_zero_iff.mpr hzero, value_eq_zero_iff]
      exact mul_eq_zero_of_left hzero _
    · have hscale : d.scale + (-d.scale).toNat = 0 := by omega
      rw [← hscale]
      exact value_zeros d.unscaled d.scale _

/-- For instance a negative fraction, which has zeros put in front of its digit. -/
theorem exists_parse?_text_fraction :
    let d : Decimal := ⟨-5, 3⟩
    scaleFits d.scale = true ∧ d.text = "-0.005" ∧
      (∃ e, parse? d.text = some e ∧ (e == d) = true ∧
        if d.unscaled ≠ 0 ∧ 0 < d.scale then e = d else e.scale = 0) ∧
      (∀ c ∈ d.text.toList, isExponentMark c = false) ∧
      d.scale.toNat < (padded d.unscaled.natAbs d.scale.toNat).length := by
  intro d
  have hscale : scaleFits d.scale = true := by decide
  exact ⟨hscale, by decide +kernel, exists_parse?_text hscale⟩

end Decimal

end ExactLisp
