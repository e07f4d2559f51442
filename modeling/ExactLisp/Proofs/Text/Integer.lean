import ExactLisp.Number.Basic
import Mathlib.Algebra.Ring.Nat

/-!
# Whole numbers read back

The digits of a number, read from the left, are the number again. The same holds with
a minus sign in front, and for the integers of the language, which fit in 64 bits.
-/

namespace ExactLisp

theorem digitsValue_toDigits (n : Nat) : digitsValue (Nat.toDigits 10 n) = n :=
  Nat.ofDigitChars_ten_toDigits

theorem digitsValue_append (xs ys : List Char) :
    digitsValue (xs ++ ys) = digitsValue xs * 10 ^ ys.length + digitsValue ys := by
  change Nat.ofDigitChars 10 (xs ++ ys) 0 = _
  rw [Nat.ofDigitChars_append, Nat.ofDigitChars_eq_ofDigitChars_zero, Nat.mul_comm]
  rfl

theorem digitsValue_replicate_zero (n : Nat) : digitsValue (List.replicate n '0') = 0 := by
  change Nat.ofDigitChars 10 _ 0 = 0
  rw [Nat.ofDigitChars_replicate_zero, Nat.mul_zero]

theorem isDigit_toDigits (n : Nat) : ∀ c ∈ Nat.toDigits 10 n, c.isDigit = true :=
  fun _ hc => Nat.isDigit_of_mem_toDigits (by decide) (by decide) hc

theorem natural?_toDigits (n : Nat) : natural? (Nat.toDigits 10 n) = some n := by
  rw [natural?, if_pos ⟨Nat.toDigits_ne_nil, List.all_eq_true.mpr (isDigit_toDigits n)⟩,
    digitsValue_toDigits]

/-- A magnitude that starts with a digit has no sign. -/
theorem signed?_of_isDigit {magnitude? : List Char → Option Nat} {cs : List Char}
    (h : ∀ c ∈ cs.head?, c.isDigit = true) :
    signed? magnitude? cs = (magnitude? cs).map fun n => (n : Int) := by
  unfold signed?
  split
  next rest => exact absurd (h '-' rfl) (by decide)
  next rest => exact absurd (h '+' rfl) (by decide)
  next => rfl

theorem head?_toDigits (n : Nat) : ∀ c ∈ (Nat.toDigits 10 n).head?, c.isDigit = true :=
  fun c hc => isDigit_toDigits n c (List.mem_of_mem_head? hc)

/-- The text of an integer: its digits, after a minus sign if it is negative. -/
theorem toList_toString_int (n : Int) :
    (toString n).toList =
      if n < 0 then '-' :: Nat.toDigits 10 n.natAbs else Nat.toDigits 10 n.natAbs := by
  rw [Int.toString_eq_repr, Int.repr_eq_if]
  rcases Int.lt_or_le n 0 with h | h
  · have hn : (-n).toNat = n.natAbs := by omega
    simp [h, Int.not_le.mpr h, hn]
  · have hn : n.toNat = n.natAbs := by omega
    simp [h, Int.not_lt.mpr h, hn]

/-- The text of an integer is read as that integer. -/
theorem integer?_toString (n : Int) : integer? (toString n).toList = some n := by
  rw [toList_toString_int, integer?]
  split
  next h =>
    rw [signed?, natural?_toDigits]
    change some (-(n.natAbs : Int)) = some n
    congr 1
    omega
  next h =>
    rw [signed?_of_isDigit (head?_toDigits _), natural?_toDigits]
    change some (n.natAbs : Int) = some n
    congr 1
    omega

/-- **The text of a 64-bit integer is read as that integer.** -/
theorem int64?_int64Text (n : Int64) : int64? (Number.int64Text n).toList = some n := by
  rw [int64?, Number.int64Text, integer?_toString]
  dsimp only
  rw [if_pos ⟨n.minValue_le_toInt, n.toInt_le⟩, Int64.ofInt_toInt]

end ExactLisp
