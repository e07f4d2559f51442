/-!
# Powers of two and of ten

Floats are scaled by powers of two, decimals by powers of ten.
-/

namespace ExactLisp

/-- Two to the power of `n`. -/
def twoPow (n : Nat) : Nat := Nat.pow 2 n

/-- Ten to the power of `n`. -/
def tenPow (n : Nat) : Nat := Nat.pow 10 n

theorem twoPow_succ (n : Nat) : twoPow (n + 1) = 2 * twoPow n := Nat.mul_comm _ _

theorem tenPow_succ (n : Nat) : tenPow (n + 1) = 10 * tenPow n := Nat.mul_comm _ _

theorem twoPow_pos (n : Nat) : 0 < twoPow n := by
  induction n with
  | zero => decide
  | succ n ih => rw [twoPow_succ]; omega

theorem tenPow_pos (n : Nat) : 0 < tenPow n := by
  induction n with
  | zero => decide
  | succ n ih => rw [tenPow_succ]; omega

theorem tenPow_add (m n : Nat) : tenPow (m + n) = tenPow m * tenPow n := by
  induction n with
  | zero => exact (Nat.mul_one _).symm
  | succ n ih => rw [← Nat.add_assoc, tenPow_succ, tenPow_succ, ih, Nat.mul_left_comm]

end ExactLisp
