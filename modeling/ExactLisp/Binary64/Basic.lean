import ExactLisp.Power

/-!
# Binary floating point, exactly

A finite float is `m · 2^q` for a natural number `m` below `2^53`. This module
takes a float apart into that form and goes the other way: `nearest` is the float
closest to a fraction of natural numbers, a tie going to the even significand.

Both directions work on the bit pattern in exact arithmetic. The pattern of a
positive float, read as a number, is its significand plus `2^52` for each step of
its exponent, so a significand that rounds up to `2^53` carries into the exponent
by plain addition, and a pattern past the largest float is infinity.
-/

namespace ExactLisp.Binary64

/-- What a float denotes. -/
inductive Shape where
  | nan
  | infinite (negative : Bool)
  /-- `significand · 2^exponent`, negated if `negative`; zero has a sign as well. -/
  | finite (negative : Bool) (significand : Nat) (exponent : Int)
  deriving DecidableEq, Repr

/-- The exponent of the last place of the smallest floats. -/
def leastExponent : Int := -1074

/-- The bit pattern of positive infinity. -/
def infinityBits : Nat := 2047 * twoPow 52

/-- Take a float apart. -/
def shape (x : Float) : Shape :=
  let bits := x.toBits.toNat
  let negative : Bool := twoPow 63 ≤ bits
  let biased : Nat := bits / twoPow 52 % 2048
  let fraction : Nat := bits % twoPow 52
  if biased = 2047 then
    if fraction = 0 then .infinite negative else .nan
  else if biased = 0 then .finite negative fraction leastExponent
  else .finite negative (fraction + twoPow 52) (biased - 1075)

/-- Whether a float is neither NaN nor an infinity. -/
def isFinite (x : Float) : Bool :=
  match shape x with
  | .finite .. => true
  | _ => false

/-- `num / den` rounded to the nearest natural number, a tie going to the even one. -/
def roundHalfEven (num den : Nat) : Nat :=
  let q := num / den
  let twice := 2 * (num % den)
  if den < twice ∨ (twice = den ∧ q % 2 = 1) then q + 1 else q

/-- The fraction `num / den` times `2^k`, as a fraction. -/
def timesPowerOfTwo (num den : Nat) (k : Int) : Nat × Nat :=
  if 0 ≤ k then (num * twoPow k.toNat, den) else (num, den * twoPow (-k).toNat)

/-- The largest `k` with `2^k ≤ num / den`. -/
def floorLog2 (num den : Nat) : Int :=
  let k : Int := (num.log2 : Int) - den.log2
  let (n, d) := timesPowerOfTwo num den (-k)
  if d ≤ n then k else k - 1

/-- The bit pattern of the float nearest to `num / den`, without a sign. -/
def nearestBits (num den : Nat) : Nat :=
  if num = 0 then 0
  else
    let exponent := max leastExponent (floorLog2 num den - 52)
    let (n, d) := timesPowerOfTwo num den (-exponent)
    min infinityBits ((exponent - leastExponent).toNat * twoPow 52 + roundHalfEven n d)

/-- The float nearest to `num / den`, with the given sign. -/
def nearest (negative : Bool) (num den : Nat) : Float :=
  Float.ofBits (UInt64.ofNat (nearestBits num den + if negative then twoPow 63 else 0))

/-- The float nearest to an integer. -/
def ofInt (n : Int) : Float := nearest (n < 0) n.natAbs 1

/-- Infinity of the given sign. -/
def infinity (negative : Bool) : Float :=
  Float.ofBits (UInt64.ofNat (infinityBits + if negative then twoPow 63 else 0))

/-- The float that is not a number. -/
def notANumber : Float := Float.ofBits (UInt64.ofNat (infinityBits + twoPow 51))

end ExactLisp.Binary64
