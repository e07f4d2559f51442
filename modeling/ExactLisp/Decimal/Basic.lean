import ExactLisp.Binary64.Text

/-!
# Exact decimals

A decimal is an integer `unscaled` with a `scale`: it denotes `unscaled / 10^scale`.
The scale may be negative. The same value has many forms, so equality compares
values: both sides are brought to the larger of the two scales first.

Addition, subtraction and multiplication are exact. Division is the one operation
that rounds, half away from zero, to a scale the caller chooses. Scales are kept
within 32 bits: a product whose scale would leave that range stops at its end.
-/

namespace ExactLisp

/-- The number `unscaled / 10^scale`. -/
structure Decimal where
  unscaled : Int
  scale : Int
  deriving Repr, Inhabited

namespace Decimal

/-- The least scale a decimal may have. -/
def leastScale : Int := -(twoPow 31 : Int)

/-- The greatest scale a decimal may have. -/
def greatestScale : Int := (twoPow 31 : Int) - 1

/-- How far apart two scales can lie. -/
def greatestShift : Int := (twoPow 32 : Int) - 1

/-- Whether a scale is within range. -/
def scaleFits (scale : Int) : Bool := leastScale ≤ scale && scale ≤ greatestScale

/-- The decimal zero. -/
def zero : Decimal := ⟨0, 0⟩

/-- An integer as a decimal. -/
def ofInt (n : Int) : Decimal := ⟨n, 0⟩

/-- Whether the value is zero. -/
def isZero (d : Decimal) : Bool := d.unscaled = 0

/-! ## Whole values -/

/-- Whether the value is an integer. -/
def isInteger (d : Decimal) : Bool :=
  d.scale ≤ 0 || d.unscaled.tmod (tenPow d.scale.toNat) = 0

/-- The value as an integer, if it is one. -/
def toInteger? (d : Decimal) : Option Int :=
  if d.scale ≤ 0 then some (d.unscaled * tenPow (-d.scale).toNat)
  else if d.unscaled.tmod (tenPow d.scale.toNat) = 0 then
    some (d.unscaled.tdiv (tenPow d.scale.toNat))
  else none

/-- How many times ten divides a positive number; none for zero. -/
def trailingZeros (n : Nat) : Nat :=
  if h : 0 < n ∧ n % 10 = 0 then trailingZeros (n / 10) + 1 else 0
termination_by n
decreasing_by omega

/-- The same value with the fewest digits: no factor ten in `unscaled`, and zero at scale zero. -/
def stripped (d : Decimal) : Decimal :=
  if d.unscaled = 0 then zero
  else
    let zeros := trailingZeros d.unscaled.natAbs
    ⟨d.unscaled.tdiv (tenPow zeros), d.scale - zeros⟩

/-! ## Arithmetic -/

/-- The unscaled part that the value has at a scale not smaller than its own. -/
def atScale (d : Decimal) (scale : Int) : Int := d.unscaled * tenPow (scale - d.scale).toNat

/-- The smallest scale at which both values can be written. -/
def commonScale (a b : Decimal) : Int := max a.scale b.scale

instance : BEq Decimal :=
  ⟨fun a b => a.atScale (commonScale a b) = b.atScale (commonScale a b)⟩

instance : Add Decimal :=
  ⟨fun a b => ⟨a.atScale (commonScale a b) + b.atScale (commonScale a b), commonScale a b⟩⟩

instance : Sub Decimal :=
  ⟨fun a b => ⟨a.atScale (commonScale a b) - b.atScale (commonScale a b), commonScale a b⟩⟩

instance : Mul Decimal :=
  ⟨fun a b => ⟨a.unscaled * b.unscaled, max leastScale (min greatestScale (a.scale + b.scale))⟩⟩

/--
The integer nearest to `num / den`, a tie going away from zero. The quotient toward
zero is moved one step away from it when the remainder reaches half the divisor.
-/
def roundHalfAway (num den : Int) : Int :=
  let q := num.tdiv den
  if den.natAbs ≤ 2 * (num.tmod den).natAbs then
    if num < 0 ↔ den < 0 then q + 1 else q - 1
  else q

/--
The quotient rounded to `scale` places. There is none for a divisor of zero, for a
scale out of range, and for operands whose scales lie too far apart.
-/
def div? (a b : Decimal) (scale : Nat) : Option Decimal :=
  let shift : Int := scale + b.scale - a.scale
  if b.isZero ∨ greatestScale < scale ∨ greatestShift < shift.natAbs then none
  else if 0 ≤ shift then some ⟨roundHalfAway (a.unscaled * tenPow shift.toNat) b.unscaled, scale⟩
  else some ⟨roundHalfAway a.unscaled (b.unscaled * tenPow (-shift).toNat), scale⟩

/-! ## Floats -/

/--
The float that the value reads as in scientific notation, with the unscaled part for
its digits: the nearest one, infinite beyond the range of floats.
-/
def toFloat (d : Decimal) : Float :=
  Binary64.ofDecimal (d.unscaled < 0) d.unscaled.natAbs (Binary64.heeded (-d.scale))

/-- The shortest decimal that reads back as a float, if the float is finite. -/
def ofFloat? (x : Float) : Option Decimal :=
  match Binary64.shape x with
  | .finite negative m q =>
    if m = 0 then some zero
    else
      let (c, k) := Binary64.shortest m q
      some ⟨if negative then -(c : Int) else c, -k⟩
  | _ => none

end Decimal

end ExactLisp
