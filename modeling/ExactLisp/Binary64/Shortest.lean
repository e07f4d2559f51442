import ExactLisp.Binary64.Basic
import ExactLisp.Text.Integer

/-!
# The shortest decimal that reads back

Every float is the nearest float to each decimal in an interval around it. The
shortest of these decimals, and of several equally short ones the nearest to the
float, is how the float is written and what it counts as in exact arithmetic.

The interval reaches half way to each neighbour. Its ends belong to it exactly
when the significand is even, since a tie goes to the even one. For one digit,
two digits, and so on, the two points of the decimal grid around the float are
tested in exact arithmetic; seventeen digits always suffice.
-/

namespace ExactLisp.Binary64

/--
A positive float with its interval, over one denominator: the float is
`value / den`, and the decimals that read back as it lie between `low / den` and
`high / den`, ends included if `closed`.
-/
structure Interval where
  low : Nat
  value : Nat
  high : Nat
  den : Nat
  closed : Bool

/--
The interval of the float `m · 2^q`. At a power of two the neighbour below is half
as far away as the one above; in quarters of the last place the ends are then one
below and two above.
-/
def Interval.of (m : Nat) (q : Int) : Interval :=
  let below := if m = twoPow 52 ∧ leastExponent < q then 1 else 2
  let (unit, den) := timesPowerOfTwo 1 1 (q - 2)
  { low := (4 * m - below) * unit
    value := 4 * m * unit
    high := (4 * m + 2) * unit
    den := den
    closed := m % 2 = 0 }

/-- Whether `num / den` reads back as the float of the interval. -/
def Interval.holds (i : Interval) (num den : Nat) : Bool :=
  if i.closed then i.low * den ≤ num * i.den && num * i.den ≤ i.high * den
  else i.low * den < num * i.den && num * i.den < i.high * den

/-- The `k` with `10^(k-1) ≤ num / den < 10^k`, for a positive fraction. -/
def decimalPoint (num den : Nat) : Int :=
  if den ≤ num then digitCount (num / den) else 1 - (digitCount ((den - 1) / num) : Int)

/-- `c · 10^k` as a fraction. -/
def decimalFraction (c : Nat) (k : Int) : Nat × Nat :=
  if 0 ≤ k then (c * tenPow k.toNat, 1) else (c, tenPow (-k).toNat)

/--
The decimal `c · 10^k` nearest to the float among those that read back, if there is
one on the grid of multiples of `10^k`. Of two that are equally near, the larger.
-/
def Interval.onGrid (i : Interval) (k : Int) : Option (Nat × Int) :=
  let (unitNum, unitDen) := decimalFraction 1 k
  let floor := i.value * unitDen / (i.den * unitNum)
  let fits (c : Nat) : Bool := i.holds (c * unitNum) unitDen
  let rest := i.value * unitDen % (i.den * unitNum)
  let above := i.den * unitNum ≤ 2 * rest
  if fits floor && !(above && fits (floor + 1)) then some (floor, k)
  else if fits (floor + 1) then some (floor + 1, k)
  else none

/--
The shortest decimal `c · 10^k` that reads back as the positive float `m · 2^q`, as
the pair of `c` and `k`. A single digit may round up to ten, which is one digit of
the next place.
-/
def shortest (m : Nat) (q : Int) : Nat × Int :=
  let i := Interval.of m q
  let point := decimalPoint i.value i.den
  match (List.range 17).findSome? fun (n : Nat) => i.onGrid (point - (n + 1)) with
  | some (c, k) => if c % 10 = 0 then (c / 10, k + 1) else (c, k)
  | none => (0, 0)

end ExactLisp.Binary64
