import ExactLisp.Binary64.Shortest

/-!
# Floats as text

A float is written with the digits of its shortest decimal: positionally for
everyday magnitudes, always with a point, and with an exponent otherwise. A text
is read as the nearest float to the decimal it spells, where only the leading digits
of a very long exponent count (`heeded`).
-/

namespace ExactLisp.Binary64

/-- The float nearest to `c · 10^k`. -/
def ofDecimal (negative : Bool) (c : Nat) (k : Int) : Float :=
  let (num, den) := decimalFraction c k
  nearest negative num den

/-! ## Exponents -/

/-- An exponent of this size is ample: no text of moderate length needs a larger one. -/
def ampleExponent : Nat := twoPow 16

/--
The size of an exponent as it counts in scientific notation. Its digits are read
from the left until the number is ample, and the digits after that are ignored: the
last digit does not count if the number before it is ample already.
-/
def heededSize (n : Nat) : Nat :=
  if h : ampleExponent ≤ n / 10 then heededSize (n / 10) else n
termination_by n
decreasing_by
  have := twoPow_pos 16
  unfold ampleExponent at h
  omega

/-- An exponent as it counts in scientific notation. -/
def heeded (e : Int) : Int := if e < 0 then -(heededSize e.natAbs : Int) else heededSize e.natAbs

theorem heededSize_of_lt {n : Nat} (h : n < 10 * ampleExponent) : heededSize n = n := by
  rw [heededSize, dif_neg]
  exact Nat.not_le.mpr (Nat.div_lt_of_lt_mul h)

/-- All digits of an exponent count up to ten times the ample size. -/
theorem heeded_of_natAbs_lt {e : Int} (h : e.natAbs < 10 * ampleExponent) : heeded e = e := by
  rw [heeded, heededSize_of_lt h]
  split <;> omega

/-! ## Writing -/

/-- Which magnitudes are written positionally, by the place of the decimal point. -/
structure Layout where
  /-- The leftmost place of the point: `0.0001` has it three places left of the digits. -/
  leftmost : Int
  /-- The rightmost place of the point. -/
  rightmost : Int

/-- Floats from `0.0001` up to, but not including, `1e16` are written positionally. -/
def layout : Layout := { leftmost := -3, rightmost := 16 }

/-- Digits with a point after the first `point` of them, padded with zeros to reach it. -/
def positional (digits : List Char) (point : Int) : List Char :=
  if point ≤ 0 then '0' :: '.' :: (List.replicate (-point).toNat '0' ++ digits)
  else if digits.length ≤ point then
    digits ++ List.replicate (point.toNat - digits.length) '0' ++ ['.', '0']
  else digits.take point.toNat ++ '.' :: digits.drop point.toNat

/-- The first digit, a point before the others if there are any, and the exponent. -/
def scientific (digits : List Char) (point : Int) : List Char :=
  let mantissa :=
    match digits with
    | d :: e :: rest => d :: '.' :: e :: rest
    | short => short
  mantissa ++ 'e' :: (toString (point - 1)).toList

/-- The text of a positive float `m · 2^q`. -/
def magnitudeText (m : Nat) (q : Int) : List Char :=
  let (c, k) := shortest m q
  let digits := Nat.toDigits 10 c
  let point := digits.length + k
  if layout.leftmost ≤ point ∧ point ≤ layout.rightmost then positional digits point
  else scientific digits point

/-- The text of a float. -/
def text (x : Float) : String :=
  match shape x with
  | .nan => "NaN"
  | .infinite negative => if negative then "-inf" else "inf"
  | .finite negative m q =>
    let magnitude := if m = 0 then ['0', '.', '0'] else magnitudeText m q
    String.ofList (if negative then '-' :: magnitude else magnitude)

/-! ## Reading -/

/-- An exponent mark and the signed digits after it; no mark means exponent zero. -/
def exponent? : List Char → Option Int
  | [] => some 0
  | c :: cs => if c = 'e' ∨ c = 'E' then integer? cs else none

/-- A magnitude: digits with at most one point and an optional exponent. -/
def magnitude? (negative : Bool) (cs : List Char) : Option Float :=
  let whole := cs.takeWhile Char.isDigit
  let (fraction, rest) :=
    match cs.dropWhile Char.isDigit with
    | '.' :: after => (after.takeWhile Char.isDigit, after.dropWhile Char.isDigit)
    | after => ([], after)
  if whole = [] ∧ fraction = [] then none
  else
    (exponent? rest).map fun e =>
      ofDecimal negative (digitsValue (whole ++ fraction)) (heeded e - fraction.length)

/-- The finite or overflowing decimal that a text spells, with an optional sign. -/
def parse? : List Char → Option Float
  | '-' :: cs => magnitude? true cs
  | '+' :: cs => magnitude? false cs
  | cs => magnitude? false cs

/-- A float from its text, the texts of NaN and the infinities included. -/
def ofText? (s : String) : Option Float :=
  if s = "NaN" then some notANumber
  else if s = "inf" then some (infinity false)
  else if s = "-inf" then some (infinity true)
  else parse? s.toList

end ExactLisp.Binary64
