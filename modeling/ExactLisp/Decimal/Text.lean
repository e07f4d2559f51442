import ExactLisp.Decimal.Basic

/-!
# Decimals as text

A decimal is written positionally, whatever its scale: trailing zeros for a
negative scale, a point with exactly `scale` digits after it for a positive one.
Reading also takes a scientific exponent, a missing whole part, and underscores
among the digits before the point.
-/

namespace ExactLisp.Decimal

/-- The digits of a magnitude, after as many zeros as make them more than `scale`. -/
def padded (magnitude scale : Nat) : List Char :=
  let digits := Nat.toDigits 10 magnitude
  List.replicate (scale + 1 - digits.length) '0' ++ digits

/-- A magnitude with `scale` digits after the point and at least one before it. -/
def pointed (magnitude scale : Nat) : List Char :=
  let digits := padded magnitude scale
  digits.take (digits.length - scale) ++ '.' :: digits.drop (digits.length - scale)

/-- The text of a decimal; it never has an exponent. -/
def text (d : Decimal) : String :=
  if d.unscaled = 0 then "0"
  else
    let magnitude :=
      if d.scale ≤ 0 then
        Nat.toDigits 10 d.unscaled.natAbs ++ List.replicate (-d.scale).toNat '0'
      else pointed d.unscaled.natAbs d.scale.toNat
    String.ofList (if d.unscaled < 0 then '-' :: magnitude else magnitude)

/-- The text shown when a decimal is inspected. -/
def inspect (d : Decimal) : String := "Decimal(" ++ d.text ++ ")"

/-- Whether a character starts an exponent. -/
def isExponentMark (c : Char) : Bool := c == 'e' || c == 'E'

/-- The exponent after its mark, within 32 bits. -/
def exponent? (cs : List Char) : Option Int :=
  match integer? cs with
  | some e => if scaleFits e then some e else none
  | none => none

/-- A whole part with no digit of its own counts as zero, with its sign if it has one. -/
def wholeDigits (whole : List Char) : List Char :=
  if whole = [] ∨ whole = ['-'] ∨ whole = ['+'] then whole ++ ['0'] else whole

/-- Read a mantissa with the given exponent. -/
def ofMantissa? (mantissa : List Char) (exponent : Int) : Option Decimal :=
  let whole := mantissa.takeWhile (· != '.')
  let fraction := (mantissa.dropWhile (· != '.')).drop 1
  if fraction.all Char.isDigit && (whole.any Char.isDigit || !fraction.isEmpty) then
    match groupedInteger? (wholeDigits whole ++ fraction) with
    | some unscaled =>
      let places : Int := fraction.length
      if scaleFits places && scaleFits (places - exponent) then
        some ⟨unscaled, places - exponent⟩
      else none
    | none => none
  else none

/-- Read a decimal in plain or scientific notation. -/
def parse? (s : String) : Option Decimal :=
  let cs := s.toList
  let mantissa := cs.takeWhile (!isExponentMark ·)
  match cs.dropWhile (!isExponentMark ·) with
  | [] => ofMantissa? mantissa 0
  | _ :: digits => (exponent? digits).bind (ofMantissa? mantissa)

end ExactLisp.Decimal
