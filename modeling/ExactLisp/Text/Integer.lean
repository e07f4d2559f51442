/-!
# Whole numbers as text

Decimal digits read from the left, with at most one sign in front. Two spellings
are in use: plain digits, and digits with underscores between or after them.
-/

namespace ExactLisp

/-- The value of one decimal digit. -/
def digitValue (c : Char) : Nat := c.toNat - '0'.toNat

/-- The number that a run of decimal digits denotes, most significant first. -/
def digitsValue (cs : List Char) : Nat :=
  cs.foldl (fun n c => 10 * n + digitValue c) 0

/-- A natural number from one or more decimal digits. -/
def natural? (cs : List Char) : Option Nat :=
  if cs ≠ [] ∧ cs.all Char.isDigit then some (digitsValue cs) else none

/-- A natural number from decimal digits with underscores anywhere but in front. -/
def groupedNatural? (cs : List Char) : Option Nat :=
  if cs.head?.any Char.isDigit ∧ cs.all (fun c => c.isDigit || c == '_') then
    some (digitsValue (cs.filter Char.isDigit))
  else none

/-- Read an optional sign, then a magnitude in the given spelling. -/
def signed? (magnitude? : List Char → Option Nat) : List Char → Option Int
  | '-' :: cs => (magnitude? cs).map fun n => -(n : Int)
  | '+' :: cs => (magnitude? cs).map fun n => (n : Int)
  | cs => (magnitude? cs).map fun n => (n : Int)

/-- An integer from an optional sign and decimal digits. -/
def integer? : List Char → Option Int := signed? natural?

/-- An integer whose digits may be grouped with underscores. -/
def groupedInteger? : List Char → Option Int := signed? groupedNatural?

/-- An integer that fits in 64 bits. -/
def int64? (cs : List Char) : Option Int64 :=
  match integer? cs with
  | some n =>
    if Int64.minValue.toInt ≤ n ∧ n ≤ Int64.maxValue.toInt then some (Int64.ofInt n) else none
  | none => none

/-- How many decimal digits a natural number has; zero has one. -/
def digitCount (n : Nat) : Nat := (Nat.toDigits 10 n).length

end ExactLisp
