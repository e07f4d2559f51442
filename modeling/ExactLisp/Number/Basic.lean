import ExactLisp.Decimal.Text

/-!
# Numbers

A number of the language has one of three representations: a 64-bit integer, a
float, or an exact decimal for what neither of them can hold. `Number.reduce`
picks the narrowest one for a value: a whole value is an integer if it fits and an
exact decimal otherwise; a fractional value is a float if that is finite and an
exact decimal otherwise.

Numbers are equal only within one representation. Floats compare as floats, so NaN
differs from itself and the two zeros are equal; exact decimals compare by value.
-/

namespace ExactLisp

/-- A number in one of its three representations. -/
inductive Number where
  | int (n : Int64)
  | float (x : Float)
  | big (d : Decimal)
  deriving Inhabited

namespace Number

/-- Whether an integer fits in 64 bits. -/
def fitsInt64 (n : Int) : Bool := Int64.minValue.toInt ≤ n && n ≤ Int64.maxValue.toInt

/-- The narrowest representation of a value. -/
def reduce (d : Decimal) : Number :=
  match d.toInteger? with
  | some n => if fitsInt64 n then .int (Int64.ofInt n) else .big (Decimal.ofInt n)
  | none =>
    let x := d.toFloat
    if Binary64.isFinite x then .float x else .big d.stripped

/-- The exact value; floats count as their shortest decimal, and non-finite ones have none. -/
def toDecimal? : Number → Option Decimal
  | .int n => some (Decimal.ofInt n.toInt)
  | .float x => Decimal.ofFloat? x
  | .big d => some d

/-- The nearest float. -/
def toFloat : Number → Float
  | .int n => Binary64.ofInt n.toInt
  | .float x => x
  | .big d => d.toFloat

/-- Equality within one representation. -/
protected def beq : Number → Number → Bool
  | .int a, .int b => a == b
  | .float a, .float b => a == b
  | .big a, .big b => a == b
  | _, _ => false

instance : BEq Number := ⟨Number.beq⟩

/-- A 64-bit integer in decimal digits. -/
def int64Text (n : Int64) : String := toString n.toInt

/-- The text of a number, as the reader takes it. -/
def text : Number → String
  | .int n => int64Text n
  | .float x => Binary64.text x
  | .big d => d.text

/-- The text shown when a number is inspected: its representation and its text. -/
def inspect : Number → String
  | .int n => "Int(" ++ int64Text n ++ ")"
  | .float x => "Float(" ++ Binary64.text x ++ ")"
  | .big d => "Big(" ++ d.text ++ ")"

end Number

end ExactLisp
