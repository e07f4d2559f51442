import ExactLisp.Number.Basic

/-!
# Exact arithmetic on numbers

Every operand is lifted to an exact decimal, the computation is exact throughout,
and only the final value is reduced to a number again. Operands are lifted one by
one as the fold reaches them, so the leftmost operand that cannot take part decides
the fault.
-/

namespace ExactLisp

/-- Why an arithmetic operation has no result. -/
inductive ArithmeticFault where
  /-- NaN and the infinities have no exact value. -/
  | notFinite (x : Float)
  | divisionByZero

namespace Number

/-- Places kept after the point by division. -/
def quotientScale : Nat := 32

/-- The exact value of an operand. -/
def lift (n : Number) : Except ArithmeticFault Decimal :=
  match n.toDecimal? with
  | some d => .ok d
  | none => .error (.notFinite n.toFloat)

/-- Combine a running total with each number in turn. -/
def foldExact (step : Decimal → Decimal → Except ArithmeticFault Decimal) :
    Decimal → List Number → Except ArithmeticFault Decimal
  | total, [] => .ok total
  | total, n :: rest =>
    match n.lift with
    | .ok d =>
      match step total d with
      | .ok next => foldExact step next rest
      | .error fault => .error fault
    | .error fault => .error fault

/-- The sum of some numbers, zero for none. -/
def sum (numbers : List Number) : Except ArithmeticFault Number :=
  (foldExact (fun a b => .ok (a + b)) Decimal.zero numbers).map reduce

/-- The product of some numbers, one for none. -/
def product (numbers : List Number) : Except ArithmeticFault Number :=
  (foldExact (fun a b => .ok (a * b)) (Decimal.ofInt 1) numbers).map reduce

/-- A number less each of the others in turn. -/
def difference (first : Number) (rest : List Number) : Except ArithmeticFault Number :=
  match first.lift with
  | .ok total => (foldExact (fun a b => .ok (a - b)) total rest).map reduce
  | .error fault => .error fault

/-- One step of a division, rounded to `quotientScale` places. -/
def divideStep (a b : Decimal) : Except ArithmeticFault Decimal :=
  match a.div? b quotientScale with
  | some q => .ok q
  | none => .error .divisionByZero

/-- A number divided by each of the others in turn. -/
def quotient (first : Number) (rest : List Number) : Except ArithmeticFault Number :=
  match first.lift with
  | .ok total => (foldExact divideStep total rest).map reduce
  | .error fault => .error fault

end Number

end ExactLisp
