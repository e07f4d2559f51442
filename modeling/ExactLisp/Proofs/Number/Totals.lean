import ExactLisp.Number.Arithmetic

/-!
# Exact totals

An arithmetic operation computes exactly throughout, and reduces what it has come to once, at
the end (`Operation.result_eq`). That exact total is what has to be known of a result beyond the
number that it is: other decimals may be reduced to the same number.
-/

namespace ExactLisp.Number

/-- An arithmetic operation with its operands. -/
inductive Operation where
  | sum (numbers : List Number)
  | product (numbers : List Number)
  | difference (first : Number) (rest : List Number)
  | quotient (first : Number) (rest : List Number)

namespace Operation

/-- The result of an operation. -/
def result : Operation → Except ArithmeticFault Number
  | sum numbers => Number.sum numbers
  | product numbers => Number.product numbers
  | difference first rest => Number.difference first rest
  | quotient first rest => Number.quotient first rest

/-- What an operation comes to before it is reduced. -/
def total : Operation → Except ArithmeticFault Decimal
  | sum numbers => foldExact (fun a b => .ok (a + b)) Decimal.zero numbers
  | product numbers => foldExact (fun a b => .ok (a * b)) (Decimal.ofInt 1) numbers
  | difference first rest => first.lift.bind fun d => foldExact (fun a b => .ok (a - b)) d rest
  | quotient first rest => first.lift.bind fun d => foldExact divideStep d rest

/-- **A result is the exact total**, reduced. -/
theorem result_eq (op : Operation) : op.result = op.total.map reduce := by
  cases op with
  | sum | product => rfl
  | difference first rest =>
    rw [result, Number.difference, total]
    cases first.lift <;> rfl
  | quotient first rest =>
    rw [result, Number.quotient, total]
    cases first.lift <;> rfl

theorem exists_total {op : Operation} {r : Number} (h : op.result = .ok r) :
    ∃ d, op.total = .ok d ∧ r = reduce d := by
  rw [result_eq] at h
  cases htotal : op.total with
  | ok d =>
    rw [htotal] at h
    exact ⟨d, rfl, (Except.ok.inj h).symm⟩
  | error fault =>
    rw [htotal] at h
    cases h

end Operation

end ExactLisp.Number
