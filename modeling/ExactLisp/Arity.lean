/-!
# Arity

How many arguments a function or a special form takes.
-/

namespace ExactLisp

/-- The number of arguments that is expected. -/
inductive Arity where
  | exactly (n : Nat)
  | atLeast (n : Nat)
  | any
  deriving DecidableEq, Repr

namespace Arity

/-- Whether a number of arguments is accepted. -/
def accepts : Arity → Nat → Bool
  | exactly n, got => got == n
  | atLeast n, got => n ≤ got
  | any, _ => true

/-- How the expectation is worded. -/
def text : Arity → String
  | exactly n => s!"exactly {n}"
  | atLeast n => s!"at least {n}"
  | any => "any number of"

end Arity

end ExactLisp
