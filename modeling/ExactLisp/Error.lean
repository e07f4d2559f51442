import ExactLisp.Arity
import ExactLisp.ParseError
import ExactLisp.Number.Arithmetic

/-!
# Errors

An error is a cause. The wording is made from it in one place, `Error.message`.

When a callee rejects its arguments, the evaluator wraps the error with the call
it happened in (`Error.atCall`). Only argument errors are wrapped: a value of the
wrong type, a wrong number of arguments, an index out of range.
-/

namespace ExactLisp

/-- Why a value cannot be used where it stands. -/
inductive TypeFault where
  /-- The kind of value that was expected, and the kind that came. -/
  | mismatch (expected got : String)
  /-- NaN and the infinities take no part in exact arithmetic. -/
  | notFinite (x : Float)
  | notCallable (shown : String)
  | definitionTarget (shown : String)
  | parameterList (shown : String)
  | parameterName (shown : String)
  | duplicateParameter (name : String)
  | bindingList (shown : String)
  | binding (shown : String)
  | unsignedRange (n : Int64)
  | receiverMissing
  | receiverMismatch (expected got : String)

namespace TypeFault

/-- The wording of a fault. -/
def message : TypeFault → String
  | mismatch expected got => "expected " ++ expected ++ ", got " ++ got
  | notFinite x =>
    "cannot do exact arithmetic on " ++ Binary64.text x
  | notCallable shown => "Cannot apply non-function: " ++ shown
  | definitionTarget shown => "def expects a symbol name, got " ++ shown
  | parameterList shown => "lambda expects a parameter list, got " ++ shown
  | parameterName shown => "lambda parameter must be a symbol, got " ++ shown
  | duplicateParameter name => "duplicate lambda parameter: " ++ name
  | bindingList shown => "let* expects a binding list, got " ++ shown
  | binding shown => "let* binding must be (name value), got " ++ shown
  | unsignedRange n => Number.int64Text n ++ " is out of range for an unsigned int"
  | receiverMissing => "method called without a receiver"
  | receiverMismatch expected got => "expected receiver of type " ++ expected ++ ", got " ++ got

end TypeFault

/-- Why an evaluation with acceptable arguments has no result. -/
inductive EvaluationFault where
  | divisionByZero
  /-- The environment that a function acts on has been dropped. -/
  | environmentGone
  /-- A fault that the embedding program words itself. -/
  | custom (text : String)
  deriving DecidableEq, Repr

namespace EvaluationFault

/-- The wording of a fault. -/
def message : EvaluationFault → String
  | divisionByZero => "Division by zero"
  | environmentGone => "Environment is no longer available"
  | custom text => text

end EvaluationFault

/-- Why a computation failed. -/
inductive Error where
  | parse (e : ParseError)
  | undefinedSymbol (name : String)
  | type (fault : TypeFault)
  | arity (expected : Arity) (got : Nat)
  | indexOutOfRange (index : Int64) (length : Nat)
  | reservedName (name : String)
  | evaluation (fault : EvaluationFault)
  /-- A failure inside a function of the host program. -/
  | host (function text : String)
  /-- An error with the call it came from: the head as written, and what it denoted. -/
  | atCall (head callee : String) (cause : Error)

namespace Error

/-- The wording of an error. -/
def message : Error → String
  | parse e => e.text
  | undefinedSymbol name => "Symbol undefined: " ++ name
  | type fault => "Type error: " ++ fault.message
  | arity expected got => s!"Arity error: expected {expected.text} arguments, got {got}"
  | indexOutOfRange index length =>
    "Index " ++ Number.int64Text index ++ s!" out of range for length {length}"
  | reservedName name => "Reserved name cannot be rebound: " ++ name
  | evaluation fault => "Evaluation error: " ++ fault.message
  | host function text => "Host function " ++ function ++ " failed: " ++ text
  | atCall head callee cause => head ++ ": " ++ callee ++ "\n" ++ cause.message

/-- Whether a callee rejected the shape of its arguments. -/
def isArgumentError : Error → Bool
  | type _ | arity .. | indexOutOfRange .. => true
  | _ => false

/-- The innermost error beneath any call sites. -/
def rootCause : Error → Error
  | atCall _ _ cause => cause.rootCause
  | e => e

/-- The error that a fault in arithmetic is. -/
def ofArithmetic : ArithmeticFault → Error
  | .notFinite x => type (.notFinite x)
  | .divisionByZero => evaluation .divisionByZero

/-- Check the number of arguments. -/
def checkArity (expected : Arity) (got : Nat) : Except Error Unit :=
  if expected.accepts got then .ok () else .error (.arity expected got)

end Error

end ExactLisp
