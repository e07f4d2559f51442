import ExactLisp.Expr.Basic
import ExactLisp.Error

/-!
# Arguments

How a function takes its arguments as values of the types it works on. An
argument of another type is a type fault that names both types. The rest of a
variable number of arguments is checked as a whole, from the left, before the
function runs.
-/

namespace ExactLisp

namespace Expr

/-- The fault of an argument that is not of the expected kind. -/
def mismatch {α : Type} (expected : String) (e : Expr) : Except Error α :=
  .error (.type (.mismatch expected e.typeName))

/-- A 64-bit integer. -/
def asInt64 : Expr → Except Error Int64
  | atom (.number (.int n)) => .ok n
  | e => mismatch "integer" e

/-- A boolean. -/
def asBool : Expr → Except Error Bool
  | atom (.bool b) => .ok b
  | e => mismatch "boolean" e

/-- A number in any representation. -/
def asNumber : Expr → Except Error Number
  | atom (.number n) => .ok n
  | e => mismatch "number" e

/-- The characters of a string. -/
def asString : Expr → Except Error String
  | atom (.str _ s) => .ok s
  | e => mismatch "string" e

/-- The items of a list. -/
def asItems : Expr → Except Error (List Expr)
  | list _ items => .ok items
  | e => mismatch "list" e

/-- Anything that can be called. -/
def asFunction (e : Expr) : Except Error Expr :=
  if e.isFunction then .ok e else mismatch "function" e

/-- The elements of a list or an array. -/
def asSequence : Expr → Except Error (List Expr)
  | list _ items => .ok items
  | array _ elements => .ok (elements.map atom)
  | e => mismatch "list or array" e

/-- Convert every expression, stopping at the first that cannot be. -/
def convertAll {α : Type} (convert : Expr → Except Error α) :
    List Expr → Except Error (List α)
  | [] => .ok []
  | e :: rest =>
    match convert e with
    | .ok a =>
      match convertAll convert rest with
      | .ok as => .ok (a :: as)
      | .error err => .error err
    | .error err => .error err

/-- Numbers only. -/
def asNumbers : List Expr → Except Error (List Number) := convertAll asNumber

/-- Strings only. -/
def asStrings : List Expr → Except Error (List String) := convertAll asString

end Expr

end ExactLisp
