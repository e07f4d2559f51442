import ExactLisp.Arity

/-!
# The built-in functions

Each built-in function has a name, labels for its parameters, which are what its
printed form shows, and an arity. What they compute is in `ExactLisp.Builtin.Run`.
-/

namespace ExactLisp

/-- A function that every default environment has. -/
inductive Builtin where
  | add
  | subtract
  | multiply
  | divide
  | less
  | greater
  | atMost
  | atLeast
  /-- Identity: the same shared object. -/
  | same
  /-- Equality: the same value. -/
  | equal
  | first
  | rest
  | cons
  | length
  | list
  | map
  | nth
  | apply
  | parse
  deriving DecidableEq, Repr

namespace Builtin

/-- Every built-in function. -/
def all : List Builtin :=
  [add, subtract, multiply, divide, less, greater, atMost, atLeast, same, equal, first, rest,
   cons, length, list, map, nth, apply, parse]

/-- The name that a built-in function is bound to. -/
def name : Builtin → String
  | add => "+"
  | subtract => "-"
  | multiply => "*"
  | divide => "/"
  | less => "<"
  | greater => ">"
  | atMost => "<="
  | atLeast => ">="
  | same => "is"
  | equal => "eq"
  | first => "car"
  | rest => "cdr"
  | cons => "cons"
  | length => "length"
  | list => "list"
  | map => "map"
  | nth => "nth"
  | apply => "apply"
  | parse => "parse"

/-- The labels of the parameters; three dots mark any number of arguments. -/
def params : Builtin → List String
  | add | multiply => ["numbers..."]
  | subtract | divide | less | greater | atMost | atLeast => ["number", "numbers..."]
  | same | equal => ["value", "value"]
  | first | rest => ["list"]
  | cons => ["value", "list"]
  | length => ["sequence"]
  | list => ["values..."]
  | map => ["function", "list"]
  | nth => ["int", "sequence"]
  | apply => ["function", "values..."]
  | parse => ["string"]

/-- The number of arguments that a built-in function takes. -/
def arity : Builtin → Arity
  | add | multiply | list => .any
  | subtract | divide | less | greater | atMost | atLeast | apply => .atLeast 1
  | same | equal | cons | map | nth => .exactly 2
  | first | rest | length | parse => .exactly 1

end Builtin

end ExactLisp
