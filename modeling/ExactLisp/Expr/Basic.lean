import ExactLisp.Builtin.Basic
import ExactLisp.Datum.Basic

/-!
# Expressions

An expression is a value of the running language, and code is made of the same
values. Lists, arrays, strings and functions are shared objects: each carries a
reference that tells it from every other object, equal or not. Symbols, numbers,
booleans and null have no identity of their own.

Two comparisons follow. Identity compares references where there are any.
Equality compares contents, and functions and host objects by reference.

Functions hold no code of the surrounding program. A built-in function is named by
its constructor, a function of the embedding program by its key, and a closure
holds its body and the scope it was made in.
-/

namespace ExactLisp

/-- What tells one shared object from another. -/
abbrev Ref := Nat

/-- A scope of bindings. -/
abbrev ScopeId := Nat

/-- An object that belongs to the host program. -/
structure HostObject where
  /-- Which object it is. -/
  id : Nat
  typeName : String
  deriving DecidableEq, Repr

/-- What a native function does. -/
inductive NativeCode where
  | builtin (b : Builtin)
  /-- Evaluate the argument in the scope that the function was made for. -/
  | eval (ambient : ScopeId)
  /-- Read and evaluate a text in the scope that the function was made for. -/
  | exec (ambient : ScopeId)
  /-- An operation of the embedding program. -/
  | embedded (key : String)
  deriving DecidableEq, Repr

/-- A function that works on expressions. -/
structure Native where
  name : String
  /-- Labels of the parameters, for display only. -/
  params : List String
  arity : Arity
  code : NativeCode
  deriving DecidableEq, Repr

/-- A function that works on host values, possibly bound to an object as its method. -/
structure HostFunction where
  name : String
  /-- Labels of the parameters, for display only. -/
  params : List String
  receiver : Option HostObject
  key : String
  deriving DecidableEq, Repr

/-- A value without parts. -/
inductive Atom where
  | null
  | bool (b : Bool)
  | number (n : Number)
  | str (ref : Ref) (s : String)
  | object (o : HostObject)
  deriving Inhabited

/-- The elements of an array. Integers or floats alone may be kept without the rest of an atom. -/
inductive Elements where
  | ints (items : List Int64)
  | floats (items : List Float)
  | mixed (items : List Atom)
  deriving Inhabited

/-- A value of the language. -/
inductive Expr where
  | symbol (name : String)
  | list (ref : Ref) (items : List Expr)
  | array (ref : Ref) (elements : Elements)
  | atom (a : Atom)
  | native (ref : Ref) (f : Native)
  | closure (ref : Ref) (params : List String) (body : List Expr) (scope : ScopeId)
  | host (ref : Ref) (f : HostFunction)
  deriving Inhabited

namespace Atom

/-- The number that an atom is, if it is one. -/
def number? : Atom → Option Number
  | number n => some n
  | _ => none

/-- The 64-bit integer that an atom is, if it is one. -/
def int? : Atom → Option Int64
  | number (.int n) => some n
  | _ => none

/-- The float that an atom is, if it is one. -/
def float? : Atom → Option Float
  | number (.float x) => some x
  | _ => none

/-- Equality of contents; host objects are equal only to themselves. -/
protected def beq : Atom → Atom → Bool
  | null, null => true
  | bool a, bool b => a == b
  | number a, number b => a == b
  | str _ a, str _ b => a == b
  | object a, object b => a.id == b.id
  | _, _ => false

instance : BEq Atom := ⟨Atom.beq⟩

/-- Identity: strings are compared by reference, everything else as by equality. -/
def identical : Atom → Atom → Bool
  | str a _, str b _ => a == b
  | a, b => a == b

/-- The name of the type of an atom. -/
def typeName : Atom → String
  | null => "null"
  | bool _ => "boolean"
  | number _ => "number"
  | str .. => "string"
  | object _ => "object"

end Atom

namespace Elements

/-- The elements as atoms, however they are kept. -/
def atoms : Elements → List Atom
  | ints items => items.map fun n => .number (.int n)
  | floats items => items.map fun x => .number (.float x)
  | mixed items => items

/-- A list of what each element is made into. -/
def map {α : Type} (f : Atom → α) (elements : Elements) : List α := elements.atoms.map f

/-- Atoms as the elements of an array, kept as the narrowest kind that holds them. -/
def ofAtoms (atoms : List Atom) : Elements :=
  match ArrayKind.of (atoms.map Atom.number?) with
  | .int => ints (atoms.filterMap Atom.int?)
  | .float => floats (atoms.filterMap Atom.float?)
  | .mixed => mixed atoms

/-- Equality: of the elements, if they are kept in the same way. -/
protected def beq : Elements → Elements → Bool
  | ints a, ints b => a == b
  | floats a, floats b => a == b
  | mixed a, mixed b => a == b
  | _, _ => false

instance : BEq Elements := ⟨Elements.beq⟩

end Elements

namespace Expr

/-- The value null. -/
def null : Expr := .atom .null

/-- A boolean. -/
def bool (b : Bool) : Expr := .atom (.bool b)

/-- A number. -/
def number (n : Number) : Expr := .atom (.number n)

/-- A natural number, such as a length. -/
def nat (n : Nat) : Expr := .number (.reduce (.ofInt n))

/-- Whether an expression is the empty list. -/
def isNil : Expr → Bool
  | list _ items => items.isEmpty
  | _ => false

/-- Null, false and the empty list are false; everything else is true. -/
def isTruthy : Expr → Bool
  | atom .null => false
  | atom (.bool b) => b
  | e => !e.isNil

/-- The reference of a function; nothing else has one here. -/
def functionRef? : Expr → Option Ref
  | native ref _ | closure ref .. | host ref _ => some ref
  | _ => none

/-- Whether an expression can stand at the head of a call. -/
def isFunction (e : Expr) : Bool := e.functionRef?.isSome

/-- Whether two expressions are functions with one reference. -/
def sameFunction (a b : Expr) : Bool :=
  match a.functionRef?, b.functionRef? with
  | some r, some s => r == s
  | _, _ => false

/-- Identity: shared objects by reference, other values by content. -/
def identical : Expr → Expr → Bool
  | symbol a, symbol b => a == b
  | list a _, list b _ => a == b
  | array a _, array b _ => a == b
  | atom a, atom b => a.identical b
  | a, b => a.sameFunction b

/-- The kind of an array, which is how its elements are kept. -/
def arrayKind : Elements → ArrayKind
  | .ints _ => .int
  | .floats _ => .float
  | .mixed _ => .mixed

mutual

/-- Equality of contents. -/
protected def beq : Expr → Expr → Bool
  | symbol a, symbol b => a == b
  | list _ a, list _ b => Expr.beqAll a b
  | array _ a, array _ b => a == b
  | atom a, atom b => a == b
  | a, b => a.sameFunction b

/-- Equality of lists of expressions. -/
protected def beqAll : List Expr → List Expr → Bool
  | [], [] => true
  | a :: as, b :: bs => Expr.beq a b && Expr.beqAll as bs
  | _, _ => false

end

instance : BEq Expr := ⟨Expr.beq⟩

/-- The name of a symbol. -/
def symbol? : Expr → Option String
  | symbol name => some name
  | _ => none

/-- The items of a list. -/
def items? : Expr → Option (List Expr)
  | list _ items => some items
  | _ => none

/-- The name of the type of an expression, as error messages give it. -/
def typeName : Expr → String
  | symbol _ => "symbol"
  | list .. => "list"
  | array .. => "array"
  | atom a => a.typeName
  | native .. | closure .. | host .. => "function"

end Expr

end ExactLisp
