import ExactLisp.Datum.Read
import ExactLisp.Expr.Argument
import ExactLisp.Expr.Text
import ExactLisp.Store

/-!
# Computations

A computation acts on the store and ends in a value, in an error, or by running
out of steps. What it did to the store stays done in every case.
-/

namespace ExactLisp

/-- Why a computation has no value. -/
inductive Stop where
  | error (e : Error)
  /-- The bound on the depth of evaluation was reached. -/
  | exhausted

/-- A computation on the store. -/
abbrev StoreM (α : Type) := ExceptT Stop (StateM Store) α

namespace StoreM

/-- End in an error. -/
def fail {α : Type} (e : Error) : StoreM α := throw (.error e)

/-- A result that is there already. -/
def ofExcept {α : Type} : Except Error α → StoreM α
  | .ok a => pure a
  | .error e => fail e

/-- The number that an exact computation gives, as an expression. -/
def ofArithmetic : Except ArithmeticFault Number → StoreM Expr
  | .ok n => pure (.number n)
  | .error fault => fail (.ofArithmetic fault)

/-- An operation on the store that cannot fail. -/
def onStore {α : Type} (f : Store → α × Store) : StoreM α := modifyGet f

/-- A question to the store. -/
def ask {α : Type} (f : Store → Except Error α) : StoreM α := do ofExcept (f (← get))

/-- A reference for a new object. -/
def fresh : StoreM Ref := onStore Store.fresh

/-- A new list. -/
def newList (items : List Expr) : StoreM Expr := do return .list (← fresh) items

/-- A new string. -/
def newString (s : String) : StoreM Expr := do return .atom (.str (← fresh) s)

/-- A new array. -/
def newArray (elements : Elements) : StoreM Expr := do return .array (← fresh) elements

/-- A new scope inside another. -/
def newScope (parent : ScopeId) : StoreM ScopeId :=
  onStore fun s => s.newScope (some parent)

/-- Bind a name, whatever the name. -/
def bind (scope : ScopeId) (name : String) (value : Expr) : StoreM Unit :=
  modify fun s => s.bind scope name value

/-- Bind a name, unless it is reserved. -/
def define (scope : ScopeId) (name : String) (value : Expr) : StoreM Unit := do
  set (← ask fun s => s.define scope name value)

/-- Go on only if the number of arguments is right. -/
def expect (arity : Arity) (args : List Expr) : StoreM Unit :=
  ofExcept (Error.checkArity arity args.length)

/-! ## Data into expressions -/

/-- A literal as a new atom. -/
def loadLiteral : Literal → StoreM Atom
  | .null => pure .null
  | .bool b => pure (.bool b)
  | .number n => pure (.number n)
  | .str s => do return .str (← fresh) s

/-- The elements of an array literal as new atoms. -/
def loadLiterals : List Literal → StoreM (List Atom)
  | [] => pure []
  | l :: rest => do
    let a ← loadLiteral l
    return a :: (← loadLiterals rest)

mutual

/-- What was read as an expression: every list, array and string in it is a new object. -/
def load : Datum → StoreM Expr
  | .symbol name => pure (.symbol name)
  | .literal l => do return .atom (← loadLiteral l)
  | .list items => do newList (← loadAll items)
  | .array elements => do newArray (.ofAtoms (← loadLiterals elements))

/-- Some data as expressions. -/
def loadAll : List Datum → StoreM (List Expr)
  | [] => pure []
  | d :: rest => do
    let e ← load d
    return e :: (← loadAll rest)

end

/-- Read a text as a new expression. -/
def read (text : String) : StoreM Expr :=
  match Datum.read text with
  | .ok d => load d
  | .error e => fail (.parse e)

end StoreM

end ExactLisp
