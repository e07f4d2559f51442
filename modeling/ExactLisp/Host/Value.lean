import ExactLisp.StoreM

/-!
# Host values

Functions of the host program see plain values instead of expressions. On the way
out a symbol becomes a string and every string and list is copied; functions,
host objects and the elements of arrays stay the objects they are. On the way back
strings, lists and arrays become new objects, and decimals are reduced.
-/

namespace ExactLisp

/-- A value as a function of the host program sees it. -/
inductive HostValue where
  | null
  | bool (b : Bool)
  | int (n : Int64)
  | float (x : Float)
  /-- A number too large for 64 bits or too precise for a float. -/
  | decimal (d : Decimal)
  | str (s : String)
  | list (items : List HostValue)
  | array (elements : Elements)
  | object (o : HostObject)
  /-- Any function of the language. -/
  | function (f : Expr)
  deriving Inhabited

namespace HostValue

/-- An atom as a host value. -/
def ofAtom : Atom → HostValue
  | .null => null
  | .bool b => bool b
  | .number (.int n) => int n
  | .number (.float x) => float x
  | .number (.big d) => decimal d
  | .str _ s => str s
  | .object o => object o

mutual

/-- An expression as a host value. -/
def ofExpr : Expr → HostValue
  | .symbol name => str name
  | .list _ items => list (ofExprs items)
  | .array _ elements => array elements
  | .atom a => ofAtom a
  | .native ref f => function (.native ref f)
  | .closure ref params body scope => function (.closure ref params body scope)
  | .host ref f => function (.host ref f)

/-- Some expressions as host values. -/
def ofExprs : List Expr → List HostValue
  | [] => []
  | e :: rest => ofExpr e :: ofExprs rest

end

mutual

/-- A host value as an expression. -/
def toExpr : HostValue → StoreM Expr
  | null => pure .null
  | bool b => pure (.bool b)
  | int n => pure (.number (.int n))
  | float x => pure (.number (.float x))
  | decimal d => pure (.number (.reduce d))
  | str s => StoreM.newString s
  | list items => do StoreM.newList (← toExprs items)
  | array elements => StoreM.newArray elements
  | object o => pure (.atom (.object o))
  | function f => pure f

/-- Some host values as expressions. -/
def toExprs : List HostValue → StoreM (List Expr)
  | [] => pure []
  | v :: rest => do
    let e ← toExpr v
    return e :: (← toExprs rest)

end

/-- The name of the type of a host value. -/
def typeName : HostValue → String
  | null => "null"
  | bool _ => "boolean"
  | int _ => "int"
  | float _ => "double"
  | decimal _ => "decimal"
  | str _ => "string"
  | list _ => "list"
  | array _ => "array"
  | object _ => "object"
  | function _ => "function"

mutual

/-- The text of a host value with the kinds of its parts. -/
def inspect : HostValue → String
  | null => "Null"
  | bool b => "Bool(" ++ toString b ++ ")"
  | int n => "Int(" ++ Number.int64Text n ++ ")"
  | float x => "Float(" ++ Binary64.text x ++ ")"
  | decimal d => "Decimal(" ++ d.inspect ++ ")"
  | str s => "Str(" ++ inspected s ++ ")"
  | list items => "List([" ++ joinWith ", " (inspections items) ++ "])"
  | array elements => "Array(" ++ Expr.inspectArray elements ++ ")"
  | object o => "Object(" ++ o.inspect ++ ")"
  | function f => "Function(" ++ f.text ++ ")"

/-- The inspection texts of some host values. -/
def inspections : List HostValue → List String
  | [] => []
  | v :: rest => v.inspect :: inspections rest

end

end HostValue

end ExactLisp
