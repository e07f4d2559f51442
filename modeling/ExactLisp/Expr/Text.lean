import ExactLisp.Expr.Basic

/-!
# Expressions as text

`Expr.text` is the printed form. For what the reader can read it is the text that
reads back; a function shows the labels of its parameters, and a host object its
type. `Expr.inspect` also tells the kinds of the parts.
-/

namespace ExactLisp

namespace HostObject

/-- How a host object is shown among host values. -/
def inspect (o : HostObject) : String := "HostObject(" ++ o.typeName ++ ")"

end HostObject

namespace HostFunction

/-- A host function with its name and its receiver. -/
def inspect (f : HostFunction) : String :=
  let receiver :=
    match f.receiver with
    | some o => "Some(" ++ o.inspect ++ ")"
    | none => "None"
  "HostFunction \x7b name: " ++ inspected f.name ++ ", receiver: " ++ receiver ++ ", .. \x7d"

end HostFunction

/-- Strings with a separator between neighbours. -/
def joinWith (separator : String) (parts : List String) : String := separator.intercalate parts

namespace Atom

/-- The text of an atom. -/
def text : Atom → String
  | null => "null"
  | bool b => toString b
  | number n => n.text
  | str _ s => quoted s
  | object o => "Object(" ++ o.typeName ++ ")"

/-- The text of an atom with its kind. -/
def inspect : Atom → String
  | null => "Null"
  | bool b => "Bool(" ++ toString b ++ ")"
  | number n => n.inspect
  | str _ s => "Str(" ++ inspected s ++ ")"
  | object o => "Object(" ++ o.typeName ++ ")"

end Atom

namespace Expr

/-- The text of an array. -/
def arrayText (elements : Elements) : String :=
  "[" ++ joinWith " " (elements.map Atom.text) ++ "]"

/-- The text of an array with its kind. -/
def inspectArray (elements : Elements) : String :=
  "Array(" ++ (arrayKind elements).text ++ ", " ++ arrayText elements ++ ")"

/-- The text of a function: the labels of its parameters. -/
def functionText (params : List String) : String := "Function(" ++ joinWith "," params ++ ")"

mutual

/-- The text of an expression. -/
def text : Expr → String
  | symbol name => name
  | list _ items => "(" ++ joinWith " " (texts items) ++ ")"
  | array _ elements => arrayText elements
  | atom a => a.text
  | native _ f => functionText f.params
  | closure _ params _ _ => functionText params
  | host _ f => functionText f.params

/-- The texts of some expressions. -/
def texts : List Expr → List String
  | [] => []
  | e :: rest => e.text :: texts rest

end

mutual

/-- The text of an expression with the kinds of its parts. -/
def inspect : Expr → String
  | symbol name => "Symbol(" ++ name ++ ")"
  | list _ items => "List(" ++ joinWith ", " (inspections items) ++ ")"
  | array _ elements => inspectArray elements
  | atom a => a.inspect
  | native _ f => functionText f.params
  | closure _ params _ _ => functionText params
  | host _ f => functionText f.params

/-- The inspection texts of some expressions. -/
def inspections : List Expr → List String
  | [] => []
  | e :: rest => e.inspect :: inspections rest

end

end Expr

end ExactLisp
