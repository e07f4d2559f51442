import ExactLisp.Lexeme
import ExactLisp.Number.Basic

/-!
# Data

A datum is what a program text denotes: symbols, literals, lists of data, and
arrays of literals. The printed form of a datum reads back as that datum.
-/

namespace ExactLisp

/-- A value that stands for itself. -/
inductive Literal where
  | null
  | bool (b : Bool)
  | number (n : Number)
  | str (s : String)
  deriving Inhabited

/-- What a program text denotes. -/
inductive Datum where
  | symbol (name : String)
  | literal (l : Literal)
  | list (items : List Datum)
  | array (elements : List Literal)
  deriving Inhabited

/-- Which numbers an array holds. An array with no elements is mixed. -/
inductive ArrayKind where
  | int
  | float
  | mixed
  deriving DecidableEq, Repr

namespace ArrayKind

/-- The kind of an array, from the number that each element is, if it is one. -/
def of (elements : List (Option Number)) : ArrayKind :=
  let isInt : Option Number → Bool
    | some (.int _) => true
    | _ => false
  let isFloat : Option Number → Bool
    | some (.float _) => true
    | _ => false
  if elements.isEmpty then mixed
  else if elements.all isInt then int
  else if elements.all isFloat then float
  else mixed

/-- The name of a kind. -/
def text : ArrayKind → String
  | int => "Int"
  | float => "Float"
  | mixed => "Mixed"

end ArrayKind

namespace Literal

/-- The number that a literal is, if it is one. -/
def number? : Literal → Option Number
  | number n => some n
  | _ => none

/-- A literal as the reader takes it. -/
def spelling : Literal → List Char
  | null => "null".toList
  | bool b => (toString b).toList
  | number n => n.text.toList
  | str s => (quoted s).toList

/-- Equality of literals; numbers compare as numbers. -/
protected def beq : Literal → Literal → Bool
  | null, null => true
  | bool a, bool b => a == b
  | number a, number b => a == b
  | str a, str b => a == b
  | _, _ => false

instance : BEq Literal := ⟨Literal.beq⟩

end Literal

namespace Datum

/-- The symbol that names quotation. -/
def quoteName : String := "quote"

/-- The symbol that names a sequence of forms. -/
def sequenceName : String := "progn"

/-- A quoted form. -/
def quoting (d : Datum) : Datum := .list [.symbol quoteName, d]

/-! ## Printing -/

/-- The spellings of some items with a space between neighbours. -/
def spaced : List (List Char) → List Char
  | [] => []
  | [cs] => cs
  | cs :: rest => cs ++ ' ' :: spaced rest

mutual

/-- The text of a datum. -/
def spelling : Datum → List Char
  | symbol name => name.toList
  | literal l => l.spelling
  | list items => '(' :: (spaced (spellings items) ++ [')'])
  | array elements => '[' :: (spaced (elements.map Literal.spelling) ++ [']'])

/-- The texts of some data. -/
def spellings : List Datum → List (List Char)
  | [] => []
  | d :: rest => d.spelling :: spellings rest

end

/-- The text of a datum. -/
def text (d : Datum) : String := String.ofList d.spelling

/-! ## Comparison and size -/

mutual

/-- Equality of data: the same shape, with equal literals. -/
protected def beq : Datum → Datum → Bool
  | symbol a, symbol b => a == b
  | literal a, literal b => a == b
  | list a, list b => Datum.beqAll a b
  | array a, array b => a == b
  | _, _ => false

/-- Equality of lists of data. -/
protected def beqAll : List Datum → List Datum → Bool
  | [], [] => true
  | a :: as, b :: bs => Datum.beq a b && Datum.beqAll as bs
  | _, _ => false

end

instance : BEq Datum := ⟨Datum.beq⟩

mutual

/-- How deep a datum nests: a list is one level deeper than its deepest item. -/
def depth : Datum → Nat
  | list items => depths items + 1
  | _ => 1

/-- The depth of the deepest of some data. -/
def depths : List Datum → Nat
  | [] => 0
  | d :: rest => max d.depth (depths rest)

end

end Datum

end ExactLisp
