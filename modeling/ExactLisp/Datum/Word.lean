import ExactLisp.Datum.Basic

/-!
# Words

A word is a number if it looks like one, then one of three reserved names, and a
symbol otherwise. A word that has no digit, or starts with a letter, is never a
number: names such as `inf` and `NaN` stay symbols.
-/

namespace ExactLisp

/-- Names that always denote literals and can never be bound. -/
def reservedNames : List String := ["null", "true", "false"]

namespace Datum

/-- Whether a word may spell a float. -/
def looksNumeric (word : List Char) : Bool :=
  word.head?.any (fun c => c.isDigit || c == '+' || c == '-' || c == '.') &&
    word.any Char.isDigit

/-- The number that a word spells, if it spells one. -/
def numberOfWord? (word : List Char) : Option Number :=
  match int64? word with
  | some n => some (.int n)
  | none => if looksNumeric word then (Binary64.parse? word).map .float else none

/-- The datum that a word denotes. -/
def ofWord (word : List Char) : Datum :=
  match numberOfWord? word with
  | some n => .literal (.number n)
  | none =>
    if word = "null".toList then .literal .null
    else if word = "true".toList then .literal (.bool true)
    else if word = "false".toList then .literal (.bool false)
    else .symbol (String.ofList word)

end Datum

end ExactLisp
