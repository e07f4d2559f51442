import ExactLisp.Store

/-!
# Completing a line

The word being typed at the end of a line is completed from the names in scope: a
single match in full and with a space after it, several as far as they agree.
-/

namespace ExactLisp

/-- What a line can be completed to. -/
structure Completion where
  /-- The whole line with its last word completed. -/
  replacement : String
  /-- The names that start with the word. -/
  candidates : List String
  deriving DecidableEq, Repr

namespace Completion

/-- A line cut before its last word, which is empty after a character that ends words. -/
def split (line : List Char) : List Char × List Char :=
  let reversed := line.reverse
  ((reversed.dropWhile (!isBreaking ·)).reverse, (reversed.takeWhile (!isBreaking ·)).reverse)

/-- Cutting a line loses nothing. -/
theorem split_append (line : List Char) : (split line).1 ++ (split line).2 = line := by
  rw [split, ← List.reverse_append, List.takeWhile_append_dropWhile, List.reverse_reverse]

/-- What two strings of characters start with in common. -/
def sharedStart : List Char → List Char → List Char
  | a :: as, b :: bs => if a = b then a :: sharedStart as bs else []
  | _, _ => []

/-- What all of some strings of characters start with in common. -/
def commonStart : List (List Char) → List Char
  | [] => []
  | first :: others => others.foldl sharedStart first

/-- Complete a line from a way to find the names that start with a word. -/
def ofLine? (namesStarting : String → List String) (line : String) : Option Completion :=
  let (leading, stem) := split line.toList
  match namesStarting (String.ofList stem) with
  | [] => none
  | [name] =>
    some { replacement := String.ofList (leading ++ name.toList ++ [' ']), candidates := [name] }
  | names =>
    some
      { replacement := String.ofList (leading ++ commonStart (names.map String.toList))
        candidates := names }

end Completion

/-- Complete a line in a scope. -/
def Store.completeLine? (s : Store) (scope : ScopeId) (line : String) : Option Completion :=
  Completion.ofLine? (s.complete scope) line

end ExactLisp
