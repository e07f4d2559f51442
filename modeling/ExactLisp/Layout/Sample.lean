import ExactLisp.Layout.Pass

/-!
# Sample passes

Three passes such as a program that uses the layout might add to the standard ones.
Unlike those they change more than white space.
-/

namespace ExactLisp.Layout.Pass

/-- Add an exclamation mark to every atom. -/
def exclaim : Pass
  | _, _, .atom text lineBreak => .atom (text ++ ['!']) lineBreak
  | _, _, t => t

/-- Replace the third child of every array by a line break. -/
def breakArrays : Pass :=
  ofChildren fun kind children => if kind = .array then children.set 2 .newline else children

/-- Make a line break of every atom that is an at sign; its text stays. -/
def breakAtSigns : Pass
  | _, _, .atom text lineBreak => .atom text (lineBreak || text == ['@'])
  | _, _, t => t

end ExactLisp.Layout.Pass
