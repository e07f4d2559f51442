import ExactLisp.Layout.Token

/-!
# Breaking lines

To break the line before a child, the white space directly before it is replaced
by one line break. Several children are done from the right, so that the places of
those still to be done stay valid.
-/

namespace ExactLisp.Layout

/-- The white space at the end of some children. -/
def trailingWhitespace (children : List Token) : List Token :=
  (children.reverse.takeWhile Token.isWhitespace).reverse

/-- Some children without the white space at the end. -/
def trimEnd (children : List Token) : List Token :=
  (children.reverse.dropWhile Token.isWhitespace).reverse

/-- Replace the white space before a place by a line break and some spaces. -/
def breakBefore (children : List Token) (place extra : Nat) : List Token :=
  trimEnd (children.take place) ++
    .newline :: (List.replicate extra .space ++ children.drop place)

/-- Break the line before each of some places, which are given from left to right. -/
def breakBeforeEach (children : List Token) (places : List Nat) : List Token :=
  places.foldr (fun place changed => breakBefore changed place 0) children

/-- Whether a pass has already broken the line before a place. -/
def alreadyBroken (children : List Token) (place : Nat) : Bool :=
  (trailingWhitespace (children.take place)).any fun
    | .atom _ lineBreak => lineBreak
    | .aggregate .. => false

end ExactLisp.Layout
