import ExactLisp.Layout.Break
import ExactLisp.Layout.Pass
import ExactLisp.Lexeme

/-!
# The passes of the standard layout

Passes only add, remove and replace white space. Spacing comes first; then the
special forms are broken over lines, each by its own rule; then comments are moved
to lines of their own; and last, once an element takes several lines, the element
after it starts a new one.
-/

namespace ExactLisp.Layout

/-! ## Spacing -/

/-- Make one space of every run of white space within a line. -/
def collapseSpaces (afterSpace : Bool) : List Token → List Token
  | [] => []
  | t :: rest =>
    if t.isSpace then
      if afterSpace then collapseSpaces true rest else .space :: collapseSpaces true rest
    else t :: collapseSpaces false rest

/-- Put a space between neighbours that have no white space between them. -/
def separateAll : List Token → List Token
  | a :: b :: rest =>
    if a.isWhitespace || b.isWhitespace then a :: separateAll (b :: rest)
    else a :: .space :: separateAll (b :: rest)
  | short => short

/-- Separate the children between the delimiters. -/
def separateElements (kind : Kind) (children : List Token) : List Token :=
  let start := innerStart kind children
  let stop := innerEnd kind children
  children.take start ++ separateAll ((children.take stop).drop start) ++ children.drop stop

/-- Drop the space after an opening delimiter. -/
def trimOpening : List Token → List Token
  | opener :: .atom text lineBreak :: rest =>
    if text = [' '] then opener :: rest else opener :: .atom text lineBreak :: rest
  | children => children

/-- Whether a quote has both blanks and a form after its mark. -/
def quotesAcrossBlanks (children : List Token) : Bool :=
  2 < children.length && children.getLast?.any fun t => !t.isWhitespace

/--
Collapse runs of spaces, drop the space after an opener, and separate neighbouring
elements. A quote mark is joined to the form it quotes, across line breaks too.
-/
def spaceOut (kind : Kind) (children : List Token) : List Token :=
  match kind with
  | .str | .comment => children
  | .root => collapseSpaces false children
  | .quote =>
    if quotesAcrossBlanks children then children.filter fun t => !t.isWhitespace
    else trimOpening (collapseSpaces false children)
  | .list => separateElements .list (trimOpening (collapseSpaces false children))
  | .array => separateElements .array (trimOpening (collapseSpaces false children))

/-! ## Special forms -/

/-- Edit lists that start with one of some words. -/
def whenHeaded (heads : List String) (edit : List Token → List Token) (kind : Kind)
    (children : List Token) : List Token :=
  if kind = .list ∧ (head? kind children).any fun h => heads.contains (String.ofList h) then
    edit children
  else children

/-- The bindings of a let form, every one but the first on a new line. -/
def breakBindings : Token → Token
  | .aggregate .list children =>
    .aggregate .list (breakBeforeEach children ((elements .list children).drop 1))
  | t => t

/-- A let form with its bindings and its body forms on lines of their own. -/
def breakLet (children : List Token) : List Token :=
  match elements .list children with
  | _ :: bindings :: body@(_ :: _) =>
    (breakBeforeEach children body).modify bindings breakBindings
  | _ => children

/--
A conditional with its branches on lines of their own, the first one column further
in than the others. A conditional without branches has its closing bracket moved.
-/
def breakConditional (children : List Token) : List Token :=
  match elements .list children with
  | _ :: _ :: consequent :: alternatives =>
    breakBefore (breakBeforeEach children alternatives) consequent 1
  | [_, _] =>
    if isClosed .list children then breakBefore children (children.length - 1) 0 else children
  | _ => children

/-- A sequence with every form on a line of its own. -/
def breakSequence (children : List Token) : List Token :=
  breakBeforeEach children ((elements .list children).drop 1)

/-- A lambda with its body forms on lines of their own. -/
def breakLambda (children : List Token) : List Token :=
  breakBeforeEach children ((elements .list children).drop 2)

/-! ## Comments and continuations -/

/-- Whether a node is a comment that starts with two marks. -/
def isLineComment : Token → Bool
  | .aggregate .comment (_ :: .atom (c :: _) _ :: _) => c == commentMark
  | _ => false

/-- Whether something other than white space stands between two places. -/
def hasContent (children : List Token) (start stop : Nat) : Bool :=
  ((children.take stop).drop start).any fun t => !t.isWhitespace

/-- Move comments with two marks that follow other content to lines of their own. -/
def breakComments (kind : Kind) (children : List Token) : List Token :=
  match kind with
  | .root | .list | .array =>
    let start := innerStart kind children
    let places := (innerPlaces kind children isLineComment).filter (hasContent children start)
    breakBeforeEach children places
  | _ => children

/-- The neighbours in a list, from left to right. -/
def neighbours : List Nat → List (Nat × Nat)
  | a :: b :: rest => (a, b) :: neighbours (b :: rest)
  | _ => []

/-- In a list, start a new line after every element that takes several lines. -/
def breakContinuations (kind : Kind) (children : List Token) : List Token :=
  match kind with
  | .list =>
    let places := (neighbours (elements .list children)).filter fun p =>
      (children[p.1]?).any Token.spansLines && !alreadyBroken children p.2
    breakBeforeEach children (places.map Prod.snd)
  | _ => children

/-! ## The pipeline -/

namespace Pass

/-- Spacing. -/
def spacing : Pass := ofChildren spaceOut

/-- Let forms. -/
def letForms : Pass := ofChildren (whenHeaded ["let", "let*"] breakLet)

/-- Conditionals. -/
def conditionals : Pass := ofChildren (whenHeaded ["if"] breakConditional)

/-- Sequences. -/
def sequences : Pass := ofChildren (whenHeaded ["progn"] breakSequence)

/-- Lambdas. -/
def lambdas : Pass := ofChildren (whenHeaded ["lambda"] breakLambda)

/-- Comments. -/
def comments : Pass := ofChildren breakComments

/-- Continuations. -/
def continuations : Pass := ofChildren breakContinuations

/-- The passes of the standard layout, in order. -/
def standard : List Pass :=
  [spacing, letForms, conditionals, sequences, lambdas, comments, continuations]

end Pass

end ExactLisp.Layout
