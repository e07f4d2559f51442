import ExactLisp.Text.Blank
import ExactLisp.Text.Quoted

/-!
# The token tree

For layout a text is a tree that keeps every character. Its leaves are atoms:
words, brackets, single blanks, the bodies of strings and comments. Its inner
nodes are aggregates, whose children include their own delimiters.

A line break that a pass has inserted is an atom with a mark. It counts as white
space, and the writer indents it like a line break of the source.
-/

namespace ExactLisp.Layout

/-- What an aggregate was opened by. -/
inductive Kind where
  /-- The whole text; it has no delimiters. -/
  | root
  | list
  | array
  | str
  | comment
  /-- A quote mark, any blanks after it, and the form it quotes. -/
  | quote
  deriving DecidableEq, Repr

namespace Kind

/-- The delimiter that closes an aggregate, for the kinds that have one. -/
def closer : Kind → Option Char
  | list => some ')'
  | array => some ']'
  | str => some quotationMark
  | root | comment | quote => none

/-- Whether the first child is a delimiter. -/
def hasOpener (kind : Kind) : Bool := kind != root

/-- The name of a kind. -/
def text : Kind → String
  | root => "Root"
  | list => "List"
  | array => "Array"
  | str => "Str"
  | comment => "Comment"
  | quote => "Quote"

end Kind

/-- A node of the tree. -/
inductive Token where
  /-- A leaf; `lineBreak` marks a line break that a pass has inserted. -/
  | atom (text : List Char) (lineBreak : Bool)
  | aggregate (kind : Kind) (children : List Token)
  deriving Inhabited

/-- Whether a text is there and consists of blanks. -/
def isBlankText (text : List Char) : Bool := !text.isEmpty && text.all isBlank

/-- Whether a text has a line break or a carriage return in it. -/
def hasNewline (text : List Char) : Bool := text.any fun c => c == '\n' || c == '\r'

namespace Token

/-- A leaf as it stands in the source. -/
def plain (text : List Char) : Token := .atom text false

/-- A leaf of one character. -/
def char (c : Char) : Token := plain [c]

/-- A line break for a pass to insert. -/
def newline : Token := .atom ['\n'] true

/-- A space for a pass to insert. -/
def space : Token := char ' '

/-- Whether a node is white space. -/
def isWhitespace : Token → Bool
  | .atom text lineBreak => lineBreak || isBlankText text
  | .aggregate .. => false

/-- Whether a node is an atom that ends a line. -/
def isNewline : Token → Bool
  | .atom text lineBreak => lineBreak || hasNewline text
  | .aggregate .. => false

/-- Whether a node is white space within a line. -/
def isSpace (t : Token) : Bool := t.isWhitespace && !t.isNewline

/-- Whether a node is an aggregate of a kind. -/
def isKind (kind : Kind) : Token → Bool
  | .atom .. => false
  | .aggregate k _ => k == kind

/-- The text of an atom. -/
def atomText? : Token → Option (List Char)
  | .atom text _ => some text
  | .aggregate .. => none

mutual

/-- All characters of a node in order. -/
def characters : Token → List Char
  | .atom text _ => text
  | .aggregate _ children => allCharacters children

/-- All characters of some nodes in order. -/
def allCharacters : List Token → List Char
  | [] => []
  | t :: rest => t.characters ++ allCharacters rest

end

mutual

/-- Whether a node is written on more than one line. -/
def spansLines : Token → Bool
  | .atom text lineBreak => lineBreak || hasNewline text
  | .aggregate _ children => anySpansLines children

/-- Whether one of some nodes is written on more than one line. -/
def anySpansLines : List Token → Bool
  | [] => false
  | t :: rest => t.spansLines || anySpansLines rest

end

mutual

/-- The number of levels of a node. An aggregate has room for atoms even while it is empty. -/
def height : Token → Nat
  | .atom .. => 1
  | .aggregate _ children => heights children + 1

/-- The number of levels of the highest of some nodes, at least one. -/
def heights : List Token → Nat
  | [] => 1
  | t :: rest => max t.height (heights rest)

end

end Token

/-! ## The parts of an aggregate -/

/-- Whether the last child closes the aggregate. -/
def isClosed (kind : Kind) (children : List Token) : Bool :=
  match kind.closer, children.getLast? with
  | some c, some (.atom text _) => 2 ≤ children.length && text == [c]
  | _, _ => false

/-- Where the children between the delimiters start. -/
def innerStart (kind : Kind) (children : List Token) : Nat :=
  min (if kind.hasOpener then 1 else 0) children.length

/-- Where the children between the delimiters end. -/
def innerEnd (kind : Kind) (children : List Token) : Nat :=
  let stop := if isClosed kind children then children.length - 1 else children.length
  max stop (innerStart kind children)

/-- Whether a child is a logical element: neither white space nor a comment. -/
def isElement (t : Token) : Bool := !t.isWhitespace && !t.isKind .comment

/-- The places of the children between the delimiters that pass a test. -/
def innerPlaces (kind : Kind) (children : List Token) (test : Token → Bool) : List Nat :=
  let start := innerStart kind children
  let stop := innerEnd kind children
  (children.zipIdx.filter fun p => start ≤ p.2 && p.2 < stop && test p.1).map Prod.snd

/-- The places of the logical elements. -/
def elements (kind : Kind) (children : List Token) : List Nat :=
  innerPlaces kind children isElement

/-- The text of the first logical element, if it is an atom. -/
def head? (kind : Kind) (children : List Token) : Option (List Char) :=
  (elements kind children).head?.bind fun i => (children[i]?).bind Token.atomText?

end ExactLisp.Layout
