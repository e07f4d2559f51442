import ExactLisp.Layout.Token

/-!
# Writing a tree

The writer puts the atoms out in order and re-indents every line. A line break is
followed by one more space than the column at which the innermost aggregate around
it starts, and by none directly under the root; the indentation that the source
had is dropped. A source line break before a blank line, at the end of its
aggregate, or directly before the closing delimiter gets no indentation.

Strings and comments are written as they are.
-/

namespace ExactLisp.Layout

/-- What has been written, last character first, and the column it ends in. -/
structure Written where
  reversed : List Char
  column : Nat
  deriving Repr

namespace Written

/-- Nothing has been written. -/
def empty : Written := ⟨[], 0⟩

/-- The column after a text that starts in a column. -/
def columnAfter (column : Nat) : List Char → Nat
  | [] => column
  | c :: rest => columnAfter (if c = '\n' then 0 else column + 1) rest

/-- Write a text as it is. -/
def push (w : Written) (text : List Char) : Written :=
  ⟨text.reverse ++ w.reversed, columnAfter w.column text⟩

/-- Start a new line with some indentation. -/
def newLine (w : Written) (indent : Nat) : Written :=
  ⟨List.replicate indent ' ' ++ '\n' :: w.reversed, indent⟩

/-- The text that has been written. -/
def text (w : Written) : String := String.ofList w.reversed.reverse

end Written

/-- Whether a node is a line break of the source. -/
def isSourceNewline : Token → Bool
  | .atom text lineBreak => !lineBreak && text == ['\n']
  | .aggregate .. => false

/--
Whether a source line break is followed by indentation, by what comes after it in
its aggregate. `closed` tells whether the last of these nodes is the closer.
-/
def wantsIndent (closed : Bool) (following : List Token) : Bool :=
  match following.dropWhile Token.isSpace with
  | [] => false
  | next :: rest =>
    !next.isNewline &&
      !(closed && rest.isEmpty && !(following.head?.any Token.isSpace))

/-- A text without a line break at its start. -/
def withoutNewline : List Char → List Char
  | '\n' :: rest => rest
  | text => text

/-- The indentation of lines in an aggregate that starts in a column. -/
def Kind.indent (kind : Kind) (column : Nat) : Nat := if kind = .root then 0 else column + 1

/-- Whether the lines of an aggregate are left as they are. -/
def Kind.isVerbatim (kind : Kind) : Bool := kind == .str || kind == .comment

mutual

/-- Write a node; a line break in it is indented by `indent`. -/
def write (indent : Nat) (w : Written) : Token → Written
  | .atom text true => (w.newLine indent).push (withoutNewline text)
  | .atom text false => w.push text
  | .aggregate kind children =>
    if kind.isVerbatim then writeVerbatim (kind.indent w.column) w children
    else writeChildren (isClosed kind children) (kind.indent w.column) false w children

/-- Write the children of a string or a comment. -/
def writeVerbatim (indent : Nat) (w : Written) : List Token → Written
  | [] => w
  | t :: rest => writeVerbatim indent (write indent w t) rest

/--
Write the children of any other aggregate. After a source line break, `skipping` is
set while the indentation that followed it in the source is dropped.
-/
def writeChildren (closed : Bool) (indent : Nat) (skipping : Bool) (w : Written) :
    List Token → Written
  | [] => w
  | t :: rest =>
    if skipping && t.isSpace then writeChildren closed indent true w rest
    else if isSourceNewline t then
      writeChildren closed indent true
        (w.newLine (if wantsIndent closed rest then indent else 0)) rest
    else writeChildren closed indent false (write indent w t) rest

end

/-- The text of a tree. -/
def Token.write (t : Token) : String := (Layout.write 0 .empty t).text

end ExactLisp.Layout
