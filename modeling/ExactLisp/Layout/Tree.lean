import ExactLisp.Datum.Read
import ExactLisp.Layout.Token

/-!
# From text to tree

The tree of a text is built from its lexemes, comments included. The state is the
stack of aggregates that are still open, innermost first. Nothing is refused but
nesting: what is unterminated stays open to the end, and a bracket that closes
nothing is an atom like any other.

A quote mark takes the blanks after it and one form. It takes no form if a closing
bracket, a comment or the end of the text follows.
-/

namespace ExactLisp.Layout

/-- An aggregate that is still open, with its children so far, last one first. -/
structure OpenAggregate where
  kind : Kind
  reversed : List Token

/-- How far a tree has been built. -/
structure Growth where
  /-- The open aggregates, innermost first, without the root. -/
  stack : List OpenAggregate
  /-- The children of the root so far, last one first. -/
  reversed : List Token

/-- Nesting from which on a text is left as it is. -/
def depthLimit : Nat := Datum.defaultLimit

/-- The kind of aggregate that a bracket opens. -/
def Kind.ofBracket : Bracket → Kind
  | .round => .list
  | .square => .array

/-- A string as an aggregate. -/
def stringToken (raw : List Char) (closed : Bool) : Token :=
  let mark := Token.char quotationMark
  .aggregate .str <|
    mark :: ((if raw.isEmpty then [] else [.plain raw]) ++ if closed then [mark] else [])

/-- A comment as an aggregate. -/
def commentToken (text : List Char) : Token :=
  .aggregate .comment <|
    .char commentMark :: if text.isEmpty then [] else [.plain text]

namespace Growth

/-- Nothing has been built. -/
def empty : Growth := ⟨[], []⟩

/-- Hand a complete node to the innermost open aggregate; a quote is complete with it. -/
def deliver (t : Token) : List OpenAggregate → List Token → Growth
  | [], reversed => ⟨[], t :: reversed⟩
  | top :: stack, reversed =>
    if top.kind = .quote then
      deliver (.aggregate .quote (t :: top.reversed).reverse) stack reversed
    else ⟨{ top with reversed := t :: top.reversed } :: stack, reversed⟩

/-- End an open aggregate as it is. -/
def leave (top : OpenAggregate) (stack : List OpenAggregate) (reversed : List Token) : Growth :=
  deliver (.aggregate top.kind top.reversed.reverse) stack reversed

/-- Build a node from a lexeme, which may open an aggregate. -/
def readNode (g : Growth) (x : Lexeme) : Except ReadFault Growth :=
  if depthLimit ≤ g.stack.length + 1 then .error (.tooDeep depthLimit)
  else
    match x with
    | .opening b =>
      .ok { g with stack := ⟨.ofBracket b, [.char b.openChar]⟩ :: g.stack }
    | .quote => .ok { g with stack := ⟨.quote, [.char quoteMark]⟩ :: g.stack }
    | .str raw closed => .ok (deliver (stringToken raw closed) g.stack g.reversed)
    | .comment text => .ok (deliver (commentToken text) g.stack g.reversed)
    | .closing b => .ok (deliver (.char b.closeChar) g.stack g.reversed)
    | .space c => .ok (deliver (.char c) g.stack g.reversed)
    | .word text => .ok (deliver (.plain text) g.stack g.reversed)

/-- Read a lexeme where no quote waits for its form. -/
def readInside (g : Growth) (x : Lexeme) : Except ReadFault Growth :=
  match g.stack, x with
  | top :: stack, .closing b =>
    if top.kind = .ofBracket b then
      .ok (leave { top with reversed := .char b.closeChar :: top.reversed } stack g.reversed)
    else readNode g x
  | _, _ => readNode g x

/-- Read one lexeme. -/
def read (g : Growth) (x : Lexeme) : Except ReadFault Growth :=
  match g.stack with
  | top :: stack =>
    if top.kind = .quote then
      match x with
      | .space c =>
        .ok { g with stack := { top with reversed := .char c :: top.reversed } :: stack }
      | .closing _ | .comment _ => readInside (leave top stack g.reversed) x
      | _ => readNode g x
    else readInside g x
  | [] => readNode g x

/-- Read some lexemes in order. -/
def readAll : Growth → List Lexeme → Except ReadFault Growth
  | g, [] => .ok g
  | g, x :: rest =>
    match read g x with
    | .ok next => readAll next rest
    | .error fault => .error fault

/--
End all open aggregates, each with what the one inside it has become as its last
child, and give the children of the root.
-/
def finish (inner : List Token) : List OpenAggregate → List Token → List Token
  | [], reversed => (inner ++ reversed).reverse
  | top :: stack, reversed =>
    finish [.aggregate top.kind (inner ++ top.reversed).reverse] stack reversed

end Growth

/-- The tree of a text. -/
def Token.ofText (text : String) : Except ReadFault Token :=
  match Growth.readAll .empty (Lexeme.scan .source text) with
  | .ok g => .ok (.aggregate .root (Growth.finish [] g.stack g.reversed))
  | .error fault => .error fault

end ExactLisp.Layout
