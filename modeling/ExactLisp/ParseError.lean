import ExactLisp.Lexeme

/-!
# Why a text cannot be read

`ReadFault` is the cause: what the reader met and where it could not go on.
`ParseError` is the report made of it, which adds an excerpt of the text.

The kind of a fault tells whether typing more can help: an incomplete text can be
completed, the other two kinds stay wrong whatever follows.
-/

namespace ExactLisp

/-- How much of a text was at fault. -/
inductive ParseErrorKind where
  | invalidSyntax
  /-- The text ended inside a form. -/
  | incomplete
  | tooDeeplyNested
  deriving DecidableEq, Repr

/-- What the reader stopped at. -/
inductive ReadFault where
  | emptyInput
  /-- A quote mark with no form after it. -/
  | unexpectedEnd
  | unterminatedList
  | unterminatedArray
  | unterminatedString
  /-- A bracket that closes nothing. -/
  | unexpectedCloser (bracket : Bracket)
  /-- A bracket that closes the wrong kind of form. -/
  | mismatchedCloser (bracket : Bracket)
  /-- Something in an array that is not a literal. -/
  | notALiteral (found : String)
  | tooDeep (limit : Nat)
  deriving DecidableEq, Repr

/-- A report on a text that could not be read. -/
structure ParseError where
  kind : ParseErrorKind
  message : String
  context : Option String
  found : Option String
  deriving DecidableEq, Repr

namespace ReadFault

/-- The kind of a fault. -/
def kind : ReadFault → ParseErrorKind
  | unexpectedEnd | unterminatedList | unterminatedArray | unterminatedString => .incomplete
  | tooDeep _ => .tooDeeplyNested
  | emptyInput | unexpectedCloser _ | mismatchedCloser _ | notALiteral _ => .invalidSyntax

/-- The wording of a fault. -/
def message : ReadFault → String
  | emptyInput => "Empty input"
  | unexpectedEnd => "Unexpected end of input"
  | unterminatedList => "Unterminated list"
  | unterminatedArray => "Unterminated array"
  | unterminatedString => "Unterminated string"
  | unexpectedCloser _ => "Unexpected closing delimiter"
  | mismatchedCloser _ => "Mismatched closing delimiter"
  | notALiteral _ => "Array elements must be atoms"
  | tooDeep limit => s!"Expression nested deeper than {limit} levels"

/-- The token at fault, where there is one. -/
def found : ReadFault → Option String
  | unexpectedCloser b | mismatchedCloser b => some (String.singleton b.closeChar)
  | notALiteral token => some token
  | _ => none

/-- A fault reported without an excerpt. -/
def report (fault : ReadFault) : ParseError :=
  { kind := fault.kind, message := fault.message, context := none, found := fault.found }

end ReadFault

namespace ParseError

/-- How many characters of a text an excerpt shows. -/
def excerptLength : Nat := 100

/-- The start of a text on one line: line breaks are shown as `\n`, carriage returns dropped. -/
def excerpt (text : String) : String :=
  let cs := text.toList
  let shown := cs.take excerptLength
  let marked := if cs.length ≤ excerptLength then shown else shown ++ "[...]".toList
  String.ofList <| marked.flatMap fun c =>
    if c = '\n' then [backslash, 'n'] else if c = '\r' then [] else [c]

/-- Add an excerpt of the text that was read. -/
def withContext (e : ParseError) (text : String) : ParseError :=
  { e with context := some (excerpt text) }

/-- The full wording of a report, a line for each part that is there. -/
def text (e : ParseError) : String :=
  "ParseError: " ++ e.message ++
    (match e.found with
      | some found => "\nFound: " ++ found
      | none => "") ++
    match e.context with
      | some context => "\nContext: " ++ context
      | none => ""

end ParseError

end ExactLisp
