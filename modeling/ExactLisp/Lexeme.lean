import ExactLisp.Text.Blank
import ExactLisp.Text.Quoted

/-!
# Lexemes

Program text is cut into lexemes: brackets, quote marks, words, single blanks,
strings and, for the formatter, line comments. Every character belongs to exactly
one lexeme, so the spellings of the lexemes put together are the text again.

The scanner reads one character at a time and remembers only the lexeme it is
inside of (`Pending`). What it emits for a text followed by another is therefore
what it emits for the first, continued from where the first one stopped.

A semicolon opens a comment only in source mode. The evaluator does not know
comments: to it a semicolon is a character of a word like any other.
-/

namespace ExactLisp

/-- The two pairs of brackets: round ones hold lists, square ones arrays. -/
inductive Bracket where
  | round
  | square
  deriving DecidableEq, Repr

namespace Bracket

/-- The bracket that opens. -/
def openChar : Bracket → Char
  | round => '('
  | square => '['

/-- The bracket that closes. -/
def closeChar : Bracket → Char
  | round => ')'
  | square => ']'

end Bracket

/-- Whether semicolons open comments. -/
inductive Mode where
  /-- For evaluation: a semicolon is part of a word. -/
  | engine
  /-- For formatting: a semicolon opens a comment that runs to the end of the line. -/
  | source
  deriving DecidableEq, Repr

/-- A piece of program text. -/
inductive Lexeme where
  | opening (bracket : Bracket)
  | closing (bracket : Bracket)
  | quote
  | word (text : List Char)
  | space (c : Char)
  /-- A string as spelled between its quotes; the last one of a text may lack its end. -/
  | str (raw : List Char) (closed : Bool)
  /-- What follows the semicolon, up to the end of the line. -/
  | comment (text : List Char)
  deriving DecidableEq, Repr

/-- The mark that quotes the form after it. -/
def quoteMark : Char := '\x27'

/-- The mark that opens a comment. -/
def commentMark : Char := ';'

/-- Whether a character ends a word, and so cannot be part of one, in every mode. -/
def isBreaking (c : Char) : Bool :=
  isBlank c || c == '(' || c == ')' || c == '[' || c == ']' || c == quoteMark || c == quotationMark

/-- Whether a character can be part of a word. -/
def isWordChar (mode : Mode) (c : Char) : Bool :=
  !isBreaking c && !(mode == .source && c == commentMark)

namespace Lexeme

/-! ## Spelling -/

/-- The text a lexeme was cut from. -/
def spelling : Lexeme → List Char
  | opening b => [b.openChar]
  | closing b => [b.closeChar]
  | quote => [quoteMark]
  | word text => text
  | space c => [c]
  | str raw closed => quotationMark :: (raw ++ if closed then [quotationMark] else [])
  | comment text => commentMark :: text

/-- Whether a lexeme only separates others. -/
def isSpace : Lexeme → Bool
  | space _ => true
  | _ => false

/-! ## Scanning -/

/-- The lexeme that the scanner is inside of, with its characters so far, last one first. -/
inductive Pending where
  | idle
  | word (reversed : List Char)
  /-- `escaped` when the last character was a backslash that still waits for its partner. -/
  | str (reversed : List Char) (escaped : Bool)
  | comment (reversed : List Char)
  deriving DecidableEq, Repr

/-- The lexeme that the end of the text completes. -/
def Pending.flush : Pending → List Lexeme
  | idle => []
  | word reversed => [.word reversed.reverse]
  | str reversed _ => [.str reversed.reverse false]
  | comment reversed => [.comment reversed.reverse]

/-- Start on a new lexeme. -/
def start (mode : Mode) (c : Char) : List Lexeme × Pending :=
  if c = '(' then ([opening .round], .idle)
  else if c = '[' then ([opening .square], .idle)
  else if c = ')' then ([closing .round], .idle)
  else if c = ']' then ([closing .square], .idle)
  else if c = quoteMark then ([quote], .idle)
  else if c = quotationMark then ([], .str [] false)
  else if mode = .source ∧ c = commentMark then ([], .comment [])
  else if isBlank c then ([space c], .idle)
  else ([], .word [c])

/-- End a lexeme and start on the next one with the character that ended it. -/
def endWith (mode : Mode) (done : Lexeme) (c : Char) : List Lexeme × Pending :=
  (done :: (start mode c).1, (start mode c).2)

/-- Read one character: the lexemes it completes, and what is pending after it. -/
def step (mode : Mode) : Pending → Char → List Lexeme × Pending
  | .idle, c => start mode c
  | .word reversed, c =>
    if isWordChar mode c then ([], .word (c :: reversed))
    else endWith mode (.word reversed.reverse) c
  | .str reversed true, c => ([], .str (c :: reversed) false)
  | .str reversed false, c =>
    if c = quotationMark then ([.str reversed.reverse true], .idle)
    else ([], .str (c :: reversed) (c = backslash))
  | .comment reversed, c =>
    if c = '\n' then endWith mode (.comment reversed.reverse) c
    else ([], .comment (c :: reversed))

/-- The lexemes of a text that starts inside a pending lexeme. -/
def scanFrom (mode : Mode) : Pending → List Char → List Lexeme
  | pending, [] => pending.flush
  | pending, c :: rest => (step mode pending c).1 ++ scanFrom mode (step mode pending c).2 rest

/-- The lexemes of a text. -/
def scan (mode : Mode) (text : String) : List Lexeme := scanFrom mode .idle text.toList

/-! ## Tokens -/

/--
A lexeme as the flat tokens that are shown to a user: a string gives its opening
quote, its characters and its closing quote, each only if it is there.
-/
def tokens : Lexeme → List String
  | str raw closed =>
    let mark := String.ofList [quotationMark]
    let body := unescape raw
    mark :: ((if closed ∨ body ≠ [] then [String.ofList body] else []) ++
      if closed then [mark] else [])
  | space _ | comment _ => []
  | other => [String.ofList other.spelling]

end Lexeme

/-- Split a text into the tokens that the evaluator reads. -/
def tokenize (text : String) : List String := (Lexeme.scan .engine text).flatMap Lexeme.tokens

end ExactLisp
