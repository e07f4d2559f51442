import ExactLisp.Datum.Word
import ExactLisp.ParseError

/-!
# Reading data

The reader takes the lexemes of a text one at a time. Its state is the stack of
forms that are still open, innermost first, and the top-level forms read so far.
A form that is complete is delivered to the innermost open form; a quote mark is
complete as soon as it has received one form.

A form is refused when the stack above it is as high as the limit. Brackets that
close, and everything inside an array, are not subject to the limit. A text with
several top-level forms denotes the sequence of them.
-/

namespace ExactLisp.Datum

/-- A form that is still open, with what it has received so far, last one first. -/
inductive Frame where
  | list (reversed : List Datum)
  | array (reversed : List Literal)
  | quote
  deriving Inhabited

/-- How far a text has been read. -/
structure Progress where
  /-- The open forms, innermost first. -/
  frames : List Frame
  /-- The top-level forms read so far, last one first. -/
  forms : List Datum
  deriving Inhabited

namespace Progress

/-- Nothing has been read. -/
def empty : Progress := ⟨[], []⟩

/-- Hand a complete form to the innermost open one. -/
def deliver (d : Datum) : List Frame → List Datum → Progress
  | [], forms => ⟨[], d :: forms⟩
  | .quote :: frames, forms => deliver (quoting d) frames forms
  | .list reversed :: frames, forms => ⟨.list (d :: reversed) :: frames, forms⟩
  | .array reversed :: frames, forms => ⟨.array reversed :: frames, forms⟩

/-- Read a lexeme where a form is expected. -/
def readForm (limit : Nat) (p : Progress) (x : Lexeme) : Except ReadFault Progress :=
  if limit ≤ p.frames.length then .error (.tooDeep limit)
  else
    match x with
    | .opening .round => .ok { p with frames := .list [] :: p.frames }
    | .opening .square => .ok { p with frames := .array [] :: p.frames }
    | .quote =>
      if limit ≤ p.frames.length + 1 then .error (.tooDeep limit)
      else .ok { p with frames := .quote :: p.frames }
    | .closing b => .error (.unexpectedCloser b)
    | .str raw closed =>
      if closed then .ok (deliver (.literal (.str (String.ofList (unescape raw)))) p.frames p.forms)
      else .error .unterminatedString
    | .word w => .ok (deliver (ofWord w) p.frames p.forms)
    | .space _ | .comment _ => .ok p

/-- Read a lexeme inside an array, which holds `reversed` so far. -/
def readElement (reversed : List Literal) (frames : List Frame) (forms : List Datum) :
    Lexeme → Except ReadFault Progress
  | .closing .square => .ok (deliver (.array reversed.reverse) frames forms)
  | .closing .round => .error (.mismatchedCloser .round)
  | .str raw closed =>
    if closed then
      .ok ⟨.array (.str (String.ofList (unescape raw)) :: reversed) :: frames, forms⟩
    else .error .unterminatedString
  | .word w =>
    match ofWord w with
    | .literal l => .ok ⟨.array (l :: reversed) :: frames, forms⟩
    | _ => .error (.notALiteral (String.ofList w))
  | .space _ | .comment _ => .ok ⟨.array reversed :: frames, forms⟩
  | other => .error (.notALiteral (String.ofList other.spelling))

/-- Read one lexeme. -/
def read (limit : Nat) (p : Progress) (x : Lexeme) : Except ReadFault Progress :=
  if x.isSpace then .ok p
  else
    match p.frames with
    | .array reversed :: frames => readElement reversed frames p.forms x
    | .list reversed :: frames =>
      match x with
      | .closing .round => .ok (deliver (.list reversed.reverse) frames p.forms)
      | .closing .square => .error (.mismatchedCloser .square)
      | _ => readForm limit p x
    | _ => readForm limit p x

/-- Read some lexemes in order. -/
def readAll (limit : Nat) : Progress → List Lexeme → Except ReadFault Progress
  | p, [] => .ok p
  | p, x :: rest =>
    match read limit p x with
    | .ok next => readAll limit next rest
    | .error fault => .error fault

/-- The top-level forms, once the text has ended with no form open. -/
def finish (p : Progress) : Except ReadFault (List Datum) :=
  match p.frames with
  | [] => .ok p.forms.reverse
  | .list _ :: _ => .error .unterminatedList
  | .array _ :: _ => .error .unterminatedArray
  | .quote :: _ => .error .unexpectedEnd

end Progress

/-- The one datum that some top-level forms denote. -/
def ofForms : List Datum → Datum
  | [d] => d
  | forms => .list (.symbol sequenceName :: forms)

/-- Read the top-level forms of a text. -/
def readForms (limit : Nat) (text : String) : Except ReadFault (List Datum) :=
  let lexemes := Lexeme.scan .engine text
  if lexemes.all Lexeme.isSpace then .error .emptyInput
  else
    match Progress.readAll limit .empty lexemes with
    | .ok p => p.finish
    | .error fault => .error fault

/-- How deep forms may nest unless told otherwise. -/
def defaultLimit : Nat := 512

/-- Read a text in which forms nest at most `limit` deep. -/
def readWithin (limit : Nat) (text : String) : Except ParseError Datum :=
  match readForms limit text with
  | .ok forms => .ok (ofForms forms)
  | .error fault => .error (fault.report.withContext text)

/-- Read a text. -/
def read (text : String) : Except ParseError Datum := readWithin defaultLimit text

end ExactLisp.Datum
