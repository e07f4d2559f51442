import ExactLisp.Layout.Passes

/-!
# The passes by index

The passes again, in terms of places in a mutable list of children: every child is taken from its
place, parts of a list are cut out by two places, and white space is replaced by splicing. None of
this is possible past the end of a list, or with places out of order, and then there is no result.
Places are computed once and used after other edits have made the list longer or shorter.

A pass is walked over a tree as it is (`Walks`): nothing bounds the number of nodes that it is
shown.
-/

namespace ExactLisp.Layout.Indexed

/-! ## Lists by index -/

section Lists

variable {α : Type}

/-- What stands in a list between two places. -/
def slice (xs : List α) (start stop : Nat) : Option (List α) :=
  if start ≤ stop ∧ stop ≤ xs.length then some ((xs.take stop).drop start) else none

/-- Put some elements in place of what stands in a list between two places. -/
def splice (xs : List α) (start stop : Nat) (new : List α) : Option (List α) :=
  if start ≤ stop ∧ stop ≤ xs.length then some (xs.take start ++ (new ++ xs.drop stop)) else none

/-- The place before a place. -/
def placeBefore : Nat → Option Nat
  | 0 => none
  | place + 1 => some place

end Lists

/-! ## The parts of an aggregate -/

/-- Where the children between the delimiters start and end. -/
def innerRange (kind : Kind) (children : List Token) : Option (Nat × Nat) := do
  let start := min (if kind.hasOpener then 1 else 0) children.length
  let stop ←
    if isClosed kind children then placeBefore children.length else some children.length
  some (start, max stop start)

/-- The places, among some, of the children that pass a test. -/
def pick (children : List Token) (test : Token → Bool) : List Nat → Option (List Nat)
  | [] => some []
  | place :: rest => do
    let child ← children[place]?
    let later ← pick children test rest
    some (if test child then place :: later else later)

/-- The places of the logical elements. -/
def elements (kind : Kind) (children : List Token) : Option (List Nat) := do
  let (start, stop) ← innerRange kind children
  pick children isElement (List.range' start (stop - start))

/-- The text of the first logical element, if there is one and it is an atom. -/
def head (kind : Kind) (children : List Token) : Option (Option (List Char)) := do
  match ← elements kind children with
  | [] => some none
  | first :: _ =>
    let child ← children[first]?
    some child.atomText?

/-! ## Breaking lines -/

/-- Where the white space directly before a place starts. -/
def runStart (children : List Token) : Nat → Option Nat
  | 0 => some 0
  | place + 1 => do
    let child ← children[place]?
    if child.isWhitespace then runStart children place else some (place + 1)

/-- Replace the white space before a place by a line break and some spaces. -/
def breakBefore (children : List Token) (place extra : Nat) : Option (List Token) := do
  let start ← runStart children place
  splice children start place (.newline :: List.replicate extra .space)

/-- Break the line before each of some places, the last one first. -/
def breakBeforeEach (children : List Token) (places : List Nat) : Option (List Token) :=
  places.foldrM (fun place changed => breakBefore changed place 0) children

/-- Whether the line has been broken before a place. -/
def alreadyBroken (children : List Token) (place : Nat) : Option Bool := do
  let start ← runStart children place
  let run ← slice children start place
  some (run.any fun
    | .atom _ lineBreak => lineBreak
    | .aggregate .. => false)

/-! ## Spacing -/

/-- Put a space before a place, unless there is white space on one side. -/
def separateAt (place : Nat) (children : List Token) : Option (List Token) := do
  let before ← children[← placeBefore place]?
  if before.isWhitespace then some children
  else
    let child ← children[place]?
    if child.isWhitespace then some children else splice children place place [.space]

/-- Separate the children between the delimiters, the last ones first. -/
def separateElements (kind : Kind) (children : List Token) : Option (List Token) := do
  let (start, stop) ← innerRange kind children
  (List.range' (start + 1) (stop - (start + 1))).foldrM separateAt children

/-- Drop the space after an opening delimiter. -/
def trimOpening (children : List Token) : Option (List Token) :=
  if children[1]?.bind Token.atomText? = some [' '] then splice children 1 2 [] else some children

/-- Collapse runs of spaces, drop the space after an opener, and separate neighbours. -/
def spaceOut (kind : Kind) (children : List Token) : Option (List Token) :=
  match kind with
  | .str | .comment => some children
  | .root => some (collapseSpaces false children)
  | .quote =>
    if quotesAcrossBlanks children then some (children.filter fun t => !t.isWhitespace)
    else trimOpening (collapseSpaces false children)
  | .list => trimOpening (collapseSpaces false children) >>= separateElements .list
  | .array => trimOpening (collapseSpaces false children) >>= separateElements .array

/-! ## Special forms -/

/-- Edit lists that start with one of some words. -/
def whenHeaded (heads : List String) (edit : List Token → Option (List Token)) (kind : Kind)
    (children : List Token) : Option (List Token) :=
  if kind = .list then do
    let text ← head .list children
    if text.any fun h => heads.contains (String.ofList h) then edit children else some children
  else some children

/-- The bindings of a let form, every one but the first on a new line. -/
def breakBindings : Token → Option Token
  | .aggregate .list children => do
    let places ← elements .list children
    let changed ← breakBeforeEach children (places.drop 1)
    some (.aggregate .list changed)
  | t => some t

/-- A let form with its bindings and its body forms on lines of their own. -/
def breakLet (children : List Token) : Option (List Token) := do
  let places ← elements .list children
  if places.length < 3 then some children
  else
    let body ← slice places 2 places.length
    let changed ← breakBeforeEach children body
    let second ← places[1]?
    let bindings ← changed[second]?
    let broken ← breakBindings bindings
    some (changed.set second broken)

/-- The place of the closing delimiter, if it is there. -/
def closerPlace (kind : Kind) (children : List Token) : Option (Option Nat) :=
  if isClosed kind children then (placeBefore children.length).map some else some none

/-- A conditional, by the places of its opener, its elements and its closer. -/
def breakConditional (children : List Token) : Option (List Token) := do
  let inner ← elements .list children
  let closer ← closerPlace .list children
  let places := 0 :: (inner ++ closer.toList)
  if places.length ≤ 3 then some children
  else
    let later ← slice places 4 places.length
    let changed ← breakBeforeEach children (later.filter fun place => some place != closer)
    let fourth ← places[3]?
    breakBefore changed fourth (if some fourth = closer then 0 else 1)

/-- A sequence with every form on a line of its own. -/
def breakSequence (children : List Token) : Option (List Token) := do
  let places ← elements .list children
  let later ← slice places 1 places.length
  breakBeforeEach children later

/-- A lambda with its body forms on lines of their own. -/
def breakLambda (children : List Token) : Option (List Token) := do
  let places ← elements .list children
  breakBeforeEach children (places.drop 2)

/-! ## Comments and continuations -/

/-- The places of comments with two marks that come after something other than white space. -/
def lineComments (children : List Token) : Bool → List Nat → Option (List Nat)
  | _, [] => some []
  | seen, place :: rest => do
    let child ← children[place]?
    let later ← lineComments children (seen || !child.isWhitespace) rest
    some (if isLineComment child && seen then place :: later else later)

/-- Give the comments between the delimiters that follow other content lines of their own. -/
def breakLineComments (kind : Kind) (children : List Token) : Option (List Token) := do
  let (start, stop) ← innerRange kind children
  let places ← lineComments children false (List.range' start (stop - start))
  breakBeforeEach children places

/-- Move comments with two marks that follow other content to lines of their own. -/
def breakComments (kind : Kind) (children : List Token) : Option (List Token) :=
  match kind with
  | .root | .list | .array => breakLineComments kind children
  | _ => some children

/-- Whether an element takes several lines, and the line before the next has not been broken. -/
def continues (children : List Token) (place next : Nat) : Option Bool := do
  let child ← children[place]?
  if child.spansLines then (alreadyBroken children next).map (!·) else some false

/-- The places after elements that take several lines, by the pairs of neighbours. -/
def continuationPlaces (children : List Token) : List (Nat × Nat) → Option (List Nat)
  | [] => some []
  | (place, next) :: rest => do
    let wanted ← continues children place next
    let later ← continuationPlaces children rest
    some (if wanted then next :: later else later)

/-- In a list, start a new line after every element that takes several lines. -/
def breakContinuations (kind : Kind) (children : List Token) : Option (List Token) :=
  match kind with
  | .list => do
    let inner ← elements .list children
    let places ← continuationPlaces children (neighbours inner)
    breakBeforeEach children places
  | _ => some children

/-! ## The passes over a tree -/

/-- An edit of children by index. -/
abbrev Edit := Kind → List Token → Option (List Token)

/-- The edits of the standard layout, in order. -/
def standard : List Edit :=
  [spaceOut, whenHeaded ["let", "let*"] breakLet, whenHeaded ["if"] breakConditional,
    whenHeaded ["progn"] breakSequence, whenHeaded ["lambda"] breakLambda, breakComments,
    breakContinuations]

mutual

/-- What walking an edit over a tree gives, once every edit on the way has a result. -/
inductive Walks (edit : Edit) : Token → Token → Prop where
  | atom (text : List Char) (lineBreak : Bool) :
    Walks edit (.atom text lineBreak) (.atom text lineBreak)
  | aggregate {kind : Kind} {children changed walked : List Token} :
    edit kind children = some changed → WalksAll edit changed walked →
    Walks edit (.aggregate kind children) (.aggregate kind walked)

/-- What walking an edit over some trees gives. -/
inductive WalksAll (edit : Edit) : List Token → List Token → Prop where
  | nil : WalksAll edit [] []
  | cons {t walked : Token} {rest others : List Token} :
    Walks edit t walked → WalksAll edit rest others →
    WalksAll edit (t :: rest) (walked :: others)

end

end ExactLisp.Layout.Indexed
