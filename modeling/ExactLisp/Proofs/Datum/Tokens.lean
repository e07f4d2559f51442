import ExactLisp.Datum.Read
import ExactLisp.Proofs.Lexeme.Canonical

/-!
# Reading flat tokens

A text can be cut into flat tokens (`tokenize`), which are plain strings: the content of
a string literal is a token like the others, and may itself be a bracket or a quotation
mark. A reader of flat tokens tells content from syntax only by where it stands.

`readTokens` is such a reader. It gives what reading the lexemes gives
(`readTokens_tokenize`), faults included, so flattening loses nothing: no word is
spelled like a delimiter, a closed string always gives three tokens, and a string with
no end is the last thing in its text.
-/

namespace ExactLisp.Datum

/-- The token that opens and closes a string. -/
def stringMark : String := String.ofList [quotationMark]

/-- The lexeme that a token stands for outside of strings. -/
def lexemeOfToken (token : String) : Lexeme :=
  if token = "(" then .opening .round
  else if token = "[" then .opening .square
  else if token = ")" then .closing .round
  else if token = "]" then .closing .square
  else if token = "'" then .quote
  else .word token.toList

/-- Where a reader of tokens stands. -/
inductive Cursor where
  | between (p : Progress)
  /-- After the mark that opens a string: the next token is content, whatever it is. -/
  | opened (p : Progress)
  /-- After the content of a string: the next token has to close it. -/
  | filled (p : Progress) (content : String)

namespace Cursor

/-- Hand a string to the innermost open form. -/
def receive (content : String) (p : Progress) : Progress :=
  match p.frames with
  | .array reversed :: frames => ⟨.array (.str content :: reversed) :: frames, p.forms⟩
  | frames => .deliver (.literal (.str content)) frames p.forms

/-- Open a string. In an array there is no limit to check. -/
def openString (limit : Nat) (p : Progress) : Except ReadFault Cursor :=
  match p.frames with
  | .array _ :: _ => .ok (opened p)
  | frames => if limit ≤ frames.length then .error (.tooDeep limit) else .ok (opened p)

/-- Read one token. -/
def read (limit : Nat) : Cursor → String → Except ReadFault Cursor
  | between p, token =>
    if token = stringMark then openString limit p
    else (p.read limit (lexemeOfToken token)).map between
  | opened p, token => .ok (filled p token)
  | filled p content, token =>
    if token = stringMark then .ok (between (receive content p))
    else .error .unterminatedString

/-- The top-level forms, once the tokens have ended. -/
def finish : Cursor → Except ReadFault (List Datum)
  | between p => p.finish
  | opened _ | filled .. => .error .unterminatedString

/-- The top-level forms, once some more tokens have been read. -/
def outcome (limit : Nat) : Cursor → List String → Except ReadFault (List Datum)
  | cursor, [] => cursor.finish
  | cursor, token :: rest =>
    match cursor.read limit token with
    | .ok next => outcome limit next rest
    | .error fault => .error fault

end Cursor

/-- Read the top-level forms that some tokens spell. -/
def readTokens (limit : Nat) (tokens : List String) : Except ReadFault (List Datum) :=
  if tokens.isEmpty then .error .emptyInput
  else (Cursor.between .empty).outcome limit tokens

/-! ## Tokens outside of strings -/

/-- No word is a delimiter. -/
theorem ne_of_isWordChar {w : List Char} (hw : ∀ c ∈ w, isWordChar .engine c = true) {d : Char}
    (hd : isBreaking d = true) : String.ofList w ≠ String.ofList [d] := by
  intro h
  rw [String.ofList_inj.mp h] at hw
  have hc := hw d List.mem_cons_self
  rw [isWordChar, hd] at hc
  cases hc

theorem lexemeOfToken_word {w : List Char} (hw : ∀ c ∈ w, isWordChar .engine c = true) :
    lexemeOfToken (String.ofList w) = .word w := by
  have hne : ∀ d : Char, isBreaking d = true → String.ofList w ≠ String.ofList [d] :=
    fun d => ne_of_isWordChar hw
  unfold lexemeOfToken
  rw [if_neg (hne '(' rfl), if_neg (hne '[' rfl), if_neg (hne ')' rfl), if_neg (hne ']' rfl),
    if_neg (hne '\x27' rfl), String.toList_ofList]

/-- What is neither a string nor white space is one token, and is read as what it is. -/
theorem read_between {x : Lexeme} (hx : x.WellSpelled .engine) (hs : x.isSpace = false)
    (hstr : ∀ raw closed, x ≠ .str raw closed) (limit : Nat) (p : Progress) :
    ∃ token, x.tokens = [token] ∧
      (Cursor.between p).read limit token = (p.read limit x).map .between := by
  have hone : ∀ token, token ≠ stringMark → lexemeOfToken token = x →
      (Cursor.between p).read limit token = (p.read limit x).map .between := by
    intro token hmark htoken
    rw [Cursor.read, if_neg hmark, htoken]
  cases x with
  | opening b => cases b <;> exact ⟨_, rfl, hone _ (by decide) (by decide)⟩
  | closing b => cases b <;> exact ⟨_, rfl, hone _ (by decide) (by decide)⟩
  | quote => exact ⟨_, rfl, hone _ (by decide) (by decide)⟩
  | word w => exact ⟨_, rfl, hone _ (ne_of_isWordChar hx.2 rfl) (lexemeOfToken_word hx.2)⟩
  | space c => cases hs
  | str raw closed => exact absurd rfl (hstr raw closed)
  | comment text => cases hx.1

/-! ## Strings -/

/-- Where a string cannot be opened, the fault is that of the whole string. -/
theorem read_str {limit : Nat} {p : Progress} (raw : List Char) (closed : Bool) :
    p.read limit (.str raw closed) =
      match Cursor.openString limit p with
      | .error fault => .error fault
      | .ok _ =>
        if closed then .ok (Cursor.receive (String.ofList (unescape raw)) p)
        else .error .unterminatedString := by
  obtain ⟨frames, forms⟩ := p
  cases frames with
  | nil =>
    by_cases h : limit ≤ 0 <;>
      simp [Progress.read, Lexeme.isSpace, Progress.readForm, Cursor.openString, Cursor.receive, h]
  | cons frame frames =>
    cases frame with
    | array reversed => rfl
    | list reversed =>
      by_cases h : limit ≤ frames.length + 1 <;>
        simp [Progress.read, Lexeme.isSpace, Progress.readForm, Cursor.openString, Cursor.receive, h]
    | quote =>
      by_cases h : limit ≤ frames.length + 1 <;>
        simp [Progress.read, Lexeme.isSpace, Progress.readForm, Cursor.openString, Cursor.receive, h]

theorem openString_eq_opened {limit : Nat} {p : Progress} {cursor : Cursor}
    (h : Cursor.openString limit p = .ok cursor) : cursor = .opened p := by
  unfold Cursor.openString at h
  split at h
  · cases h
    rfl
  · split at h
    · cases h
    · cases h
      rfl

/-- The top-level forms, once some more lexemes have been read. -/
def Progress.outcome (limit : Nat) (p : Progress) (xs : List Lexeme) :
    Except ReadFault (List Datum) :=
  match p.readAll limit xs with
  | .ok last => last.finish
  | .error fault => .error fault

theorem Progress.outcome_cons (limit : Nat) (p : Progress) (x : Lexeme) (rest : List Lexeme) :
    p.outcome limit (x :: rest) =
      match p.read limit x with
      | .ok next => next.outcome limit rest
      | .error fault => .error fault := by
  rw [Progress.outcome, Progress.readAll]
  cases p.read limit x <;> rfl

/-- A closed string is three tokens. What the second one is makes no difference. -/
theorem outcome_str (limit : Nat) (p : Progress) (raw : List Char) (rest : List String) :
    (Cursor.between p).outcome limit ((Lexeme.str raw true).tokens ++ rest) =
      match p.read limit (.str raw true) with
      | .ok next => (Cursor.between next).outcome limit rest
      | .error fault => .error fault := by
  have htokens : (Lexeme.str raw true).tokens ++ rest =
      stringMark :: String.ofList (unescape raw) :: stringMark :: rest := by
    simp [Lexeme.tokens, stringMark]
  rw [htokens, Cursor.outcome, Cursor.read, if_pos rfl, read_str]
  cases hopen : Cursor.openString limit p with
  | error fault => rfl
  | ok cursor =>
    rw [openString_eq_opened hopen]
    rfl

/-- A string with no end is a fault, whether there is anything in it or not. -/
theorem outcome_str_unclosed (limit : Nat) (p : Progress) (raw : List Char) :
    (Cursor.between p).outcome limit (Lexeme.str raw false).tokens =
      p.outcome limit [.str raw false] := by
  rw [Progress.outcome_cons, read_str]
  simp only [Lexeme.tokens, Bool.false_eq_true, false_or, if_false, List.append_nil]
  rw [Cursor.outcome, ← stringMark, Cursor.read, if_pos rfl]
  cases hopen : Cursor.openString limit p with
  | error fault => rfl
  | ok cursor =>
    rw [openString_eq_opened hopen]
    by_cases hraw : unescape raw ≠ []
    · rw [if_pos hraw]
      rfl
    · rw [if_neg hraw]
      rfl

/-! ## Texts -/

/-- **Reading the tokens of some lexemes is reading the lexemes.** -/
theorem outcome_tokens (limit : Nat) {xs : List Lexeme} (hx : Lexeme.Canonical .engine xs)
    (p : Progress) :
    (Cursor.between p).outcome limit (xs.flatMap Lexeme.tokens) = p.outcome limit xs := by
  induction xs generalizing p with
  | nil => rfl
  | cons x rest ih =>
    have hrest : Lexeme.Canonical .engine rest := hx.tail
    have hwell := hx.spelled x List.mem_cons_self
    rw [List.flatMap_cons]
    by_cases hs : x.isSpace = true
    · -- white space gives no token
      have hread : p.read limit x = .ok p := by rw [Progress.read, if_pos hs]
      have htokens : x.tokens = [] := by
        cases x with
        | space c => rfl
        | _ => cases hs
      rw [htokens, Progress.outcome_cons, hread]
      exact ih hrest p
    have hs : x.isSpace = false := Bool.not_eq_true _ ▸ hs
    by_cases hstr : ∀ raw closed, x ≠ .str raw closed
    · obtain ⟨token, htokens, hread⟩ := read_between hwell hs hstr limit p
      rw [htokens, List.singleton_append, Cursor.outcome, hread, Progress.outcome_cons]
      cases p.read limit x with
      | ok next => exact ih hrest next
      | error fault => rfl
    push Not at hstr
    obtain ⟨raw, closed, rfl⟩ := hstr
    cases closed with
    | true =>
      rw [outcome_str, Progress.outcome_cons]
      cases p.read limit (.str raw true) with
      | ok next => exact ih hrest next
      | error fault => rfl
    | false =>
      -- nothing comes after a string with no end
      cases rest with
      | nil =>
        rw [List.flatMap_nil, List.append_nil]
        exact outcome_str_unclosed limit p raw
      | cons y rest => exact absurd (List.rel_of_isChain_cons_cons hx.apart) id

/-- Only white space gives no token. -/
theorem tokens_eq_nil_iff {x : Lexeme} (hx : x.WellSpelled .engine) :
    x.tokens = [] ↔ x.isSpace = true := by
  cases x with
  | space c => exact iff_of_true rfl rfl
  | comment text => cases hx.1
  | str raw closed => exact iff_of_false (by simp [Lexeme.tokens]) (by simp [Lexeme.isSpace])
  | opening | closing | quote | word =>
    exact iff_of_false (by simp [Lexeme.tokens]) (by simp [Lexeme.isSpace])

theorem isEmpty_tokenize (text : String) :
    (tokenize text).isEmpty = (Lexeme.scan .engine text).all Lexeme.isSpace := by
  rw [Bool.eq_iff_iff, List.isEmpty_iff, tokenize, List.flatMap_eq_nil_iff, List.all_eq_true]
  have hwell := (Lexeme.canonical_scan .engine text).spelled
  exact forall₂_congr fun x hx => tokens_eq_nil_iff (hwell x hx)

/-- **Reading the tokens of a text is reading the text**, whatever its strings hold. -/
theorem readTokens_tokenize (limit : Nat) (text : String) :
    readTokens limit (tokenize text) = readForms limit text := by
  rw [readTokens, readForms, isEmpty_tokenize]
  exact if_congr Iff.rfl rfl (outcome_tokens limit (Lexeme.canonical_scan .engine text) .empty)

end ExactLisp.Datum
