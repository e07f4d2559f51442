import ExactLisp.Proofs.Datum.Grammar
import ExactLisp.Proofs.Lexeme.Continued

/-!
# Comments as code

To the evaluator a semicolon is a character of a word, so what is a comment in a source is
code to it. What it reads can still be told from the lexemes of the source (`codeFrom`):
each of them is code as it is, but for white space, and a comment is cut up once more,
together with a word that stands right before it.

This holds where every comment also ends the strings that it starts (`closesStrings`). A
string that goes on after the comment takes code and white space with it.
-/

namespace ExactLisp.Lexeme

/-- Whether no string that the evaluator reads starts in a comment and goes on after it. -/
def closesStrings (text : List Char) : Bool :=
  !(Pending.after .engine .idle (commentMark :: text)).isStr

/--
What the evaluator reads in some lexemes of a source, white space apart, with some lexeme
pending before them.
-/
def codeFrom : Pending → List Lexeme → List Lexeme
  | p, [] => p.flush
  | p, .space _ :: rest => p.flush ++ codeFrom .idle rest
  | p, .word w :: rest => p.flush ++ codeFrom (.word w.reverse) rest
  | p, .comment text :: rest =>
    (scanFrom .engine p (commentMark :: text)).filter (fun x => !x.isSpace) ++
      codeFrom .idle rest
  | p, x :: rest => p.flush ++ x :: codeFrom .idle rest

/-- Whether nothing is pending but perhaps a word. -/
def Pending.IsWord : Pending → Prop
  | .idle | .word _ => True
  | .str .. | .comment _ => False

/-- What is not a comment ends what is pending. -/
theorem codeFrom_of_head? {xs : List Lexeme} (h : ∀ text, xs.head? ≠ some (.comment text))
    (p : Pending) : codeFrom p xs = p.flush ++ codeFrom .idle xs := by
  rcases xs with _ | ⟨x, rest⟩
  · exact (List.append_nil _).symm
  · cases x with
    | comment text => exact absurd rfl (h text)
    | opening | closing | quote | word | space | str => rfl

/-! ## One lexeme of a source -/

theorem filter_flush {p : Pending} (hp : p.IsWord) :
    p.flush.filter (fun x => !x.isSpace) = p.flush := by
  cases p with
  | idle | word => rfl
  | str | comment => exact absurd hp id

/-- What cannot be part of a word ends the word that is pending. -/
theorem scanFrom_of_isWordChar_false {p : Pending} (hp : p.IsWord) {c : Char}
    (hc : isWordChar .engine c = false) (rest : List Char) :
    scanFrom .engine p (c :: rest) = p.flush ++ scanFrom .engine .idle (c :: rest) := by
  cases p with
  | idle => rfl
  | word reversed =>
    exact scanFrom_word_of_head? reversed fun d hd => by
      cases hd
      exact hc
  | str | comment => exact absurd hp id

/-- What the pending word is makes no difference to what is pending later. -/
theorem isStr_after_word (reversed other : List Char) (cs : List Char) :
    (Pending.after .engine (.word reversed) cs).isStr =
      (Pending.after .engine (.word other) cs).isStr := by
  induction cs generalizing reversed other with
  | nil => rfl
  | cons c rest ih =>
    rw [Pending.after, Pending.after, step, step]
    split
    · exact ih _ _
    · rfl

/-- A comment that ends its strings does so after a word, too. -/
theorem isStr_after_comment {text : List Char} (h : closesStrings text = true) {p : Pending}
    (hp : p.IsWord) : (p.after .engine (commentMark :: text)).isStr = false := by
  have hidle : (Pending.after .engine .idle (commentMark :: text)).isStr = false := by
    simpa [closesStrings] using h
  cases p with
  | idle => exact hidle
  | word reversed =>
    exact (isStr_after_word (commentMark :: reversed) [commentMark] text).trans hidle
  | str | comment => exact absurd hp id

/-! ## The lexemes of a source -/

/-- What is neither a word nor a comment is the same to the evaluator. -/
theorem scanFrom_spelling_cons {x : Lexeme} {rest : List Lexeme}
    (h : Canonical .source (x :: rest)) (hword : ∀ w, x ≠ .word w)
    (hcomment : ∀ text, x ≠ .comment text) {p : Pending} (hp : p.IsWord) :
    scanFrom .engine p ((x :: rest).flatMap spelling) =
      p.flush ++ x :: scanFrom .engine .idle (rest.flatMap spelling) := by
  have hspelled := (h.spelled x List.mem_cons_self).to_engine hcomment
  have hends := h.endsBefore.to_engine hword
  obtain ⟨c, cs, hcs, hc⟩ := head?_spelling_of_not_word hspelled hword
  rw [← scanFrom_spelling_append hspelled hends, List.flatMap_cons, hcs, List.cons_append]
  exact scanFrom_of_isWordChar_false hp hc _

/--
**The code in a source** is told from the lexemes of the source, if its comments end the
strings that they start.
-/
theorem filter_scanFrom_spelling {xs : List Lexeme} (h : Canonical .source xs)
    (hc : ∀ text, .comment text ∈ xs → closesStrings text = true) {p : Pending} (hp : p.IsWord)
    (hword : p ≠ .idle → ∀ w, xs.head? ≠ some (.word w)) :
    (scanFrom .engine p (xs.flatMap spelling)).filter (fun x => !x.isSpace) = codeFrom p xs := by
  induction xs generalizing p with
  | nil => exact filter_flush hp
  | cons x rest ih =>
    have hx := h.spelled x List.mem_cons_self
    have ih := @ih h.tail fun text ht => hc text (List.mem_cons_of_mem _ ht)
    have hnext := @ih .idle trivial fun hne => absurd rfl hne
    cases x with
    | word w =>
      -- no word comes after a word, so nothing is pending
      have hidle : p = .idle := by
        by_contra hne
        exact hword hne w rfl
      have hafter := @ih (.word w.reverse) trivial fun _ v hv => by
        cases rest with
        | nil => cases hv
        | cons y rest =>
          cases hv
          exact List.rel_of_isChain_cons_cons h.apart
      rw [hidle, List.flatMap_cons, spelling,
        scanFrom_idle_word hx.1 fun c hmem => isWordChar_engine (hx.2 c hmem), hafter]
      rfl
    | comment text =>
      -- the line break after the comment ends what the evaluator reads in it
      have hended := isStr_after_comment (hc text List.mem_cons_self) hp
      rw [List.flatMap_cons, spelling, scanFrom_append_line hended h.endsBefore,
        List.filter_append, hnext]
      rfl
    | space c =>
      rw [scanFrom_spelling_cons h (by simp) (by simp) hp, List.filter_append, filter_flush hp,
        List.filter_cons_of_neg (by simp [isSpace]), hnext]
      rfl
    | opening | closing | quote | str =>
      rw [scanFrom_spelling_cons h (by simp) (by simp) hp, List.filter_append, filter_flush hp,
        List.filter_cons_of_pos (by simp [isSpace]), hnext]
      rfl

/-- The code of a text, from the lexemes of the text as a source. -/
theorem code_ofList {xs : List Lexeme} (h : Canonical .source xs)
    (hc : ∀ text, .comment text ∈ xs → closesStrings text = true) :
    code (String.ofList (xs.flatMap spelling)) = codeFrom .idle xs := by
  rw [code, scan, String.toList_ofList]
  exact filter_scanFrom_spelling h hc trivial fun hne => absurd rfl hne

end ExactLisp.Lexeme
