import ExactLisp.Proofs.Datum.Accepting
import ExactLisp.Proofs.Layout.Kept
import ExactLisp.Proofs.Lexeme.Comments

/-!
# Formatting keeps what is read

The formatter knows comments and the evaluator does not, so to the evaluator a comment is
code. It makes a difference where the formatter puts white space around a comment or
changes what is there: a comment may belong to the word right before it, and a string that
starts in a comment may go on after it (`read_format_ne`).

A text in which no word is parted from a comment (`keepsWords`) and no string leaves a
comment (`commentsCloseStrings`) is read as the same datum when it is formatted
(`readWithin_format`). The code of a row is followed gap by gap. What is pending before a
gap matters only after a word, and there what is written for the gap is empty if and only
if the gap is, or else the evaluator cannot tell.
-/

namespace ExactLisp.Layout

open Lexeme (Pending codeFrom closesStrings)

variable {γ δ : Type}

/-! ## Words before comments -/

/--
Whether a word may stand right before what comes after a form. After a group that is not
closed nothing comes but the end of the text.
-/
def Form.endsInWord : Form γ → Bool
  | .word _ => true
  | .group _ _ closed => !closed
  | .quoted _ form => form.endsInWord
  | .stray _ | .str .. | .comment _ | .bareQuote _ => false

mutual

/-- Whether no word in a form is parted from a comment right after it. -/
def Form.keepsWords (empty : γ → Bool) : Form γ → Bool
  | .group _ row _ => row.keepsWords empty false false
  | .quoted _ form => form.keepsWords empty
  | _ => true

/--
Whether no word in a row is parted from a comment right after it. Outside of all brackets
a comment that starts with a single mark stays where it is; any other is set off.
-/
def Row.keepsWords (empty : γ → Bool) (atRoot afterWord : Bool) : Row γ → Bool
  | .last _ => true
  | .item gap form rest =>
    (!(afterWord && empty gap && !form.isElement) || (atRoot && !form.isLineComment)) &&
      form.keepsWords empty && rest.keepsWords empty atRoot form.endsInWord

end

/-- Whether no word of a text is parted from a comment right after it. -/
def keepsWords (text : String) : Bool :=
  (Row.ofLexemes (Lexeme.scan .source text)).keepsWords List.isEmpty true false

/-- Whether no string that the evaluator reads starts in a comment and goes on after it. -/
def commentsCloseStrings (text : String) : Bool :=
  (Lexeme.scan .source text).all fun
    | .comment body => closesStrings body
    | _ => true

theorem Form.endsInWord_map (φ : γ → δ) : ∀ f : Form γ, (f.map φ).endsInWord = f.endsInWord
  | .word _ | .stray _ | .str .. | .comment _ | .group .. | .bareQuote _ => rfl
  | .quoted _ form => form.endsInWord_map φ

theorem Form.isLineComment_map (φ : γ → δ) (f : Form γ) :
    (f.map φ).isLineComment = f.isLineComment := by
  cases f <;> rfl

mutual

theorem Form.keepsWords_map (φ : γ → δ) (empty : δ → Bool) :
    ∀ f : Form γ, (f.map φ).keepsWords empty = f.keepsWords (empty ∘ φ)
  | .word _ | .stray _ | .str .. | .comment _ | .bareQuote _ => rfl
  | .group _ row _ => row.keepsWords_map φ empty false false
  | .quoted _ form => form.keepsWords_map φ empty

theorem Row.keepsWords_map (φ : γ → δ) (empty : δ → Bool) :
    ∀ (row : Row γ) (atRoot afterWord : Bool),
      (row.map φ).keepsWords empty atRoot afterWord =
        row.keepsWords (empty ∘ φ) atRoot afterWord
  | .last _, _, _ => rfl
  | .item gap form rest, atRoot, afterWord => by
    simp [Row.map, Row.keepsWords, form.keepsWords_map φ empty, rest.keepsWords_map φ empty,
      form.isLineComment_map, form.endsInWord_map]

end

/-! ## The code of a row -/

theorem codeFrom_idle_spaces (blanks : List Blank) (xs : List Lexeme) :
    codeFrom .idle (spaces blanks ++ xs) = codeFrom .idle xs := by
  induction blanks with
  | nil => rfl
  | cons c rest ih => exact ih

theorem codeFrom_spaces {blanks : List Blank} (h : blanks ≠ []) (p : Pending)
    (xs : List Lexeme) :
    codeFrom p (spaces blanks ++ xs) = p.flush ++ codeFrom .idle xs := by
  obtain ⟨c, rest, rfl⟩ := List.exists_cons_of_ne_nil h
  exact congrArg (p.flush ++ ·) (codeFrom_idle_spaces rest xs)

/--
Whether the evaluator reads the same in some lexemes as in others, after a word or only
where nothing is pending.
-/
def SameCode (afterWord : Bool) (xs ys : List Lexeme) : Prop :=
  ∀ p : Pending, (afterWord = false → p = .idle) → codeFrom p xs = codeFrom p ys

theorem SameCode.refl (afterWord : Bool) (xs : List Lexeme) : SameCode afterWord xs xs :=
  fun _ _ => rfl

theorem SameCode.idle {afterWord : Bool} {xs ys : List Lexeme} (h : SameCode afterWord xs ys) :
    codeFrom .idle xs = codeFrom .idle ys := h .idle fun _ => rfl

/-- Behind most lexemes nothing is pending. -/
theorem SameCode.cons {afterWord : Bool} {xs ys : List Lexeme} (h : SameCode afterWord xs ys)
    {x : Lexeme} (hx : ∀ w, x ≠ .word w) : SameCode true (x :: xs) (x :: ys) := by
  intro p _
  cases x with
  | word w => exact absurd rfl (hx w)
  | opening | closing | quote | space | str | comment => simp only [codeFrom, h.idle]

theorem SameCode.cons_word {xs ys : List Lexeme} (h : SameCode true xs ys) (w : List Char) :
    SameCode true (.word w :: xs) (.word w :: ys) := by
  intro p _
  rw [codeFrom, codeFrom, h (.word w.reverse) fun hf => by cases hf]

/-- Where nothing is pending, white space does not matter. -/
theorem SameCode.spaces_append {afterWord : Bool} {xs ys : List Lexeme}
    (h : SameCode afterWord xs ys) (first second : List Blank) :
    SameCode false (spaces first ++ xs) (spaces second ++ ys) := by
  intro p hp
  rw [hp rfl, codeFrom_idle_spaces, codeFrom_idle_spaces, h.idle]

theorem Shell.next_of_closes_false {shell : Shell} (h : shell.closes = false) :
    shell.next = .nothing := by
  rcases shell with _ | ⟨b, _ | _⟩
  · rfl
  · rfl
  · cases h

/-- Outside of all brackets, nothing is put before a comment that starts with a single mark. -/
theorem written_comment_root {r : Reach} (hr : r.shell = .root) (indent : Nat) :
    written (.inRow r (.form false false)) indent [] = [] := by
  have hspaced : spaced (.inRow r (.form false false)) [] = [] := by
    simp [spaced, separated, trimmed, collapsed, collapse, hr]
  have hmark : (mark r (.form false false)).or
      (Breaker.continuations r (.form false false) []) = none := by
    simp [mark, Breaker.comments, Breaker.lambdas, Breaker.sequences, Breaker.conditionals,
      Breaker.letBody, Breaker.bindings, Breaker.headed, Breaker.given, Breaker.fromElement,
      Breaker.conditional, Breaker.counting, Breaker.continuations]
  rw [written, finished_inRow plain_nil, hmark, hspaced]
  rfl

/--
**What is written for a gap** makes no difference to the evaluator, unless it parts a word
from a comment.
-/
theorem sameCode_gap {p : Laid} (hv : p.Valid) {r : Reach} {next : Next}
    (hs : p.spot = .inRow r next) {afterWord : Bool} (ho : afterWord = true → r.opens = false)
    {xs ys : List Lexeme} (h : SameCode true xs ys)
    (hkeep : afterWord = true → p.source = [] → p.blanks = [] ∨
      ∀ text, xs.head? ≠ some (.comment text) ∧ ys.head? ≠ some (.comment text)) :
    SameCode afterWord (spaces (blanksOf p.source) ++ xs) (spaces p.blanks ++ ys) := by
  cases afterWord with
  | false => exact h.spaces_append _ _
  | true =>
    intro q _
    obtain ⟨source, hsource⟩ := hv.source
    obtain ⟨indent, -, hblanks⟩ := hv.blanks
    rw [hsource, hs] at hblanks
    rw [hsource, blanksOf_ofBlanks]
    cases source with
    | cons c source =>
      -- a gap that is there stays there
      obtain ⟨d, blanks, hd, -⟩ := head?_written (ho rfl) next indent c source
      have hne : p.blanks ≠ [] := by
        rw [hblanks, hd]
        exact List.cons_ne_nil _ _
      rw [codeFrom_spaces (List.cons_ne_nil _ _), codeFrom_spaces hne, h.idle]
    | nil =>
      rcases hkeep rfl hsource with hnil | hhead
      · rw [hnil]
        exact h q fun hf => by cases hf
      · have hxs := Lexeme.codeFrom_of_head? (fun text => (hhead text).1) q
        have hys := Lexeme.codeFrom_of_head? (fun text => (hhead text).2) q
        cases hb : p.blanks with
        | nil => exact h q fun hf => by cases hf
        | cons d blanks =>
          rw [codeFrom_spaces (List.cons_ne_nil _ _), ← h.idle]
          exact hxs

theorem head?_lexemes_ne_comment {f : Form γ} (hf : f.isElement = true) (blanks : γ → List Blank)
    (xs : List Lexeme) (text : List Char) :
    (f.lexemes blanks ++ xs).head? ≠ some (.comment text) := by
  cases f with
  | comment => cases hf
  | word | stray | str | group | quoted | bareQuote => simp [Form.lexemes]

mutual

/-- The evaluator reads the same in a form with what is written for its gaps. -/
theorem Form.sameCode : ∀ (f : Form Laid) (isBindings : Bool) (xs ys : List Lexeme),
    f.Placed Laid.spot Laid.isLong isBindings → f.All Laid.Valid →
      f.keepsWords (fun p => p.source.isEmpty) = true → SameCode f.endsInWord xs ys →
        SameCode true (f.lexemes (fun p => blanksOf p.source) ++ xs)
          (f.lexemes Laid.blanks ++ ys)
  | .word w, _, _, _, _, _, _, h => h.cons_word w.1
  | .stray _, _, _, _, _, _, _, h => h.cons (by simp)
  | .str .., _, _, _, _, _, _, h => h.cons (by simp)
  | .comment _, _, _, _, _, _, _, h => h.cons (by simp)
  | .group b row closed, isBindings, xs, ys, hp, hv, hk, h => by
    have hend : SameCode true ((if closed then [.closing b] else []) ++ xs)
        ((if closed then [.closing b] else []) ++ ys) := by
      cases closed with
      | false => exact h
      | true => exact h.cons (by simp)
    have hrow := Row.sameCode row (.start (.group b closed) isBindings row) false _ _ hp hv hk
      (fun hf => by cases hf) hend (by
        intro hc text
        have hclosed : closed = true := hc
        simp [hclosed])
    simp only [Form.lexemes, List.cons_append, List.append_assoc]
    exact hrow.cons (by simp)
  | .quoted gap form, _, xs, ys, hp, hv, hk, h => by
    have hform := Form.sameCode form false xs ys hp.2 hv.2 hk h
    simp only [Form.lexemes, List.cons_append, List.append_assoc]
    exact (hform.spaces_append _ _).cons (by simp)
  | .bareQuote gap, _, xs, ys, _, _, _, h => by
    simp only [Form.lexemes, List.cons_append]
    exact (h.spaces_append _ _).cons (by simp)

/-- The evaluator reads the same in a row with what is written for its gaps. -/
theorem Row.sameCode : ∀ (row : Row Laid) (r : Reach) (afterWord : Bool) (xs ys : List Lexeme),
    row.Placed Laid.spot Laid.isLong r → row.All Laid.Valid →
      row.keepsWords (fun p => p.source.isEmpty) (r.shell == .root) afterWord = true →
        (afterWord = true → r.opens = false) → SameCode true xs ys →
          (r.shell.closes = true →
            ∀ text, xs.head? ≠ some (.comment text) ∧ ys.head? ≠ some (.comment text)) →
            SameCode afterWord (row.lexemes (fun p => blanksOf p.source) ++ xs)
              (row.lexemes Laid.blanks ++ ys)
  | .last gap, r, afterWord, xs, ys, hp, hv, _, ho, h, hends => by
    have hs : gap.spot = .inRow r r.shell.next := hp
    have hvalid : gap.Valid := hv
    refine sameCode_gap hvalid hs ho h fun _ hsource => ?_
    cases hc : r.shell.closes with
    | true => exact Or.inr (hends hc)
    | false =>
      -- nothing follows in the row, so nothing is written
      obtain ⟨indent, -, hblanks⟩ := hvalid.blanks
      rw [hsource, hs, Shell.next_of_closes_false hc] at hblanks
      exact Or.inl (hblanks.trans (written_nothing rfl indent))
  | .item gap form rest, r, afterWord, xs, ys, hp, hv, hk, ho, h, hends => by
    obtain ⟨hs, hform, hrest⟩ := hp
    rw [Row.keepsWords, Bool.and_eq_true, Bool.and_eq_true] at hk
    obtain ⟨⟨hkgap, hkform⟩, hkrest⟩ := hk
    have hone := Row.sameCode rest _ form.endsInWord xs ys hrest hv.2.2 hkrest (fun _ => rfl) h
      hends
    have htwo := Form.sameCode form r.atBindings _ _ hform hv.2.1 hkform hone
    have hgap := sameCode_gap hv.1 hs ho htwo fun hword hsource => by
      cases helement : form.isElement with
      | true => exact Or.inr fun text =>
          ⟨head?_lexemes_ne_comment helement _ _ text, head?_lexemes_ne_comment helement _ _ text⟩
      | false =>
        -- right after a word only a comment that stays there
        obtain ⟨hroot, hline⟩ : r.shell = .root ∧ form.isLineComment = false := by
          simpa [hword, hsource, helement] using hkgap
        obtain ⟨indent, -, hblanks⟩ := hv.1.blanks
        rw [hsource, hs, Form.next, helement, hline] at hblanks
        exact Or.inl (hblanks.trans (written_comment_root hroot indent))
    simp only [Row.lexemes, List.append_assoc]
    exact hgap

end

/-! ## The code of a formatted text -/

theorem closesStrings_of_commentsCloseStrings {text : String} (h : commentsCloseStrings text = true)
    {body : List Char} (hbody : .comment body ∈ Lexeme.scan .source text) :
    closesStrings body = true :=
  List.all_eq_true.mp h (.comment body) hbody

/-- The code of a text, from its lexemes as a source. -/
theorem code_eq_codeFrom {text : String}
    (h : ∀ body, .comment body ∈ Lexeme.scan .source text → closesStrings body = true) :
    Lexeme.code text = codeFrom .idle (Lexeme.scan .source text) := by
  have hcode := Lexeme.code_ofList (Lexeme.canonical_scan .source text) h
  rwa [Lexeme.spelling_scan, String.ofList_toList] at hcode

/-- **Formatting keeps the code** of a text, comments included. -/
theorem code_format {text : String} (hw : keepsWords text = true)
    (hc : commentsCloseStrings text = true) : Lexeme.code (format text) = Lexeme.code text := by
  let row := Row.ofLexemes (Lexeme.scan .source text)
  have hr : row.Regular Row.IsEmpty none true := Row.regular_ofLexemes _
  have hs : Lexeme.scan .source text = row.lexemes id := scan_eq_lexemes_ofLexemes text
  cases hf : row.fits 0 with
  | false =>
    rw [format_eq_laid hr hs, hf]
    rfl
  | true =>
    have hkeeps : row.laid.keepsWords (fun p => p.source.isEmpty) true false = true := by
      have hmap := row.laid.keepsWords_map Laid.source List.isEmpty true false
      rw [Row.map_source_laid, Row.source, Row.keepsWords_map] at hmap
      have hempty : List.isEmpty ∘ ofBlanks = List.isEmpty := by
        funext blanks
        cases blanks <;> rfl
      rw [hempty] at hmap
      exact hmap.symm.trans hw
    have hsame := row.laid.sameCode (.start .root false row) false [] [] (Row.placed_laid row)
      (Row.valid_laid row) hkeeps (fun hf => by cases hf) (SameCode.refl _ _)
      (fun hf => by cases hf)
    have hidle := hsame.idle
    rw [List.append_nil, List.append_nil, Row.lexemes_source_laid, ← hs] at hidle
    rw [code_eq_codeFrom fun body hbody =>
        closesStrings_of_commentsCloseStrings hc (mem_scan_format rfl hbody),
      code_eq_codeFrom fun body => closesStrings_of_commentsCloseStrings hc,
      scan_format_of_fits hr hs hf, hidle]

/--
**Formatting keeps what is read.** A formatted text is read as a datum exactly if the text
is read as that datum, provided that formatting parts no word from a comment and that no
string goes on after a comment that it starts in.
-/
theorem readWithin_format {text : String} (hw : keepsWords text = true)
    (hc : commentsCloseStrings text = true) (limit : Nat) (d : Datum) :
    Datum.readWithin limit (format text) = .ok d ↔ Datum.readWithin limit text = .ok d := by
  have hforms : ∀ forms, Datum.readForms limit (format text) = .ok forms ↔
      Datum.readForms limit text = .ok forms := by
    intro forms
    rw [Datum.readForms_eq_ok_iff, Datum.readForms_eq_ok_iff, code_format hw hc]
  rw [Datum.readWithin_eq_ok, Datum.readWithin_eq_ok]
  exact exists_congr fun forms => and_congr_left' (hforms forms)

/-- For instance with comments that are a word, hold a string, and belong to a word. -/
theorem readWithin_format_list :
    keepsWords "(f \"x;y\"  ;c \"d\"\n  'a)\nb;c" = true ∧
      commentsCloseStrings "(f \"x;y\"  ;c \"d\"\n  'a)\nb;c" = true ∧
      Datum.read (format "(f \"x;y\"  ;c \"d\"\n  'a)\nb;c") =
        .ok (.list [.symbol "progn",
          .list [.symbol "f", .literal (.str "x;y"), .symbol ";c", .literal (.str "d"),
            .quoting (.symbol "a")],
          .symbol "b;c"]) :=
  ⟨by decide, by decide, (readWithin_format (by decide) (by decide) _ _).mpr rfl⟩

/--
Some texts are not read as before: a word is parted from a comment in brackets, and a
string that starts in a comment loses white space after it.
-/
theorem read_format_ne :
    (Datum.read "(a;b)" = .ok (.list [.symbol "a;b"]) ∧
      Datum.read (format "(a;b)") ≠ .ok (.list [.symbol "a;b"])) ∧
    (Datum.read ";\"\n  x\"" =
        .ok (.list [.symbol "progn", .symbol ";", .literal (.str "\n  x")]) ∧
      Datum.read (format ";\"\n  x\"") ≠
        .ok (.list [.symbol "progn", .symbol ";", .literal (.str "\n  x")])) := by
  have hword : format "(a;b)" = "(a ;b)" := by decide +kernel
  have hstring : format ";\"\n  x\"" = ";\"\nx\"" := by decide +kernel
  have hparted : Datum.read "(a ;b)" = .ok (.list [.symbol "a", .symbol ";b"]) := rfl
  have hlost : Datum.read ";\"\nx\"" =
      .ok (.list [.symbol "progn", .symbol ";", .literal (.str "\nx")]) := rfl
  refine ⟨⟨rfl, ?_⟩, rfl, ?_⟩
  · rw [hword, hparted]
    simp
  · rw [hstring, hlost]
    simp

end ExactLisp.Layout
