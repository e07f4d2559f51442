import ExactLisp.Lexeme.Spelling
import ExactLisp.Proofs.Layout.Sites
import ExactLisp.Proofs.Lexeme.Lossless

/-!
# Formatting changes white space only

The lexemes of a formatted text are those of the text but for the white space between
them: nothing is glued together, torn apart, or pulled into a comment
(`filter_scan_format`). For that it is enough to look at neighbours. Where a gap was
empty in the source, its neighbours keep apart without it; where it was not, something
is left of it, and a line break at its start, which ends a comment, stays there
(`head?_written`). Only after an opening bracket or a quote mark may a gap vanish, and
from these everything keeps apart.
-/

namespace ExactLisp.Layout

open Lexeme (MayPrecede IsFree isChain_cons_of_free)

/-! ## What is left of a gap -/

/-- The blanks of a gap. -/
def blanksOf (gap : Gap) : List Blank :=
  gap.filterMap fun
    | .blank c => some c
    | .lineBreak => none

theorem blanksOf_ofBlanks (blanks : List Blank) : blanksOf (ofBlanks blanks) = blanks := by
  induction blanks with
  | nil => rfl
  | cons c rest ih => exact congrArg (c :: ·) ih

/-- A gap between forms is not dropped, and neither is the line break that it starts with. -/
theorem head?_written {r : Reach} (ho : r.opens = false) (next : Next) (indent : Nat) (c : Blank)
    (rest : List Blank) :
    ∃ d blanks, written (.inRow r next) indent (ofBlanks (c :: rest)) = d :: blanks ∧
      (c.1 = '\n' → d.1 = '\n') := by
  have hfinished := finished_inRow (plain_ofBlanks (c :: rest)) r next
  cases hbreak : (mark r next).or (Breaker.continuations r next []) with
  | some extra =>
    -- the gap gives way to the line break of a pass
    rw [hbreak] at hfinished
    rw [written, hfinished]
    exact ⟨.newline, _, rfl, fun _ => rfl⟩
  | none =>
    rw [hbreak] at hfinished
    -- only the spacing pass has been here, which keeps a line break where it is
    have hspaced : ∃ m others, spaced (.inRow r next) (ofBlanks (c :: rest)) = m :: others ∧
        (m = .blank c ∨ m = .space ∧ (Mark.blank c).isNewline = false) := by
      have htrimmed : ∀ gap, trimmed (.inRow r next) gap = gap := by
        intro gap
        simp [trimmed, ho]
      have hseparated : ∀ m others, separated (.inRow r next) (m :: others) = m :: others := by
        intro m others
        rcases next with _ | _ | _
        · rw [separated]
          split <;> rfl
        · rfl
        · rfl
      have hcollapsed : collapsed (.inRow r next) (ofBlanks (c :: rest)) =
          if (Mark.blank c).isNewline then .blank c :: collapse false (ofBlanks rest)
          else .space :: collapse true (ofBlanks rest) := by
        exact congrArg (fun other => if (Mark.blank c).isNewline then _ else other) rfl
      rw [spaced, htrimmed, hcollapsed]
      cases hm : (Mark.blank c).isNewline with
      | true => exact ⟨_, _, hseparated .., Or.inl rfl⟩
      | false => exact ⟨_, _, hseparated .., Or.inr ⟨rfl, rfl⟩⟩
    obtain ⟨m, others, hm, hcase⟩ := hspaced
    have hwritten : written (.inRow r next) indent (ofBlanks (c :: rest)) =
        writeGap indent next false (m :: others) := by
      rw [written, hfinished, ← hm]
      rfl
    rw [hwritten]
    rcases hcase with rfl | ⟨rfl, hspace⟩
    · by_cases hc : c.1 = '\n'
      · exact ⟨.newline, _, if_pos hc, fun _ => rfl⟩
      · exact ⟨c, _, if_neg hc, fun h => absurd h hc⟩
    · refine ⟨.space, _, rfl, fun hc => ?_⟩
      simp [Mark.isNewline, hc] at hspace

/-- Nothing is put at the end of what is not closed. -/
theorem written_nothing {s : Spot} (hs : s.next = .nothing) (indent : Nat) :
    written s indent [] = [] := by
  rcases s with ⟨r, next⟩ | ⟨_ | _⟩
  · have hn : next = .nothing := hs
    subst hn
    have hspaced : spaced (.inRow r .nothing) [] = [] := by
      simp [spaced, separated, trimmed, collapsed, collapse, dropSpace]
    rw [written, finished_inRow plain_nil, mark_nothing, hspaced]
    rfl
  · rfl
  · cases hs

/-- Nothing is put after an opening bracket. -/
theorem written_opens {r : Reach} (hr : r.Proper) (ho : r.opens = true) (next : Next)
    (indent : Nat) : written (.inRow r next) indent [] = [] := by
  have hspaced : spaced (.inRow r next) [] = [] := by
    cases next <;> simp [spaced, separated, trimmed, collapsed, collapse, dropSpace, ho]
  have hlong := (hr ho).2
  have hcontinues : Breaker.continuations r next [] = none := by
    rcases next with ⟨_ | _, _⟩ | _ | _ <;> simp [Breaker.continuations, hlong]
  rw [written, finished_inRow plain_nil, mark_of_opens hr ho, hcontinues, hspaced]
  rfl

/-! ## Neighbours keep apart -/

/--
Whether some lexemes can be put in place of others after anything, or only after what
keeps apart from everything.
-/
def KeepsApart (onlyFree : Bool) (xs ys : List Lexeme) : Prop :=
  ∀ p : Lexeme, (onlyFree = true → p.IsFree) →
    (p :: xs).IsChain MayPrecede → (p :: ys).IsChain MayPrecede

theorem KeepsApart.nil : KeepsApart false [] [] := fun _ _ h => h

theorem KeepsApart.cons {xs ys : List Lexeme} (h : KeepsApart false xs ys) (x : Lexeme) :
    KeepsApart false (x :: xs) (x :: ys) := by
  intro p _ hp
  rw [List.isChain_cons_cons] at hp ⊢
  exact ⟨hp.1, h x (fun hf => by cases hf) hp.2⟩

theorem KeepsApart.cons_free {xs ys : List Lexeme} (h : KeepsApart true xs ys) {x : Lexeme}
    (hx : x.IsFree) : KeepsApart false (x :: xs) (x :: ys) := by
  intro p _ hp
  rw [List.isChain_cons_cons] at hp ⊢
  exact ⟨hp.1, h x (fun _ => hx) hp.2⟩

theorem isChain_of_spaces_append {p : Lexeme} : ∀ {blanks : List Blank} {xs : List Lexeme},
    (p :: (spaces blanks ++ xs)).IsChain MayPrecede → xs.IsChain MayPrecede
  | [], _, h => List.isChain_of_isChain_cons h
  | _ :: _, _, h => isChain_of_spaces_append (List.isChain_of_isChain_cons h)

/-- After what keeps apart from everything any white space may stand. -/
theorem isChain_spaces_append {xs ys : List Lexeme} (h : KeepsApart false xs ys)
    (hxs : xs.IsChain MayPrecede) : ∀ (blanks : List Blank) {p : Lexeme}, p.IsFree →
      (p :: (spaces blanks ++ ys)).IsChain MayPrecede
  | [], p, hp => h p (fun hf => by cases hf) (isChain_cons_of_free hp hxs)
  | c :: blanks, p, hp => by
    have hrest := isChain_spaces_append h hxs blanks (p := .space c.1) trivial
    exact List.isChain_cons_cons.mpr ⟨hp.mayPrecede _, hrest⟩

theorem keepsApart_of_free {xs ys : List Lexeme} (h : KeepsApart false xs ys)
    (first second : List Blank) :
    KeepsApart true (spaces first ++ xs) (spaces second ++ ys) := by
  intro p hp hchain
  exact isChain_spaces_append h (isChain_of_spaces_append hchain) second (hp rfl)

/-- What precedes something that is not white space also precedes a blank before it. -/
theorem mayPrecede_space {p x : Lexeme} (hx : x.isSpace = false) (h : p.MayPrecede x) (c : Char) :
    p.MayPrecede (.space c) := by
  cases p with
  | comment text =>
    have hspace : x = .space '\n' := h
    rw [hspace] at hx
    cases hx
  | str raw closed =>
    cases closed with
    | true => trivial
    | false => exact absurd h id
  | word | opening | closing | quote | space => trivial

/-- A blank stands for another if it ends a line where that one does. -/
theorem mayPrecede_space_of_space {p : Lexeme} {c d : Char} (hcd : c = '\n' → d = '\n')
    (h : p.MayPrecede (.space c)) : p.MayPrecede (.space d) := by
  cases p with
  | comment text =>
    have hc : Lexeme.space c = .space '\n' := h
    exact congrArg Lexeme.space (hcd (Lexeme.space.inj hc))
  | str raw closed =>
    cases closed with
    | true => trivial
    | false => exact absurd h id
  | word | opening | closing | quote | space => trivial

/-- **What is written for a gap keeps its neighbours apart** if the gap did. -/
theorem keepsApart_gap {p : Laid} (hv : p.Valid) {r : Reach} {next : Next}
    (hs : p.spot = .inRow r next) {xs ys : List Lexeme} (h : KeepsApart false xs ys)
    (hnext : next ≠ .nothing → ∃ x rest, xs = x :: rest ∧ x.isSpace = false) :
    KeepsApart r.opens (spaces (blanksOf p.source) ++ xs) (spaces p.blanks ++ ys) := by
  obtain ⟨source, hsource⟩ := hv.source
  obtain ⟨indent, -, hblanks⟩ := hv.blanks
  rw [hsource, hs] at hblanks
  rw [hsource, blanksOf_ofBlanks]
  cases ho : r.opens with
  | true => exact keepsApart_of_free h source p.blanks
  | false =>
    intro q _ hchain
    have hxs := isChain_of_spaces_append hchain
    cases source with
    | nil =>
      cases hb : p.blanks with
      | nil => exact h q (fun hf => by cases hf) hchain
      | cons d blanks =>
        -- something was inserted, so something follows
        have hne : next ≠ .nothing := by
          rintro rfl
          have hnil := written_nothing (s := .inRow r .nothing) rfl indent
          rw [hb] at hblanks
          rw [show ofBlanks [] = [] from rfl, hnil] at hblanks
          cases hblanks
        obtain ⟨x, rest, rfl, hx⟩ := hnext hne
        have hq := List.rel_of_isChain_cons_cons hchain
        exact List.isChain_cons_cons.mpr
          ⟨mayPrecede_space hx hq d.1, isChain_spaces_append h hxs blanks trivial⟩
    | cons c source =>
      obtain ⟨d, blanks, hd, hcd⟩ := head?_written ho next indent c source
      have hq := List.rel_of_isChain_cons_cons hchain
      rw [hblanks, hd]
      exact List.isChain_cons_cons.mpr
        ⟨mayPrecede_space_of_space hcd hq, isChain_spaces_append h hxs blanks trivial⟩

theorem exists_lexemes_cons {γ : Type} (blanks : γ → List Blank) (f : Form γ) :
    ∃ x rest, f.lexemes blanks = x :: rest ∧ x.isSpace = false := by
  cases f <;> exact ⟨_, _, rfl, rfl⟩

mutual

/-- The lexemes of a form keep apart with what is written for its gaps. -/
theorem Form.keepsApart : ∀ (f : Form Laid) (isBindings : Bool) (xs ys : List Lexeme),
    f.Placed Laid.spot Laid.isLong isBindings → f.All Laid.Valid → KeepsApart false xs ys →
      KeepsApart false (f.lexemes (fun p => blanksOf p.source) ++ xs)
        (f.lexemes Laid.blanks ++ ys)
  | .word w, _, xs, ys, _, _, h => h.cons (.word w.1)
  | .stray b, _, xs, ys, _, _, h => h.cons (.closing b)
  | .str raw closed, _, xs, ys, _, _, h => h.cons (.str raw closed)
  | .comment text, _, xs, ys, _, _, h => h.cons (.comment text)
  | .group b row closed, isBindings, xs, ys, hp, hv, h => by
    have hclosing : KeepsApart false ((if closed then [.closing b] else []) ++ xs)
        ((if closed then [.closing b] else []) ++ ys) := by
      cases closed with
      | false => exact h
      | true => exact h.cons (.closing b)
    have hrow := Row.keepsApart row (.start (.group b closed) isBindings row) _ _ hp hv hclosing (by
      intro hc
      have hclosed : closed = true := hc
      rw [hclosed]
      exact ⟨.closing b, xs, rfl, rfl⟩)
    simp only [Form.lexemes, List.cons_append, List.append_assoc]
    exact KeepsApart.cons_free hrow trivial
  | .quoted gap form, _, xs, ys, hp, hv, h => by
    have hform := Form.keepsApart form false xs ys hp.2 hv.2 h
    simp only [Form.lexemes, List.cons_append, List.append_assoc]
    exact KeepsApart.cons_free (keepsApart_of_free hform _ _) trivial
  | .bareQuote gap, _, xs, ys, _, _, h => by
    simp only [Form.lexemes, List.cons_append]
    exact KeepsApart.cons_free (keepsApart_of_free h _ _) trivial

/-- The lexemes of a row keep apart with what is written for its gaps. -/
theorem Row.keepsApart : ∀ (row : Row Laid) (r : Reach) (xs ys : List Lexeme),
    row.Placed Laid.spot Laid.isLong r → row.All Laid.Valid → KeepsApart false xs ys →
      (r.shell.closes = true → ∃ x rest, xs = x :: rest ∧ x.isSpace = false) →
        KeepsApart r.opens (row.lexemes (fun p => blanksOf p.source) ++ xs)
          (row.lexemes Laid.blanks ++ ys)
  | .last gap, r, xs, ys, hp, hv, h, hxs => by
    have hs : gap.spot = .inRow r r.shell.next := hp
    refine keepsApart_gap hv hs h fun hn => hxs ?_
    rcases hshell : r.shell with _ | ⟨b, _ | _⟩
    · rw [hshell] at hn
      exact absurd rfl hn
    · rw [hshell] at hn
      exact absurd rfl hn
    · rfl
  | .item gap form rest, r, xs, ys, hp, hv, h, hxs => by
    obtain ⟨hs, hform, hrest⟩ := hp
    have hone := Row.keepsApart rest _ xs ys hrest hv.2.2 h hxs
    have htwo := Form.keepsApart form r.atBindings _ _ hform hv.2.1 hone
    have hhead : form.next ≠ .nothing → ∃ x others,
        form.lexemes (fun p => blanksOf p.source) ++
            (rest.lexemes (fun p => blanksOf p.source) ++ xs) = x :: others ∧
          x.isSpace = false := by
      intro _
      obtain ⟨x, others, hx, hspace⟩ := exists_lexemes_cons (fun p => blanksOf p.source) form
      exact ⟨x, _, by rw [hx]; rfl, hspace⟩
    have hgap := keepsApart_gap hv.1 hs htwo hhead
    simp only [Row.lexemes, List.append_assoc]
    exact hgap

end

/-! ## The lexemes of a formatted text -/

theorem Row.lexemes_source_laid (row : Row (List Blank)) :
    row.laid.lexemes (fun p => blanksOf p.source) = row.lexemes id := by
  have hmap := row.laid.lexemes_map Laid.source blanksOf
  rw [map_source_laid, source, lexemes_map] at hmap
  have hid : blanksOf ∘ ofBlanks = id := funext blanksOf_ofBlanks
  rw [hid] at hmap
  exact hmap.symm

theorem Row.filter_lexemes_laid (row : Row (List Blank)) :
    (row.laid.lexemes Laid.blanks).filter (fun x => !x.isSpace) =
      (row.lexemes id).filter fun x => !x.isSpace := by
  rw [← lexemes_source_laid, row.laid.filter_lexemes Laid.blanks _ id,
    row.laid.filter_lexemes (fun p => blanksOf p.source) Laid.blanks id]

/-- What is well spelled stays so among other white space. -/
theorem Row.wellSpelled_of_filter {γ : Type} {row : Row γ} {blanks : γ → List Blank}
    {xs : List Lexeme} (hxs : ∀ x ∈ xs, x.WellSpelled .source)
    (hfilter : (row.lexemes blanks).filter (fun x => !x.isSpace) =
      xs.filter fun x => !x.isSpace) :
    ∀ x ∈ row.lexemes blanks, x.WellSpelled .source := by
  intro x hx
  cases hspace : x.isSpace with
  | true =>
    cases x with
    | space c => exact row.isBlank_of_mem_lexemes blanks hx
    | _ => cases hspace
  | false =>
    have hmem : x ∈ (row.lexemes blanks).filter fun x => !x.isSpace := by
      simp [List.mem_filter, hx, hspace]
    rw [hfilter] at hmem
    exact hxs x (List.mem_of_mem_filter hmem)

/-- The lexemes of a row laid out are canonical if those of the row are. -/
theorem Row.canonical_laid {row : Row (List Blank)}
    (h : Lexeme.Canonical .source (row.lexemes id)) :
    Lexeme.Canonical .source (row.laid.lexemes Laid.blanks) where
  spelled := wellSpelled_of_filter h.spelled (filter_lexemes_laid row)
  apart := by
    have hkeep := row.laid.keepsApart (.start .root false row) [] [] (placed_laid row)
      (valid_laid row) .nil (fun h => by cases h)
    have hsource := isChain_cons_of_free (p := .quote) trivial h.apart
    rw [← lexemes_source_laid, ← List.append_nil (row.laid.lexemes _)] at hsource
    have hlaid := hkeep .quote (fun _ => trivial) hsource
    rw [List.append_nil] at hlaid
    exact List.isChain_of_isChain_cons hlaid

theorem scan_format_of_fits {text : String} {row : Row (List Blank)}
    (hr : row.Regular Row.IsEmpty none true) (hs : Lexeme.scan .source text = row.lexemes id)
    (hf : row.fits 0 = true) :
    Lexeme.scan .source (format text) = row.laid.lexemes Laid.blanks := by
  have hcanonical : Lexeme.Canonical .source (row.lexemes id) :=
    hs ▸ Lexeme.canonical_scan .source text
  rw [format_eq_laid hr hs, if_pos hf]
  exact Lexeme.scan_ofList (Row.canonical_laid hcanonical)

/-- **Formatting keeps all lexemes** but white space, in order and as they are. -/
theorem filter_scan_format (text : String) :
    (Lexeme.scan .source (format text)).filter (fun x => !x.isSpace) =
      (Lexeme.scan .source text).filter fun x => !x.isSpace := by
  let row := Row.ofLexemes (Lexeme.scan .source text)
  have hr : row.Regular Row.IsEmpty none true := Row.regular_ofLexemes _
  have hs : Lexeme.scan .source text = row.lexemes id := scan_eq_lexemes_ofLexemes text
  cases hf : row.fits 0 with
  | true => rw [scan_format_of_fits hr hs hf, Row.filter_lexemes_laid, ← hs]
  | false =>
    rw [format_eq_laid hr hs, hf]
    rfl

/-- What is in a formatted text, but for white space, is in the text. -/
theorem mem_scan_format {text : String} {x : Lexeme} (hx : x.isSpace = false)
    (h : x ∈ Lexeme.scan .source (format text)) : x ∈ Lexeme.scan .source text := by
  have hfilter : x ∈ (Lexeme.scan .source (format text)).filter fun x => !x.isSpace := by
    simp [List.mem_filter, h, hx]
  rw [filter_scan_format] at hfilter
  exact List.mem_of_mem_filter hfilter

/-! ## The tokens of a formatted text -/

/-- Whether every semicolon of a text, as the evaluator reads it, is inside a string. -/
def semicolonsInStrings (text : String) : Bool :=
  (Lexeme.scan .engine text).all fun x =>
    match x with
    | .str .. => true
    | other => !other.spelling.contains commentMark

/-- A text whose semicolons are inside strings has the same lexemes with and without comments. -/
theorem scan_source_of_semicolonsInStrings {text : String} (h : semicolonsInStrings text = true) :
    Lexeme.scan .source text = Lexeme.scan .engine text := by
  have hcanonical := Lexeme.canonical_scan .engine text
  have hsource : Lexeme.Canonical .source (Lexeme.scan .engine text) := by
    refine hcanonical.to_source fun word hw hmem => ?_
    have hword : (!word.contains commentMark) = true :=
      List.all_eq_true.mp h (.word word) hw
    have hcontains : word.contains commentMark = true := by simpa using hmem
    rw [hcontains] at hword
    cases hword
  have hscan := Lexeme.scan_ofList hsource
  rw [Lexeme.spelling_scan, String.ofList_toList] at hscan
  exact hscan

/-- The characters alone tell whether all semicolons are inside strings. -/
theorem semicolonsInStrings_eq (text : String) :
    semicolonsInStrings text = Lexeme.semicolonsQuoted none text.toList := by
  rw [Bool.eq_iff_iff, ← Lexeme.scan_source_eq_iff]
  refine ⟨scan_source_of_semicolonsInStrings, fun heq => List.all_eq_true.mpr fun x hx => ?_⟩
  have hspelled := (Lexeme.canonical_scan .source text).spelled x (heq ▸ hx)
  cases x with
  | str => rfl
  | word w =>
    have hmem : commentMark ∉ w := fun hmem => by cases hspelled.2 _ hmem
    simpa [Lexeme.spelling] using hmem
  | space c =>
    have hne : c ≠ commentMark := Lexeme.ne_of_test hspelled rfl
    simpa [Lexeme.spelling] using hne.symm
  | comment body => cases ((Lexeme.canonical_scan .engine text).spelled _ hx).1
  | quote => rfl
  | opening b => cases b <;> rfl
  | closing b => cases b <;> rfl

theorem flatMap_tokens_filter (xs : List Lexeme) :
    (xs.filter fun x => !x.isSpace).flatMap Lexeme.tokens = xs.flatMap Lexeme.tokens := by
  induction xs with
  | nil => rfl
  | cons x rest ih =>
    rw [List.filter_cons, List.flatMap_cons, ← ih]
    cases x <;> rfl

theorem tokenize_format {text : String} (h : semicolonsInStrings text = true) :
    tokenize (format text) = tokenize text := by
  have hkept := filter_scan_format text
  rw [scan_source_of_semicolonsInStrings h] at hkept
  have hcomment : ∀ body, .comment body ∉ Lexeme.scan .source (format text) := by
    intro body hmem
    have hsource := mem_scan_format (x := .comment body) rfl hmem
    rw [scan_source_of_semicolonsInStrings h] at hsource
    have hspelled := (Lexeme.canonical_scan .engine text).spelled _ hsource
    cases hspelled.1
  have hengine := Lexeme.scan_ofList
    ((Lexeme.canonical_scan .source (format text)).to_engine hcomment)
  rw [Lexeme.spelling_scan, String.ofList_toList] at hengine
  rw [tokenize, tokenize, hengine, ← flatMap_tokens_filter, hkept, flatMap_tokens_filter]

/--
**Formatting never touches code.** The lexemes of a text but for white space stay as
they are, comments included, and so do the tokens that the evaluator reads if all
semicolons are inside strings.
-/
theorem format_keeps_code (text : String) :
    (Lexeme.scan .source (format text)).filter (fun x => !x.isSpace) =
        (Lexeme.scan .source text).filter (fun x => !x.isSpace) ∧
      (semicolonsInStrings text = true → tokenize (format text) = tokenize text) :=
  ⟨filter_scan_format text, tokenize_format⟩

theorem format_keeps_code_if :
    semicolonsInStrings "(if \"a;b\"'\n x [1\n2]y" = true ∧
      tokenize (format "(if \"a;b\"'\n x [1\n2]y") = tokenize "(if \"a;b\"'\n x [1\n2]y" :=
  ⟨by decide, (format_keeps_code "(if \"a;b\"'\n x [1\n2]y").2 (by decide)⟩

end ExactLisp.Layout
