import ExactLisp.Proofs.Layout.Rereading

/-!
# Formatting twice is formatting once

If every quote mark has something to quote, each gap of a formatted text is read again
as what was written for it (`Row.reread_of_noBare`). The passes and the writer do with
that what they did with the source, so formatting a formatted text changes nothing.
-/

namespace ExactLisp.Layout

variable {γ δ : Type}

/-! ## Quote marks with something to quote -/

/-- Whether what follows a quote mark, white space apart, is something it can quote. -/
def startsForm (rest : List Lexeme) : Bool :=
  match rest.dropWhile Lexeme.isSpace with
  | [] | .closing _ :: _ | .comment _ :: _ => false
  | _ => true

/-- Whether every quote mark is followed, after any white space, by a form. -/
def quotesHaveForms : List Lexeme → Bool
  | [] => true
  | .quote :: rest => startsForm rest && quotesHaveForms rest
  | _ :: rest => quotesHaveForms rest

mutual

/-- Whether every quote mark in a form has something to quote. -/
def Form.NoBare : Form γ → Prop
  | .group _ row _ => row.NoBare
  | .quoted _ form => form.NoBare
  | .bareQuote _ => False
  | _ => True

/-- Whether every quote mark in a row has something to quote. -/
def Row.NoBare : Row γ → Prop
  | .last _ => True
  | .item _ form rest => form.NoBare ∧ rest.NoBare

end

theorem quotesHaveForms_of_cons {x : Lexeme} {rest : List Lexeme}
    (h : quotesHaveForms (x :: rest) = true) : quotesHaveForms rest = true := by
  cases x with
  | quote => exact (Bool.and_eq_true _ _ ▸ h).2
  | opening | closing | word | space | str | comment => exact h

theorem Row.noBare_splitAt (b : Bracket) : ∀ row : Row γ, row.NoBare →
    (row.splitAt b).1.NoBare ∧ ∀ rest ∈ (row.splitAt b).2, rest.NoBare
  | .last gap, _ => ⟨trivial, fun rest h => by cases h⟩
  | .item gap form others, h => by
    rw [splitAt]
    split
    · refine ⟨trivial, fun rest hr => ?_⟩
      cases hr
      exact h.2
    · obtain ⟨hin, hrest⟩ := others.noBare_splitAt b h.2
      exact ⟨⟨h.1, hin⟩, hrest⟩

theorem dropWhile_spaces_append (blanks : List Blank) (rest : List Lexeme) :
    (spaces blanks ++ rest).dropWhile Lexeme.isSpace = rest.dropWhile Lexeme.isSpace := by
  refine List.dropWhile_append_of_pos fun x hx => ?_
  obtain ⟨c, -, rfl⟩ := List.mem_map.mp hx
  rfl

/-- Where a form starts, a quote mark takes it. -/
theorem noBare_push_quote {row : Row (List Blank)} (h : row.NoBare)
    (hs : startsForm (row.lexemes id) = true) : (Row.push .quote row).NoBare := by
  cases row with
  | last gap =>
    have hdrop : (spaces gap).dropWhile Lexeme.isSpace = [] := by
      have happ := dropWhile_spaces_append gap []
      rw [List.append_nil] at happ
      exact happ
    have hlexemes : (Row.last gap).lexemes id = spaces gap := rfl
    rw [startsForm, hlexemes, hdrop] at hs
    cases hs
  | item gap form rest =>
    rw [Row.push]
    split
    · exact h
    next hq =>
      have hlexemes : (Row.item gap form rest).lexemes id =
          spaces gap ++ (form.lexemes id ++ rest.lexemes id) := List.append_assoc ..
      rw [startsForm, hlexemes, dropWhile_spaces_append] at hs
      cases form with
      | stray | comment => cases hs
      | word | str | group | quoted | bareQuote => exact absurd rfl hq

/-- If every quote mark of some lexemes is followed by a form, it takes it. -/
theorem Row.noBare_ofLexemes {xs : List Lexeme} (hx : ∀ x ∈ xs, x.WellSpelled .source)
    (h : quotesHaveForms xs = true) : (ofLexemes xs).NoBare := by
  induction xs with
  | nil => trivial
  | cons x rest ih =>
    have hrest : ∀ y ∈ rest, y.WellSpelled .source := fun y hy => hx y (List.mem_cons_of_mem _ hy)
    have ih := ih hrest (quotesHaveForms_of_cons h)
    have hlexemes := lexemes_ofLexemes hrest
    show (push x (ofLexemes rest)).NoBare
    generalize ofLexemes rest = row at ih hlexemes ⊢
    cases x with
    | space c =>
      rw [push]
      split
      · cases row <;> exact ih
      · exact ih
    | word w =>
      rw [push]
      split
      · exact ⟨trivial, ih⟩
      · exact ih
    | closing | str | comment => exact ⟨trivial, ih⟩
    | opening b =>
      have hsplit := row.noBare_splitAt b ih
      rw [push]
      split
      next inner others hs =>
        rw [hs] at hsplit
        exact ⟨hsplit.1, hsplit.2 others rfl⟩
      next inner hs =>
        rw [hs] at hsplit
        exact ⟨hsplit.1, trivial⟩
    | quote =>
      refine noBare_push_quote ih ?_
      rw [hlexemes]
      exact (Bool.and_eq_true _ _ ▸ h).1

mutual

theorem Form.noBare_map (φ : γ → δ) : ∀ f : Form γ, (f.map φ).NoBare ↔ f.NoBare
  | .word _ | .stray _ | .str .. | .comment _ | .bareQuote _ => Iff.rfl
  | .group _ row _ => row.noBare_map φ
  | .quoted _ form => form.noBare_map φ

theorem Row.noBare_map (φ : γ → δ) : ∀ row : Row γ, (row.map φ).NoBare ↔ row.NoBare
  | .last _ => Iff.rfl
  | .item gap form rest => by
    rw [Row.map, Row.NoBare, Row.NoBare, form.noBare_map φ, rest.noBare_map φ]

end

theorem Form.endsBare_of_noBare : ∀ f : Form γ, f.NoBare → f.endsBare = false
  | .word _, _ | .stray _, _ | .str .., _ | .comment _, _ | .group .., _ => rfl
  | .quoted _ form, h => form.endsBare_of_noBare h

/-! ## Reading again -/

mutual

/-- Where no quote mark is bare, every gap is read again as itself. -/
theorem Form.reread_of_noBare (blanks : γ → List Blank) (after : List Blank) : ∀ f : Form γ,
    f.NoBare → f.reread blanks after = f.map fun gap => (gap, blanks gap)
  | .word _, _ | .stray _, _ | .str .., _ | .comment _, _ => rfl
  | .group b row closed, h => by rw [Form.reread, Form.map, row.reread_of_noBare blanks h]
  | .quoted gap form, h => by rw [Form.reread, Form.map, form.reread_of_noBare blanks after h]

theorem Row.reread_of_noBare (blanks : γ → List Blank) : ∀ row : Row γ,
    row.NoBare → row.reread blanks false = row.map fun gap => (gap, blanks gap)
  | .last _, _ => rfl
  | .item gap form rest, h => by
    have hrest := rest.reread_of_noBare blanks h.2
    rw [Row.reread, Row.map, form.reread_of_noBare blanks _ h.1, form.endsBare_of_noBare h.1,
      hrest]
    rfl

end

theorem Row.settled_of_noBare {row : Row (List Blank)} (h : row.NoBare) :
    (row.laid.reread Laid.blanks false).All Reread.Settled := by
  have hlaid : row.laid.NoBare := by
    rw [← map_blanksOf_laid row] at h
    exact (row.laid.noBare_map _).mp h
  rw [row.laid.reread_of_noBare Laid.blanks hlaid]
  exact (row.laid.all_map _ _).mpr (All.mono (fun _ hv => hv.settled) _ (valid_laid row))

/-- **Formatting twice is formatting once**, if every quote mark has something to quote. -/
theorem format_format {text : String} (h : quotesHaveForms (Lexeme.scan .source text) = true) :
    format (format text) = format text := by
  have hb := Row.noBare_ofLexemes (Lexeme.canonical_scan .source text).spelled h
  exact format_format_of_settled (Row.regular_ofLexemes _) (scan_eq_lexemes_ofLexemes text)
    fun _ => Row.settled_of_noBare hb

/-- A text with a comment, a blank line, a string of two lines and an unclosed bracket. -/
theorem format_format_let :
    quotesHaveForms (Lexeme.scan .source
        "(let ((a 1) (b ' (2 3)))\n\n  ;; note\n  (if a \"x\ny\" b c") = true ∧
      format (format "(let ((a 1) (b ' (2 3)))\n\n  ;; note\n  (if a \"x\ny\" b c") =
        format "(let ((a 1) (b ' (2 3)))\n\n  ;; note\n  (if a \"x\ny\" b c" :=
  ⟨by decide, format_format (by decide)⟩

end ExactLisp.Layout
