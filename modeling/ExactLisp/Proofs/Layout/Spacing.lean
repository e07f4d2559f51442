import ExactLisp.Proofs.Layout.LetForms

/-!
# The rule of the spacing pass

Spacing does three things to the gaps of a row: runs of spaces are collapsed, the
space after an opening bracket is dropped, and forms with nothing between them are
separated. The gap between a quote mark and its form is dropped altogether.
-/

namespace ExactLisp.Layout

/-! ## Three edits of a gap -/

/-- Make one space of every run of white space within a line. -/
def collapse (afterSpace : Bool) : Gap → Gap
  | [] => []
  | m :: rest =>
    if m.isNewline then m :: collapse false rest
    else if afterSpace then collapse true rest
    else .space :: collapse true rest

/-- Drop the space at the start of a gap. -/
def dropSpace : Gap → Gap
  | [] => []
  | m :: rest => if m.token.atomText? = some [' '] then rest else m :: rest

/-- Put a space where there is nothing. -/
def separate (gap : Gap) : Gap := if gap.isEmpty then [.space] else gap

/-- Spaces are collapsed everywhere; before what is quoted all white space is dropped. -/
def collapsed : Rule
  | .afterQuote true, _ => []
  | _, gap => collapse false gap

/-- The space after an opening delimiter is dropped. -/
def trimmed : Rule
  | .inRow r _, gap => if r.opens && r.shell != .root then dropSpace gap else gap
  | .afterQuote _, gap => dropSpace gap

/-- Forms in a list or an array are separated. -/
def separated : Rule
  | .inRow r (.form ..), gap => if r.opens || r.shell == .root then gap else separate gap
  | _, gap => gap

/-- What spacing makes of a gap. -/
def spaced : Rule := fun s gap => separated s (trimmed s (collapsed s gap))

/-! ## Collapsing -/

theorem isSpace_of_isWhitespace_false {t : Token} (h : t.isWhitespace = false) :
    t.isSpace = false := by
  rw [Token.isSpace, h, Bool.false_and]

theorem isSpace_markToken (m : Mark) : m.token.isSpace = !m.isNewline := by
  rw [Token.isSpace, isWhitespace_markToken, Bool.true_and]
  cases m with
  | blank c =>
    simp [Mark.token, Token.char, Token.plain, Token.isNewline, hasNewline, Mark.isNewline]
  | lineBreak => rfl

/-- Collapsing goes on after a gap with something that is not a space. -/
theorem collapseSpaces_gap {rest : List Token} (h : ∀ t ∈ rest.head?, t.isSpace = false) :
    ∀ (gap : Gap) (afterSpace : Bool),
      collapseSpaces afterSpace (gapTokens gap ++ rest) =
        gapTokens (collapse afterSpace gap) ++ collapseSpaces false rest
  | [], afterSpace => by
    cases rest with
    | nil => rfl
    | cons t rest =>
      have ht := h t rfl
      show collapseSpaces afterSpace (t :: rest) = collapseSpaces false (t :: rest)
      rw [collapseSpaces, collapseSpaces, ht]
      rfl
  | m :: gap, afterSpace => by
    have hfalse := collapseSpaces_gap h gap false
    have htrue := collapseSpaces_gap h gap true
    rw [gapTokens, List.map_cons, ← gapTokens, List.cons_append, collapseSpaces,
      isSpace_markToken, collapse, hfalse, htrue]
    cases m.isNewline <;> cases afterSpace <;> rfl

theorem collapseSpaces_row {rest : List Token} (h : ∀ t ∈ rest.head?, t.isSpace = false) :
    ∀ (row : Row Gap) (r : Reach),
      collapseSpaces false (row.tokens ++ rest) =
        (row.editOwn never collapsed leave r).tokens ++ collapseSpaces false rest
  | .last gap, r => collapseSpaces_gap h gap false
  | .item gap form others, r => by
    have ih := collapseSpaces_row h others (r.after form.isElement (form.spans never))
    have hform : ∀ t ∈ (form.token :: (others.tokens ++ rest)).head?, t.isSpace = false := by
      intro t ht
      cases ht
      exact isSpace_of_isWhitespace_false (isWhitespace_form form)
    have hgap := collapseSpaces_gap hform gap false
    have hcons : collapseSpaces false (form.token :: (others.tokens ++ rest)) =
        form.token :: collapseSpaces false (others.tokens ++ rest) := by
      rw [collapseSpaces, hform form.token rfl]
      rfl
    rw [Row.tokens, List.append_assoc, List.cons_append, hgap, hcons, ih, Row.editOwn,
      Form.prepare_leave, ite_self, Row.tokens, List.append_assoc, List.cons_append]
    rfl

theorem isSpace_closerTokens (shell : Shell) :
    ∀ t ∈ shell.closerTokens.head?, t.isSpace = false := by
  intro t ht
  rcases shell with _ | ⟨_ | _, _ | _⟩ <;> cases ht <;> rfl

theorem collapseSpaces_closerTokens (shell : Shell) :
    collapseSpaces false shell.closerTokens = shell.closerTokens := by
  rcases shell with _ | ⟨_ | _, _ | _⟩ <;> rfl

theorem collapseSpaces_enclose (shell : Shell) (row : Row Gap) (r : Reach) :
    collapseSpaces false (shell.enclose row.tokens) =
      shell.enclose (row.editOwn never collapsed leave r).tokens := by
  have hrow := collapseSpaces_row (isSpace_closerTokens shell) row r
  rw [collapseSpaces_closerTokens] at hrow
  cases shell with
  | root => simpa [Shell.enclose, Shell.openerTokens] using hrow
  | group b closed =>
    have hopen : (Token.char b.openChar).isSpace = false := by cases b <;> rfl
    rw [Shell.enclose, Shell.enclose, List.append_assoc, List.append_assoc, Shell.openerTokens,
      List.singleton_append, List.singleton_append, collapseSpaces, hopen, hrow]
    rfl

/-! ## Trimming -/

theorem atomText?_form_ne_space (f : Form Gap) : f.token.atomText? ≠ some [' '] := by
  rw [atomText?_token]
  cases f with
  | word w =>
    intro h
    have hw : w.1 = [' '] := Option.some.inj h
    have hb := isBlank_of_mem_word (w := w) (c := ' ') (by simp [hw])
    revert hb
    decide
  | stray b => cases b <;> decide
  | str | comment | group | quoted | bareQuote => simp [Form.atomText?]

/-- Trimming drops the space at the start of what follows an opener. -/
theorem trimOpening_cons (opener : Token) (gap : Gap) {rest : List Token}
    (h : ∀ t ∈ rest.head?, t.atomText? ≠ some [' ']) :
    trimOpening (opener :: (gapTokens gap ++ rest)) =
      opener :: (gapTokens (dropSpace gap) ++ rest) := by
  -- only an atom that is a space is dropped
  have hkeep : ∀ (t : Token) (ts : List Token), t.atomText? ≠ some [' '] →
      trimOpening (opener :: t :: ts) = opener :: t :: ts := by
    intro t ts ht
    cases t with
    | atom text lineBreak =>
      rw [trimOpening, if_neg]
      rintro rfl
      exact ht rfl
    | aggregate => rfl
  cases gap with
  | nil =>
    cases rest with
    | nil => rfl
    | cons t rest => exact hkeep t rest (h t rfl)
  | cons m gap =>
    rw [gapTokens, List.map_cons, List.cons_append, dropSpace]
    split
    next hm =>
      have hatom : ∃ lineBreak, m.token = .atom [' '] lineBreak := by
        cases m with
        | blank c => exact ⟨false, by
          simpa [Mark.token, Token.char, Token.plain, Token.atomText?] using hm⟩
        | lineBreak => cases hm
      obtain ⟨lineBreak, hatom⟩ := hatom
      rw [hatom, trimOpening, if_pos rfl]
      rfl
    next hm => exact hkeep m.token _ hm

/-- After the first form nothing is trimmed. -/
theorem Row.editOwn_trimmed_eq_self : ∀ (row : Row Gap) (r : Reach), r.opens = false →
    row.editOwn never trimmed leave r = row
  | .last gap, r, h => by simp [editOwn, trimmed, h]
  | .item gap form rest, r, h => by
    rw [editOwn, Form.prepare_leave, ite_self,
      rest.editOwn_trimmed_eq_self (r.after form.isElement (form.spans never)) rfl]
    simp [trimmed, h]

theorem trimOpening_enclose (b : Bracket) (closed isBindings : Bool) (row other : Row Gap) :
    trimOpening ((Shell.group b closed).enclose row.tokens) =
      (Shell.group b closed).enclose (row.editOwn never trimmed leave
        (.start (.group b closed) isBindings other)).tokens := by
  have hcloser : ∀ t ∈ (closerTokens b closed).head?, t.atomText? ≠ some [' '] := by
    intro t ht
    cases closed <;> cases ht
    cases b <;> decide
  rw [Shell.enclose, Shell.enclose, List.append_assoc, List.append_assoc]
  cases row with
  | last gap => exact trimOpening_cons (.char b.openChar) gap hcloser
  | item gap form rest =>
    have hform : ∀ t ∈ (form.token :: (rest.tokens ++ closerTokens b closed)).head?,
        t.atomText? ≠ some [' '] := by
      intro t ht
      cases ht
      exact atomText?_form_ne_space form
    have htrim := trimOpening_cons (.char b.openChar) gap hform
    rw [Row.editOwn, Form.prepare_leave, ite_self, Row.editOwn_trimmed_eq_self _ _ rfl, Row.tokens,
      Row.tokens, List.append_assoc, List.append_assoc, List.cons_append]
    exact htrim

/-! ## Separating -/

theorem separateAll_whitespace_cons {t : Token} (h : t.isWhitespace = true) (ts : List Token) :
    separateAll (t :: ts) = t :: separateAll ts := by
  cases ts with
  | nil => rfl
  | cons u rest => rw [separateAll, h, Bool.true_or, if_pos rfl]

theorem separateAll_gap (gap : Gap) (rest : List Token) :
    separateAll (gapTokens gap ++ rest) = gapTokens gap ++ separateAll rest := by
  induction gap with
  | nil => rfl
  | cons m gap ih =>
    rw [gapTokens, List.map_cons, List.cons_append,
      separateAll_whitespace_cons (isWhitespace_markToken m), ← gapTokens, ih]
    rfl

/-- After a form, a space is put before the next one if it follows directly. -/
theorem separateAll_form (form : Form Gap) (gap : Gap) (next : Form Gap) (rest : List Token) :
    separateAll (form.token :: (gapTokens gap ++ next.token :: rest)) =
      form.token :: (gapTokens (separate gap) ++ separateAll (next.token :: rest)) := by
  cases gap with
  | nil =>
    show separateAll (form.token :: next.token :: rest) = _
    rw [separateAll, isWhitespace_form, isWhitespace_form]
    rfl
  | cons m gap =>
    rw [separate, if_neg (by simp), ← separateAll_gap, gapTokens, List.map_cons, List.cons_append,
      separateAll, isWhitespace_markToken, Bool.or_true, if_pos rfl]

theorem separateAll_form_gap (form : Form Gap) (gap : Gap) :
    separateAll (form.token :: gapTokens gap) = form.token :: gapTokens gap := by
  cases gap with
  | nil => rfl
  | cons m gap =>
    have hgap := separateAll_gap (m :: gap) []
    rw [List.append_nil] at hgap
    rw [gapTokens, List.map_cons] at hgap ⊢
    rw [separateAll, isWhitespace_markToken, Bool.or_true, if_pos rfl, hgap]
    simp [separateAll]

theorem separateAll_after (b : Bracket) (closed : Bool) :
    ∀ (row : Row Gap) (r : Reach) (form : Form Gap),
      r.shell = .group b closed → r.opens = false →
        separateAll (form.token :: row.tokens) =
          form.token :: (row.editOwn never separated leave r).tokens
  | .last gap, r, form, hs, ho => by
    have hgap : separated (.inRow r r.shell.next) gap = gap := by
      rcases closed with _ | _ <;> rw [hs] <;> rfl
    rw [Row.editOwn, hgap]
    exact separateAll_form_gap form gap
  | .item gap next others, r, form, hs, ho => by
    have ih := separateAll_after b closed others (r.after next.isElement (next.spans never)) next
      hs rfl
    have hgap : separated (.inRow r next.next) gap = separate gap := by
      simp [separated, Form.next, ho, hs]
    rw [Row.tokens, separateAll_form, ih, Row.editOwn, Form.prepare_leave, ite_self, Row.tokens,
      hgap]

theorem separateAll_tokens {b : Bracket} {closed : Bool} (row : Row Gap) {r : Reach}
    (hs : r.shell = .group b closed) (ho : r.opens = true) :
    separateAll row.tokens = (row.editOwn never separated leave r).tokens := by
  cases row with
  | last gap =>
    have hgap : separated (.inRow r r.shell.next) gap = gap := by
      rcases closed with _ | _ <;> rw [hs] <;> rfl
    have hall := separateAll_gap gap []
    rw [List.append_nil] at hall
    rw [Row.editOwn, hgap, Row.tokens, hall]
    simp [separateAll]
  | item gap form others =>
    have hgap : separated (.inRow r form.next) gap = gap := by
      simp [separated, Form.next, ho]
    have hafter := separateAll_after b closed others
      (r.after form.isElement (form.spans never)) form hs rfl
    rw [Row.tokens, separateAll_gap, hafter, Row.editOwn, Form.prepare_leave, ite_self,
      Row.tokens, hgap]

theorem separateElements_enclose {shell : Shell} {row : Row Gap} (hm : row.Matched shell.own) :
    separateElements shell.kind (shell.enclose row.tokens) =
      shell.enclose (separateAll row.tokens) := by
  have hlen : (shell.openerTokens ++ row.tokens).length =
      shell.openerTokens.length + row.tokens.length := List.length_append
  rw [separateElements, Shell.innerStart_enclose, Shell.innerEnd_enclose hm, ← hlen,
    Shell.enclose, Shell.enclose, List.take_left, List.drop_left, List.drop_left,
    List.append_assoc shell.openerTokens row.tokens, List.take_left]

/-! ## The pass -/

theorem spaceOut_list_enclose (b : Bracket) (closed isBindings : Bool) {row : Row Gap}
    (hm : row.Matched (some b)) :
    spaceOut (.ofBracket b) ((Shell.group b closed).enclose row.tokens) =
      (Shell.group b closed).enclose
        (row.editOwn never spaced leave (.start (.group b closed) isBindings row)).tokens := by
  let r : Reach := .start (.group b closed) isBindings row
  have hm1 : (row.editOwn never collapsed leave r).Matched (Shell.group b closed).own :=
    row.matched_editOwn collapsed r hm
  have hm2 := (row.editOwn never collapsed leave r).matched_editOwn trimmed r hm1
  have hcollapse := collapseSpaces_enclose (.group b closed) row r
  have htrim := trimOpening_enclose b closed isBindings (row.editOwn never collapsed leave r) row
  have hseparate := separateElements_enclose hm2
  have hall := @separateAll_tokens b closed
    ((row.editOwn never collapsed leave r).editOwn never trimmed leave r) r rfl rfl
  have hcompose : ((row.editOwn never collapsed leave r).editOwn never trimmed leave r).editOwn
      never separated leave r = row.editOwn never spaced leave r := by
    rw [Row.editOwn_editOwn, Row.editOwn_editOwn]
    rfl
  have hspace : spaceOut (.ofBracket b) ((Shell.group b closed).enclose row.tokens) =
      separateElements (.ofBracket b) (trimOpening
        (collapseSpaces false ((Shell.group b closed).enclose row.tokens))) := by
    cases b <;> rfl
  rw [hspace, hcollapse, htrim]
  rw [← hcompose, ← hall, ← hseparate]
  rfl

theorem spaceOut_root_enclose (isBindings : Bool) (row : Row Gap) :
    spaceOut .root (Shell.root.enclose row.tokens) =
      Shell.root.enclose
        (row.editOwn never spaced leave (.start .root isBindings row)).tokens := by
  let r : Reach := .start .root isBindings row
  have hcollapse := collapseSpaces_enclose .root row r
  have htrim : ∀ other : Row Gap, other.editOwn never trimmed leave r = other := by
    intro other
    refine Row.editOwn_eq_self (fun r' hr _ next gap => ?_) other r rfl rfl
    have hroot : r'.shell = .root := hr
    simp [trimmed, hroot]
  have hseparate : ∀ other : Row Gap, other.editOwn never separated leave r = other := by
    intro other
    refine Row.editOwn_eq_self (fun r' hr _ next gap => ?_) other r rfl rfl
    have hroot : r'.shell = .root := hr
    cases next <;> simp [separated, hroot]
  have hcompose : ((row.editOwn never collapsed leave r).editOwn never trimmed leave r).editOwn
      never separated leave r = row.editOwn never spaced leave r := by
    rw [Row.editOwn_editOwn, Row.editOwn_editOwn]
    rfl
  rw [hseparate, htrim] at hcompose
  rw [← hcompose, ← hcollapse]
  rfl

theorem spaceOut_quoted (gap : Gap) (form : Form Gap) :
    spaceOut .quote (.char quoteMark :: (gapTokens gap ++ [form.token])) =
      [.char quoteMark, form.token] := by
  have hform := isWhitespace_form form
  have hmark : (Token.char quoteMark).isWhitespace = false := rfl
  cases gap with
  | nil =>
    have hcollapse : collapseSpaces false [.char quoteMark, form.token] =
        [.char quoteMark, form.token] := by
      simp [collapseSpaces, isSpace_of_isWhitespace_false hmark,
        isSpace_of_isWhitespace_false hform]
    have hatom : ∀ t ∈ [form.token].head?, t.atomText? ≠ some [' '] := by
      intro t ht
      cases ht
      exact atomText?_form_ne_space form
    have htrim := trimOpening_cons (.char quoteMark) [] hatom
    have hspace : spaceOut .quote [.char quoteMark, form.token] =
        trimOpening (collapseSpaces false [.char quoteMark, form.token]) := rfl
    show spaceOut .quote [.char quoteMark, form.token] = _
    rw [hspace, hcollapse]
    exact htrim
  | cons m gap =>
    have hacross : quotesAcrossBlanks
        (.char quoteMark :: (gapTokens (m :: gap) ++ [form.token])) = true := by
      have hlast : (Token.char quoteMark :: (gapTokens (m :: gap) ++ [form.token])).getLast? =
          some form.token := by
        rw [← List.cons_append, List.getLast?_concat]
      rw [quotesAcrossBlanks, hlast]
      simp [hform, gapTokens]
    have hfilter : (gapTokens (m :: gap)).filter (fun t => !t.isWhitespace) = [] := by
      rw [List.filter_eq_nil_iff]
      intro t ht
      simp [isWhitespace_of_mem_gapTokens ht]
    rw [spaceOut, if_pos hacross, List.filter_cons, hmark, List.filter_append, hfilter]
    simp [hform]

theorem spaceOut_bareQuote (gap : Gap) :
    spaceOut .quote (.char quoteMark :: gapTokens gap) =
      .char quoteMark :: gapTokens (dropSpace (collapse false gap)) := by
  have hacross : quotesAcrossBlanks (.char quoteMark :: gapTokens gap) = false := by
    rw [quotesAcrossBlanks]
    rcases List.eq_nil_or_concat gap with rfl | ⟨front, m, rfl⟩
    · rfl
    · have hlast : (Token.char quoteMark :: gapTokens (front ++ [m])).getLast? = some m.token := by
        rw [gapTokens, List.map_append, List.map_singleton, ← List.cons_append,
          List.getLast?_concat]
      rw [List.concat_eq_append, hlast]
      simp [isWhitespace_markToken]
  have hmark : (Token.char quoteMark).isSpace = false := rfl
  have hcollapse := @collapseSpaces_gap [] (fun t ht => by cases ht) gap false
  have htrim := @trimOpening_cons (.char quoteMark) (collapse false gap) []
    (fun t ht => by cases ht)
  rw [List.append_nil] at hcollapse
  rw [List.append_nil, List.append_nil] at htrim
  rw [spaceOut, hacross, if_neg Bool.false_ne_true, collapseSpaces, hmark,
    if_neg Bool.false_ne_true, hcollapse]
  exact (congrArg trimOpening (by rw [collapseSpaces, List.append_nil])).trans htrim

theorem realizes_spacing : Realizes spaceOut never spaced leave where
  verbatim kind hk ts := by
    cases kind with
    | str | comment => rfl
    | root | list | array | quote => cases hk
  inRow shell isBindings row hm := by
    rw [leave, ite_self]
    cases shell with
    | root => exact spaceOut_root_enclose isBindings row
    | group b closed => exact spaceOut_list_enclose b closed isBindings hm
  quoted gap form := spaceOut_quoted gap form
  bareQuote gap := spaceOut_bareQuote gap

end ExactLisp.Layout
