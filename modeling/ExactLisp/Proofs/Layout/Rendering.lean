import ExactLisp.Layout.Characters
import ExactLisp.Proofs.Layout.Spacing

/-!
# What the writer makes of a gap

The writer goes through the nodes of a tree from left to right, but what it writes
for a gap depends on little: the indentation of the aggregate around it, the marks of
the gap and what follows (`writeGap`). So it writes a tree of a form as a form again,
with blanks for gaps, and the text is that of its lexemes (`Form.write_token`). Only
the indentation is passed on from what has been written before.
-/

namespace ExactLisp.Layout

variable {γ δ : Type}

/-! ## Gaps -/

/-- A line break of the text. -/
def Blank.newline : Blank := ⟨'\n', rfl⟩

/-- A space of the text. -/
def Blank.space : Blank := ⟨' ', isBlank_space⟩

/-- Blanks as characters. -/
def characters (blanks : List Blank) : List Char := blanks.map Subtype.val

/-- Whether a line break of the source is indented, by the rest of its gap and what follows. -/
def indents (next : Next) (rest : Gap) : Bool :=
  rest.all (fun m => !m.isNewline) &&
    match next with
    | .form .. => true
    | .closer => !rest.isEmpty
    | .nothing => false

/-- What is written for a gap. -/
def writeGap (indent : Nat) (next : Next) : Bool → Gap → List Blank
  | _, [] => []
  | _, .lineBreak :: rest =>
    .newline :: (List.replicate indent .space ++ writeGap indent next false rest)
  | skipping, .blank c :: rest =>
    if c.1 = '\n' then
      .newline :: ((if indents next rest then List.replicate indent .space else []) ++
        writeGap indent next true rest)
    else if skipping && !(Mark.blank c).isNewline then writeGap indent next true rest
    else c :: writeGap indent next false rest

/-- What stands after a gap in an aggregate. -/
inductive Follows (closed : Bool) : Next → List Token → Prop
  | form (isElement isLineComment : Bool) (f : Form Gap) (rest : List Token) :
    (closed = true → rest ≠ []) → Follows closed (.form isElement isLineComment) (f.token :: rest)
  | closer (b : Bracket) : closed = true → Follows closed .closer [.char b.closeChar]
  | nothing : Follows closed .nothing []

theorem isNewline_form (f : Form Gap) : f.token.isNewline = false := by
  cases f with
  | word w => exact hasNewline_word w
  | stray b => cases b <;> rfl
  | str | comment | group | quoted | bareQuote => rfl

theorem isNewline_closer (b : Bracket) : (Token.char b.closeChar).isNewline = false := by
  cases b <;> rfl

/-- What a node after a gap is not. -/
theorem Follows.head {closed : Bool} {next : Next} {rest : List Token}
    (h : Follows closed next rest) :
    ∀ t ∈ rest.head?, t.isWhitespace = false ∧ t.isNewline = false := by
  intro t ht
  cases h with
  | form _ _ f rest =>
    cases ht
    exact ⟨isWhitespace_form f, isNewline_form f⟩
  | closer b =>
    cases ht
    exact ⟨by cases b <;> rfl, isNewline_closer b⟩
  | nothing => cases ht

theorem isSourceNewline_of_isNewline_false {t : Token} (h : t.isNewline = false) :
    isSourceNewline t = false := by
  cases t with
  | aggregate => rfl
  | atom text lineBreak =>
    rw [Token.isNewline, Bool.or_eq_false_iff] at h
    have hne : text ≠ ['\n'] := by
      rintro rfl
      exact absurd h.2 (by decide)
    simp [isSourceNewline, hne]

theorem isNewline_markToken (m : Mark) : m.token.isNewline = m.isNewline := by
  cases m with
  | blank c =>
    simp [Mark.token, Token.char, Token.plain, Token.isNewline, hasNewline, Mark.isNewline]
  | lineBreak => rfl

/-- The first line break of a gap that has one, after the spaces before it. -/
theorem dropWhile_isSpace_gap {gap : Gap} (h : gap.all (fun m => !m.isNewline) = false)
    (rest : List Token) :
    ∃ (m : Mark) (others : List Token), m.isNewline = true ∧
      (gapTokens gap ++ rest).dropWhile Token.isSpace = m.token :: others := by
  induction gap with
  | nil => cases h
  | cons m gap ih =>
    rw [gapTokens, List.map_cons, List.cons_append, List.dropWhile_cons, isSpace_markToken]
    cases hm : m.isNewline with
    | true => exact ⟨m, _, hm, by rw [Bool.not_true, if_neg Bool.false_ne_true]⟩
    | false =>
      rw [List.all_cons, hm, Bool.not_false, Bool.true_and] at h
      rw [Bool.not_false, if_pos rfl]
      exact ih h

theorem wantsIndent_gap {closed : Bool} {next : Next} {rest : List Token}
    (h : Follows closed next rest) (gap : Gap) :
    wantsIndent closed (gapTokens gap ++ rest) = indents next gap := by
  cases hall : gap.all (fun m => !m.isNewline) with
  | false =>
    obtain ⟨m, others, hm, hdrop⟩ := dropWhile_isSpace_gap hall rest
    simp [wantsIndent, hdrop, isNewline_markToken, hm, indents, hall]
  | true =>
    have hspaces : ∀ t ∈ gapTokens gap, t.isSpace = true := by
      intro t ht
      obtain ⟨m, hm, rfl⟩ := List.mem_map.mp ht
      rw [isSpace_markToken]
      exact List.all_eq_true.mp hall m hm
    have hrest : rest.dropWhile Token.isSpace = rest := by
      cases rest with
      | nil => rfl
      | cons t rest =>
        rw [List.dropWhile_cons_of_neg]
        simp [isSpace_of_isWhitespace_false (h.head t rfl).1]
    have hdrop : (gapTokens gap ++ rest).dropWhile Token.isSpace = rest := by
      rw [List.dropWhile_append_of_pos hspaces, hrest]
    rw [wantsIndent, hdrop]
    unfold indents
    rw [hall]
    cases h with
    | form _ _ f rest hne =>
      cases closed with
      | false => simp [isNewline_form]
      | true => simp [isNewline_form, hne rfl]
    | closer b hc =>
      cases gap with
      | nil => cases b <;> subst hc <;> rfl
      | cons m gap =>
        have hm : m.token.isSpace = true := hspaces m.token (by simp [gapTokens])
        simp [isNewline_closer, gapTokens, hm]
    | nothing => rfl

/-! ## Writing -/

namespace Written

theorem columnAfter_append (column : Nat) (first second : List Char) :
    columnAfter column (first ++ second) = columnAfter (columnAfter column first) second := by
  induction first generalizing column with
  | nil => rfl
  | cons c rest ih => exact ih _

theorem columnAfter_spaces (column indent : Nat) :
    columnAfter column (List.replicate indent ' ') = column + indent := by
  induction indent generalizing column with
  | zero => rfl
  | succ n ih =>
    rw [List.replicate_succ, columnAfter, if_neg (by decide), ih]
    omega

theorem push_push (w : Written) (first second : List Char) :
    (w.push first).push second = w.push (first ++ second) := by
  simp [push, columnAfter_append]

theorem column_push (w : Written) (text : List Char) :
    (w.push text).column = columnAfter w.column text := rfl

theorem newLine_eq (w : Written) (indent : Nat) :
    w.newLine indent = w.push ('\n' :: List.replicate indent ' ') := by
  have hcolumn : columnAfter w.column ('\n' :: List.replicate indent ' ') = indent := by
    rw [columnAfter, if_pos rfl, columnAfter_spaces, Nat.zero_add]
  rw [newLine, push, hcolumn]
  simp

end Written

theorem characters_replicate (indent : Nat) :
    characters (List.replicate indent .space) = List.replicate indent ' ' := by
  rw [characters, List.map_replicate]
  rfl

/-- The spaces after a line break are not missed once something else follows. -/
theorem writeChildren_skipping {closed : Bool} {indent : Nat} {w : Written} {rest : List Token}
    (h : ∀ t ∈ rest.head?, t.isWhitespace = false) :
    writeChildren closed indent true w rest = writeChildren closed indent false w rest := by
  cases rest with
  | nil => rw [writeChildren, writeChildren]
  | cons t rest =>
    rw [writeChildren, writeChildren, isSpace_of_isWhitespace_false (h t rfl)]
    rfl

/-- **What is written for a gap** depends on the indentation and on what follows. -/
theorem writeChildren_gap {closed : Bool} (indent : Nat) {next : Next} {rest : List Token}
    (h : Follows closed next rest) : ∀ (gap : Gap) (skipping : Bool) (w : Written),
      writeChildren closed indent skipping w (gapTokens gap ++ rest) =
        writeChildren closed indent false (w.push (characters (writeGap indent next skipping gap)))
          rest
  | [], skipping, w => by
    cases skipping with
    | false => rfl
    | true => exact writeChildren_skipping fun t ht => (h.head t ht).1
  | .lineBreak :: gap, skipping, w => by
    have ih := writeChildren_gap indent h gap false (w.newLine indent)
    have hspace : Mark.lineBreak.token.isSpace = false := rfl
    have hnewline : isSourceNewline Mark.lineBreak.token = false := rfl
    have hwrite : write indent w Mark.lineBreak.token = w.newLine indent := rfl
    rw [gapTokens, List.map_cons, List.cons_append, writeChildren, hspace, hnewline,
      Bool.and_false, if_neg Bool.false_ne_true, if_neg Bool.false_ne_true, hwrite, ← gapTokens,
      ih, Written.newLine_eq, Written.push_push, writeGap]
    simp only [characters, List.map_cons, List.map_append, ← characters_replicate]
    rfl
  | .blank c :: gap, skipping, w => by
    have hwrite : write indent w (Mark.blank c).token = w.push [c.1] := rfl
    rw [gapTokens, List.map_cons, List.cons_append, writeChildren, isSpace_markToken, writeGap,
      ← gapTokens, wantsIndent_gap h]
    by_cases hc : c.1 = '\n'
    · have ih := writeChildren_gap indent h gap true
        (w.newLine (if indents next gap then indent else 0))
      have hnewline : isSourceNewline (Mark.blank c).token = true := by
        simp [isSourceNewline, Mark.token, Token.char, Token.plain, hc]
      have hm : (Mark.blank c).isNewline = true := by simp [Mark.isNewline, hc]
      rw [hm, hnewline, if_pos hc, Bool.not_true, Bool.and_false, if_neg Bool.false_ne_true,
        if_pos rfl, ih, Written.newLine_eq, Written.push_push]
      cases indents next gap with
      | false => rfl
      | true =>
        simp only [if_true, characters, List.map_cons, List.map_append, ← characters_replicate]
        rfl
    · have hnewline : isSourceNewline (Mark.blank c).token = false := by
        simp [isSourceNewline, Mark.token, Token.char, Token.plain, hc]
      rw [hnewline, if_neg hc]
      split
      · exact writeChildren_gap indent h gap true w
      · have ih := writeChildren_gap indent h gap false (w.push [c.1])
        rw [if_neg Bool.false_ne_true, hwrite, ih, Written.push_push]
        rfl

/-! ## Forms -/

/-- The text of a form whose gaps are blanks. -/
def Form.text (f : Form (γ × List Blank)) : List Char :=
  (f.lexemes Prod.snd).flatMap Lexeme.spelling

/-- The text of a row whose gaps are blanks. -/
def Row.text (row : Row (γ × List Blank)) : List Char :=
  (row.lexemes Prod.snd).flatMap Lexeme.spelling

open Written (columnAfter)

mutual

/-- Put next to every gap of a form what is written for it when the form starts in a column. -/
def Form.render (get : γ → Gap) (column : Nat) : Form γ → Form (γ × List Blank)
  | .word w => .word w
  | .stray b => .stray b
  | .str raw closed => .str raw closed
  | .comment text => .comment text
  | .group b row closed =>
    .group b (row.render get (.group b closed) (column + 1) (column + 1)) closed
  | .quoted gap form =>
    let blanks := writeGap (column + 1) (Spot.afterQuote true).next false (get gap)
    .quoted (gap, blanks) (form.render get (columnAfter (column + 1) (characters blanks)))
  | .bareQuote gap =>
    .bareQuote (gap, writeGap (column + 1) (Spot.afterQuote false).next false (get gap))

/-- Put next to every gap of a row what is written for it, from some column on. -/
def Row.render (get : γ → Gap) (shell : Shell) (indent column : Nat) :
    Row γ → Row (γ × List Blank)
  | .last gap => .last (gap, writeGap indent shell.next false (get gap))
  | .item gap form rest =>
    let blanks := writeGap indent form.next false (get gap)
    let start := columnAfter column (characters blanks)
    .item (gap, blanks) (form.render get start)
      (rest.render get shell indent (columnAfter start (form.render get start).text))

end

theorem flatMap_spelling_spaces (blanks : List Blank) :
    (spaces blanks).flatMap Lexeme.spelling = characters blanks := by
  induction blanks with
  | nil => rfl
  | cons c rest ih =>
    rw [spaces, List.map_cons, List.flatMap_cons, ← spaces, ih]
    rfl

/-- Writing nodes that are atoms of the source writes their texts. -/
theorem writeVerbatim_atoms (indent : Nat) {ts : List Token}
    (h : ∀ t ∈ ts, ∃ text, t = .plain text) (w : Written) :
    writeVerbatim indent w ts = w.push (ts.flatMap Token.characters) := by
  induction ts generalizing w with
  | nil => rfl
  | cons t rest ih =>
    obtain ⟨text, rfl⟩ := h t List.mem_cons_self
    have hwrite : write indent w (.plain text) = w.push text := rfl
    rw [writeVerbatim, hwrite, ih fun u hu => h u (List.mem_cons_of_mem _ hu), Written.push_push,
      List.flatMap_cons, Token.characters_plain]

/-- **A string or a comment is written** as the characters of its atoms. -/
theorem write_verbatim {kind : Kind} (hk : kind.isVerbatim = true) {ts : List Token}
    (h : ∀ t ∈ ts, ∃ text, t = .plain text) (indent : Nat) (w : Written) :
    write indent w (.aggregate kind ts) = w.push (Token.aggregate kind ts).characters := by
  rw [write, if_pos hk, writeVerbatim_atoms _ h, Token.characters_aggregate]

theorem write_stringToken (raw : List Char) (closed : Bool) (indent : Nat) (w : Written) :
    write indent w (stringToken raw closed) = w.push (Lexeme.str raw closed).spelling := by
  rw [← characters_stringToken]
  exact write_verbatim rfl (plain_of_mem_stringToken rfl) indent w

theorem write_commentToken (text : List Char) (indent : Nat) (w : Written) :
    write indent w (commentToken text) = w.push (Lexeme.comment text).spelling := by
  rw [← characters_commentToken]
  exact write_verbatim rfl (plain_of_mem_commentToken rfl) indent w

/-- A group is written with its opening bracket first, after which its row starts. -/
theorem write_group {b : Bracket} {row : Row Gap} (h : row.Matched (some b)) (closed : Bool)
    (indent : Nat) (w : Written) :
    write indent w (Form.group b row closed).token =
      writeChildren (Shell.group b closed).closes (w.column + 1) false (w.push [b.openChar])
        (row.tokens ++ (Shell.group b closed).closerTokens) := by
  have hwrite : write indent w (Form.group b row closed).token =
      writeChildren (isClosed (.ofBracket b) ((Shell.group b closed).enclose row.tokens))
        (w.column + 1) false w ((Shell.group b closed).enclose row.tokens) := by
    rw [Form.token_group]
    cases b <;> rfl
  have hclosed : isClosed (.ofBracket b) ((Shell.group b closed).enclose row.tokens) =
      (Shell.group b closed).closes :=
    @Shell.isClosed_enclose (.group b closed) _ h
  rw [hwrite, hclosed, Shell.enclose, List.append_assoc]
  cases b <;> rfl

theorem follows_shell (shell : Shell) :
    Follows shell.closes shell.next shell.closerTokens := by
  rcases shell with _ | ⟨b, _ | _⟩
  · exact .nothing
  · exact .nothing
  · exact .closer b rfl

theorem writeChildren_closerTokens (shell : Shell) (indent : Nat) (w : Written) :
    writeChildren shell.closes indent false w shell.closerTokens =
      w.push (shell.closerTokens.flatMap Token.characters) := by
  rcases shell with _ | ⟨_ | _, _ | _⟩ <;> rfl

theorem writeChildren_form (closed : Bool) (indent : Nat) (w : Written) (f : Form Gap)
    (rest : List Token) :
    writeChildren closed indent false w (f.token :: rest) =
      writeChildren closed indent false (write indent w f.token) rest := by
  rw [writeChildren, isSourceNewline_of_isNewline_false (isNewline_form f)]
  rfl

mutual

/-- **A form is written** as the text of the form that it is rendered as. -/
theorem Form.write_token (get : γ → Gap) : ∀ (f : Form γ) (indent : Nat) (w : Written),
    f.Matched → write indent w (f.map get).token = w.push (f.render get w.column).text
  | .word word, indent, w, _ => by simp [Form.map, Form.token, Form.render, Form.text,
      Form.lexemes, Lexeme.spelling, write, Token.plain]
  | .stray b, indent, w, _ => by simp [Form.map, Form.token, Form.render, Form.text,
      Form.lexemes, Lexeme.spelling, write, Token.char, Token.plain]
  | .str raw closed, indent, w, _ => by
    have htext : ((Form.str raw closed).render get w.column).text =
        (Lexeme.str raw closed).spelling := List.append_nil _
    rw [htext]
    exact write_stringToken raw closed indent w
  | .comment text, indent, w, _ => by
    have htext : ((Form.comment text).render get w.column).text =
        (Lexeme.comment text).spelling := List.append_nil _
    rw [htext]
    exact write_commentToken text indent w
  | .group b row closed, indent, w, h => by
    let shell : Shell := .group b closed
    have hcolumn : (w.push [b.openChar]).column = w.column + 1 := by cases b <;> rfl
    -- the row starts behind the opening bracket, in the column of its indentation
    have hrow := Row.write_tokens get row shell (w.column + 1) (w.push [b.openChar]) h
    have hcloser : shell.closerTokens.flatMap Token.characters =
        (if closed then [Lexeme.closing b] else []).flatMap Lexeme.spelling := by
      cases closed <;> cases b <;> rfl
    have htext : ((Form.group b row closed).render get w.column).text =
        [b.openChar] ++ ((row.render get shell (w.column + 1) (w.column + 1)).text ++
          shell.closerTokens.flatMap Token.characters) := by
      rw [hcloser]
      simp [Form.text, Form.render, Form.lexemes, Row.text, Lexeme.spelling, shell]
    rw [hcolumn, Written.push_push] at hrow
    rw [Form.map, write_group ((row.matched_map get (some b)).mpr h), htext, ← hrow]
  | .quoted gap form, indent, w, h => by
    let blanks := writeGap (w.column + 1) (Spot.afterQuote true).next false (get gap)
    let w1 := (w.push [quoteMark]).push (characters blanks)
    have hfollows : Follows false (Spot.afterQuote true).next [(form.map get).token] :=
      .form true false (form.map get) [] fun h => by cases h
    have hgap := writeChildren_gap (w.column + 1) hfollows (get gap) false (w.push [quoteMark])
    have hwrite : write indent w ((Form.quoted gap form).map get).token =
        writeChildren false (w.column + 1) false (w.push [quoteMark])
          (gapTokens (get gap) ++ [(form.map get).token]) := rfl
    -- the form starts in the column where its gap ends
    have hform := Form.write_token get form (w.column + 1) w1 h
    have hcolumn : w1.column = columnAfter (w.column + 1) (characters blanks) := rfl
    have htext : ((Form.quoted gap form).render get w.column).text =
        [quoteMark] ++ (characters blanks ++
          (form.render get (columnAfter (w.column + 1) (characters blanks))).text) := by
      simp [Form.text, Form.render, Form.lexemes, Lexeme.spelling, flatMap_spelling_spaces, blanks]
    rw [hwrite, hgap, writeChildren_form, hform, writeChildren, htext, ← hcolumn,
      ← Written.push_push, ← Written.push_push]
  | .bareQuote gap, indent, w, _ => by
    have hfollows : Follows false (Spot.afterQuote false).next [] := .nothing
    have hgap := writeChildren_gap (w.column + 1) hfollows (get gap) false (w.push [quoteMark])
    have hwrite : write indent w ((Form.bareQuote gap).map get).token =
        writeChildren false (w.column + 1) false (w.push [quoteMark])
          (gapTokens (get gap) ++ []) := by
      rw [List.append_nil]
      rfl
    have htext : ((Form.bareQuote gap).render get w.column).text =
        [quoteMark] ++
          characters (writeGap (w.column + 1) (Spot.afterQuote false).next false (get gap)) := by
      simp [Form.text, Form.render, Form.lexemes, Lexeme.spelling, flatMap_spelling_spaces]
    rw [hwrite, hgap, writeChildren, htext, Written.push_push]

theorem Row.write_tokens (get : γ → Gap) : ∀ (row : Row γ) (shell : Shell) (indent : Nat)
    (w : Written), row.Matched shell.own →
      writeChildren shell.closes indent false w ((row.map get).tokens ++ shell.closerTokens) =
        w.push ((row.render get shell indent w.column).text ++
          shell.closerTokens.flatMap Token.characters)
  | .last gap, shell, indent, w, _ => by
    have hgap := writeChildren_gap indent (follows_shell shell) (get gap) false w
    rw [writeChildren_closerTokens, Written.push_push] at hgap
    rw [Row.map, Row.tokens, hgap, Row.render, Row.text, Row.lexemes, flatMap_spelling_spaces]
  | .item gap form rest, shell, indent, w, h => by
    let blanks := writeGap indent form.next false (get gap)
    let w1 := w.push (characters blanks)
    let w2 := w1.push (form.render get w1.column).text
    have hfollows : Follows shell.closes form.next
        ((form.map get).token :: ((rest.map get).tokens ++ shell.closerTokens)) := by
      refine .form _ _ _ _ fun hc => ?_
      have hne : shell.closerTokens ≠ [] := by
        rcases shell with _ | ⟨b, _ | _⟩
        · cases hc
        · cases hc
        · exact List.cons_ne_nil _ _
      simp [hne]
    have hgap := writeChildren_gap indent hfollows (get gap) false w
    have hform := Form.write_token get form indent w1 h.1
    have hrest := Row.write_tokens get rest shell indent w2 h.2.2
    have htext : ((Row.item gap form rest).render get shell indent w.column).text =
        characters blanks ++ ((form.render get w1.column).text ++
          (rest.render get shell indent w2.column).text) := by
      simp [Row.text, Form.text, Row.render, Row.lexemes, flatMap_spelling_spaces, blanks, w1, w2,
        Written.column_push]
    have hsplit : ((Row.item gap form rest).map get).tokens ++ shell.closerTokens =
        gapTokens (get gap) ++
          (form.map get).token :: ((rest.map get).tokens ++ shell.closerTokens) := by
      simp [Row.map, Row.tokens]
    rw [hsplit, hgap, writeChildren_form, hform, hrest, htext]
    simp only [w2, w1, Written.push_push, List.append_assoc]

end

/-- **The tree of a row is written** as the text of the row that it is rendered as. -/
theorem Row.write_tree (get : γ → Gap) {row : Row γ} (h : row.Matched none) :
    (row.map get).tree.write = String.ofList (row.render get .root 0 0).text := by
  have hrow := row.write_tokens get .root 0 .empty h
  have hwrite : Layout.write 0 .empty (row.map get).tree =
      writeChildren Shell.root.closes 0 false .empty
        ((row.map get).tokens ++ Shell.root.closerTokens) := by
    rw [tree, Shell.closerTokens, List.append_nil]
    rfl
  have hcolumn : Written.empty.column = 0 := rfl
  rw [Token.write, hwrite, hrow, hcolumn]
  simp [Written.text, Written.push, Written.empty, Shell.closerTokens]

/-! ## What rendering does to the gaps -/

mutual

theorem Form.map_fst_render (get : γ → Gap) : ∀ (f : Form γ) (column : Nat),
    (f.render get column).map Prod.fst = f
  | .word _, _ | .stray _, _ | .str .., _ | .comment _, _ | .bareQuote _, _ => rfl
  | .group b row closed, column => by
    rw [Form.render, Form.map, row.map_fst_render get]
  | .quoted gap form, column => by
    simp only [Form.render, Form.map, form.map_fst_render get]

theorem Row.map_fst_render (get : γ → Gap) : ∀ (row : Row γ) (shell : Shell)
    (indent column : Nat), (row.render get shell indent column).map Prod.fst = row
  | .last _, _, _, _ => rfl
  | .item gap form rest, shell, indent, column => by
    simp only [Row.render, Row.map, form.map_fst_render get, rest.map_fst_render get]

end

theorem Form.text_map (φ : γ → δ) (f : Form (γ × List Blank)) :
    (f.map (Prod.map φ id)).text = f.text := by
  rw [text, text, lexemes_map]
  rfl

theorem Row.text_map (φ : γ → δ) (row : Row (γ × List Blank)) :
    (row.map (Prod.map φ id)).text = row.text := by
  rw [text, text, lexemes_map]
  rfl

mutual

theorem Form.render_map (φ : γ → δ) (get : δ → Gap) : ∀ (f : Form γ) (column : Nat),
    (f.map φ).render get column = (f.render (get ∘ φ) column).map (Prod.map φ id)
  | .word _, _ | .stray _, _ | .str .., _ | .comment _, _ | .bareQuote _, _ => rfl
  | .group b row closed, column => by
    rw [Form.map, Form.render, Form.render, Form.map, row.render_map φ get]
  | .quoted gap form, column => by
    simp only [Form.map, Form.render, form.render_map φ get]
    rfl

theorem Row.render_map (φ : γ → δ) (get : δ → Gap) : ∀ (row : Row γ) (shell : Shell)
    (indent column : Nat),
      (row.map φ).render get shell indent column =
        (row.render (get ∘ φ) shell indent column).map (Prod.map φ id)
  | .last _, _, _, _ => rfl
  | .item gap form rest, shell, indent, column => by
    simp only [Row.map, Row.render, Form.next_map, form.render_map φ get, rest.render_map φ get,
      Form.text_map]
    rfl

end

/-- Whether some indentation is one that lines at a place can have. -/
def Spot.Indents (s : Spot) (indent : Nat) : Prop := indent = 0 ↔ s.atRoot = true

theorem Spot.indents_inRow {r : Reach} {next : Next} {indent : Nat} :
    (Spot.inRow r next).Indents indent ↔ (indent = 0 ↔ r.shell = .root) := by
  simp [Indents, atRoot]

theorem Spot.indents_afterQuote (quotes : Bool) (column : Nat) :
    (Spot.afterQuote quotes).Indents (column + 1) := by
  simp [Indents, atRoot]

mutual

/-- What is written for a gap is a matter of its place and some indentation. -/
theorem Form.all_render {spot : γ → Spot} {breaks : γ → Bool} (get : γ → Gap) :
    ∀ (f : Form γ) (isBindings : Bool) (column : Nat), f.Placed spot breaks isBindings →
      (f.render get column).All fun p => ∃ indent, (spot p.1).Indents indent ∧
        p.2 = writeGap indent (spot p.1).next false (get p.1)
  | .word _, _, _, _ | .stray _, _, _, _ | .str .., _, _, _ | .comment _, _, _, _ => trivial
  | .bareQuote gap, _, column, h => by
    have hs : spot gap = .afterQuote false := h
    refine ⟨column + 1, ?_, ?_⟩
    · rw [hs]
      exact Spot.indents_afterQuote false column
    · rw [hs]
  | .group b row closed, isBindings, column, h =>
    row.all_render get (.start (.group b closed) isBindings row) (.group b closed) (column + 1)
      (column + 1) rfl (by simp) h
  | .quoted gap form, _, column, h => by
    obtain ⟨hs, hform⟩ := h
    refine ⟨⟨column + 1, ?_, ?_⟩, form.all_render get false _ hform⟩
    · rw [hs]
      exact Spot.indents_afterQuote true column
    · rw [hs]

theorem Row.all_render {spot : γ → Spot} {breaks : γ → Bool} (get : γ → Gap) :
    ∀ (row : Row γ) (r : Reach) (shell : Shell) (indent column : Nat), r.shell = shell →
      (indent = 0 ↔ shell = .root) → row.Placed spot breaks r →
        (row.render get shell indent column).All fun p => ∃ indent, (spot p.1).Indents indent ∧
          p.2 = writeGap indent (spot p.1).next false (get p.1)
  | .last gap, r, shell, indent, column, hr, hi, h => by
    have hs : spot gap = .inRow r r.shell.next := h
    subst hr
    refine ⟨indent, ?_, ?_⟩
    · rw [hs]
      exact Spot.indents_inRow.mpr hi
    · rw [hs]
      rfl
  | .item gap form rest, r, shell, indent, column, hr, hi, h => by
    obtain ⟨hs, hform, hrest⟩ := h
    refine ⟨⟨indent, ?_, ?_⟩, form.all_render get _ _ hform,
      rest.all_render get (r.after form.isElement (form.spans breaks)) shell indent _ hr hi hrest⟩
    · rw [hs]
      subst hr
      exact Spot.indents_inRow.mpr hi
    · rw [hs]
      rfl

end

mutual

/-- Gaps for which the same is written at every indentation are rendered alike. -/
theorem Form.render_congr {spot : γ → Spot} {breaks : γ → Bool} {get get' : γ → Gap} :
    ∀ (f : Form γ) (isBindings : Bool) (column : Nat), f.Placed spot breaks isBindings →
      (f.All fun gap => ∀ indent, (spot gap).Indents indent →
        writeGap indent (spot gap).next false (get gap) =
          writeGap indent (spot gap).next false (get' gap)) →
        f.render get column = f.render get' column
  | .word _, _, _, _, _ | .stray _, _, _, _, _ | .str .., _, _, _, _ | .comment _, _, _, _, _ => rfl
  | .bareQuote gap, _, column, h, hall => by
    have hs : spot gap = .afterQuote false := h
    have hgap := hall (column + 1)
    rw [hs] at hgap
    rw [Form.render, Form.render, hgap (Spot.indents_afterQuote false column)]
  | .group b row closed, isBindings, column, h, hall => by
    rw [Form.render, Form.render, row.render_congr (.start (.group b closed) isBindings row)
      (.group b closed) (column + 1) (column + 1) rfl (by simp) h hall]
  | .quoted gap form, _, column, h, hall => by
    obtain ⟨hs, hform⟩ := h
    have hgap := hall.1 (column + 1)
    rw [hs] at hgap
    rw [Form.render, Form.render, hgap (Spot.indents_afterQuote true column),
      form.render_congr false _ hform hall.2]

theorem Row.render_congr {spot : γ → Spot} {breaks : γ → Bool} {get get' : γ → Gap} :
    ∀ (row : Row γ) (r : Reach) (shell : Shell) (indent column : Nat), r.shell = shell →
      (indent = 0 ↔ shell = .root) → row.Placed spot breaks r →
        (row.All fun gap => ∀ indent, (spot gap).Indents indent →
          writeGap indent (spot gap).next false (get gap) =
            writeGap indent (spot gap).next false (get' gap)) →
          row.render get shell indent column = row.render get' shell indent column
  | .last gap, r, shell, indent, column, hr, hi, h, hall => by
    have hs : spot gap = .inRow r r.shell.next := h
    subst hr
    have hgap := hall indent
    rw [hs] at hgap
    have hwrite := hgap (Spot.indents_inRow.mpr hi)
    rw [Row.render, Row.render]
    exact congrArg (fun blanks => Row.last (gap, blanks)) hwrite
  | .item gap form rest, r, shell, indent, column, hr, hi, h, hall => by
    obtain ⟨hs, hform, hrest⟩ := h
    obtain ⟨hgap, hallForm, hallRest⟩ := hall
    have hgap := hgap indent
    rw [hs] at hgap
    have hwrite : writeGap indent form.next false (get gap) =
        writeGap indent form.next false (get' gap) := by
      subst hr
      exact hgap (Spot.indents_inRow.mpr hi)
    rw [Row.render, Row.render, hwrite, form.render_congr _ _ hform hallForm,
      rest.render_congr (r.after form.isElement (form.spans breaks)) shell indent _ hr hi hrest
        hallRest]

end

end ExactLisp.Layout
