import ExactLisp.Proofs.Layout.Lines

/-!
# After an element on several lines

If an element of a list is written on several lines, the element after it starts a line
(`onOwnLine_of_writtenOnLines`). The last pass breaks the line there, but it looks at the
elements of a list before it has been to the lists in them, so at that time other line
breaks are there than those that are written. That makes no difference: it breaks the line
only in what takes several lines already (`Form.spans_isFinal`), and the writer neither
adds nor drops a line break (`Form.hasNewline_write`).
-/

namespace ExactLisp.Layout

open Token (allCharacters)

variable {γ : Type}

/-! ## Line breaks in what is written -/

theorem hasNewline_append (first second : List Char) :
    hasNewline (first ++ second) = (hasNewline first || hasNewline second) := List.any_append

theorem hasNewline_characters (blanks : List Blank) :
    hasNewline (characters blanks) = endsLine (ofBlanks blanks) := by
  rw [hasNewline, characters, endsLine, ofBlanks, List.any_map, List.any_map]
  rfl

theorem hasNewline_bracket (b : Bracket) :
    hasNewline (Lexeme.opening b).spelling = false ∧
      hasNewline (Lexeme.closing b).spelling = false := by
  cases b <;> exact ⟨rfl, rfl⟩

theorem hasNewline_str (raw : List Char) (closed : Bool) :
    hasNewline (Lexeme.str raw closed).spelling = hasNewline raw := by
  have hspell : (Lexeme.str raw closed).spelling =
      [quotationMark] ++ (raw ++ if closed then [quotationMark] else []) := by
    cases closed <;> simp [Lexeme.spelling]
  have hmark : hasNewline [quotationMark] = false := rfl
  rw [hspell, hasNewline_append, hasNewline_append, hmark, Bool.false_or]
  cases closed with
  | false => exact Bool.or_false _
  | true => exact Bool.or_false _

mutual

/-- The text of a form has a line break in it if the form takes several lines. -/
theorem Form.hasNewline_lexemes (blanks : γ → List Blank) : ∀ f : Form γ,
    hasNewline ((f.lexemes blanks).flatMap Lexeme.spelling) =
      f.spans fun gap => endsLine (ofBlanks (blanks gap))
  | .word w => by
    rw [Form.lexemes, List.flatMap_singleton]
    exact hasNewline_word w
  | .stray b => by
    rw [Form.lexemes, List.flatMap_singleton]
    exact (hasNewline_bracket b).2
  | .str raw closed => by
    rw [Form.lexemes, List.flatMap_singleton]
    exact hasNewline_str raw closed
  | .comment body => by
    rw [Form.lexemes, List.flatMap_singleton]
    rfl
  | .group b row closed => by
    have hrow := row.hasNewline_lexemes blanks
    obtain ⟨hopening, hclosing⟩ := hasNewline_bracket b
    have hcloser : hasNewline ((if closed then [Lexeme.closing b] else []).flatMap
        Lexeme.spelling) = false := by
      cases closed with
      | false => rfl
      | true => simpa using hclosing
    rw [Form.lexemes, List.flatMap_cons, List.flatMap_append, hasNewline_append,
      hasNewline_append, hopening, hcloser, hrow, Bool.false_or, Bool.or_false, Form.spans]
  | .quoted gap form => by
    have hform := form.hasNewline_lexemes blanks
    have hmark : hasNewline Lexeme.quote.spelling = false := rfl
    rw [Form.lexemes, List.flatMap_cons, List.flatMap_append, hasNewline_append,
      hasNewline_append, hmark, flatMap_spelling_spaces, hasNewline_characters, hform,
      Bool.false_or, Form.spans]
  | .bareQuote gap => by
    have hmark : hasNewline Lexeme.quote.spelling = false := rfl
    rw [Form.lexemes, List.flatMap_cons, hasNewline_append, hmark, flatMap_spelling_spaces,
      hasNewline_characters, Bool.false_or, Form.spans]

theorem Row.hasNewline_lexemes (blanks : γ → List Blank) : ∀ row : Row γ,
    hasNewline ((row.lexemes blanks).flatMap Lexeme.spelling) =
      row.spans fun gap => endsLine (ofBlanks (blanks gap))
  | .last gap => by
    rw [Row.lexemes, flatMap_spelling_spaces, hasNewline_characters, Row.spans]
  | .item gap form rest => by
    have hform := form.hasNewline_lexemes blanks
    have hrest := rest.hasNewline_lexemes blanks
    rw [Row.lexemes, List.flatMap_append, List.flatMap_append, hasNewline_append,
      hasNewline_append, flatMap_spelling_spaces, hasNewline_characters, hform, hrest, Row.spans]

end

mutual

/-- Rendering a form keeps the line breaks of its gaps. -/
theorem Form.spans_render (get : γ → Gap) : ∀ (f : Form γ) (column : Nat),
    ((f.render get column).spans fun p => endsLine (ofBlanks p.2)) = f.spans (endsLine ∘ get)
  | .word _, _ | .stray _, _ | .str .., _ | .comment _, _ => rfl
  | .bareQuote _, _ => endsLine_writeGap ..
  | .group b row closed, column => row.spans_render get (.group b closed) (column + 1) (column + 1)
  | .quoted gap form, column => by
    simp only [Form.render, Form.spans, endsLine_writeGap, form.spans_render get]
    rfl

theorem Row.spans_render (get : γ → Gap) : ∀ (row : Row γ) (shell : Shell) (indent column : Nat),
    ((row.render get shell indent column).spans fun p => endsLine (ofBlanks p.2)) =
      row.spans (endsLine ∘ get)
  | .last _, _, _, _ => endsLine_writeGap ..
  | .item gap form rest, shell, indent, column => by
    simp only [Row.render, Row.spans, endsLine_writeGap, form.spans_render get,
      rest.spans_render get]
    rfl

end

theorem Written.push_inj {w : Written} {first second : List Char}
    (h : w.push first = w.push second) : first = second := by
  have hreversed := congrArg Written.reversed h
  exact List.reverse_injective (List.append_cancel_right hreversed)

/-- **What is written for a form** has a line break in it if the form takes several lines. -/
theorem Form.hasNewline_write {get : γ → Gap} {f : Form γ} (hm : f.Matched) {indent : Nat}
    {w : Written} {text : List Char} (hw : write indent w (f.map get).token = w.push text) :
    hasNewline text = f.spans (endsLine ∘ get) := by
  rw [f.write_token get indent w hm] at hw
  rw [← Written.push_inj hw, Form.text, Form.hasNewline_lexemes, Form.spans_render]

/-! ## The element before a place -/

namespace Reach

variable (breaks : γ → Bool)

/-- Comments do not count. -/
theorem afterLong_pass_of_countElements : ∀ (front : List (γ × Form γ)) (r : Reach),
    countElements front = 0 → (r.pass breaks front).afterLong = r.afterLong
  | [], _, _ => rfl
  | p :: front, r, h => by
    rw [countElements, List.countP_cons] at h
    have he : p.2.isElement = false := by
      cases hp : p.2.isElement with
      | false => rfl
      | true => simp [hp] at h
    have hrest := afterLong_pass_of_countElements front (r.after p.2.isElement (p.2.spans breaks))
      (by rw [countElements]; omega)
    refine hrest.trans ?_
    rw [after, he]
    rfl

/-- A place knows of the last element before it whether it takes several lines. -/
theorem afterLong_pass : ∀ (front next : List (γ × Form γ)) (r : Reach) {gap : γ} {form : Form γ}
    {rest tail : Row γ}, Row.behind front (.item gap form rest) = Row.behind next tail →
      form.isElement = true → countElements next = countElements front + 1 →
        (r.pass breaks next).afterLong = form.spans breaks
  | _, [], _, _, _, _, _, _, _, h => by cases h
  | [], q :: next, r, gap, form, rest, tail, hrow, he, h => by
    injection hrow with hgap hform hrest
    subst hgap hform
    rw [countElements, List.countP_cons, he] at h
    have hnone : countElements next = 0 := Nat.add_right_cancel h
    have hlong := afterLong_pass_of_countElements breaks next
      (r.after q.2.isElement (q.2.spans breaks)) hnone
    refine hlong.trans ?_
    rw [after, he]
    rfl
  | p :: front, q :: next, r, gap, form, rest, tail, hrow, he, h => by
    injection hrow with hgap hform hrest
    obtain rfl : p = q := Prod.ext hgap hform
    refine afterLong_pass front next (r.after p.2.isElement (p.2.spans breaks)) hrest he ?_
    rw [countElements, countElements, List.countP_cons, List.countP_cons] at h
    rw [countElements, countElements]
    omega

end Reach

/-! ## Consecutive elements -/

/-- Whether a node is written on several lines at some place of a text. -/
def WrittenOnLines (t : Token) : Prop :=
  ∃ (indent : Nat) (w : Written) (text : List Char),
    write indent w t = w.push text ∧ hasNewline text = true

section
variable {text : String} {whole : Row (List Blank)} {before : List Char} {shell : Shell}
  {isBindings : Bool} {row : Row Laid}

/-- What a form takes in the end tells what the last pass has seen of it. -/
theorem Form.spans_final {f : Form Laid} {isBindings : Bool}
    (hp : f.Placed Laid.spot Laid.isLong isBindings) (hv : f.All Laid.Valid) :
    f.spans (endsLine ∘ Laid.final) = f.spans Laid.isLong := by
  rw [← f.spans_isFinal isBindings hp hv]
  exact f.spans_congr (Form.All.mono (fun _ h => congrArg endsLine h.final_first) f hv)

/-- In a list, the element after one on several lines starts a line. -/
theorem Inside.onOwnLine_after (hs : Lexeme.scan .source text = whole.lexemes id)
    (hformat : format text = String.ofList whole.laid.text)
    (hi : Inside whole.laid.pieces before shell isBindings row) (hk : shell.kind = .list)
    {n i j : Nat} {x y : Token}
    (hn : (elements .list (shell.enclose (row.map Laid.final).tokens))[n]? = some i)
    (hx : (shell.enclose (row.map Laid.final).tokens)[i]? = some x) (hlong : WrittenOnLines x)
    (hm : (elements .list (shell.children row))[n + 1]? = some j)
    (hy : (shell.children row)[j]? = some y) :
    OnOwnLine (format text) (before ++ allCharacters ((shell.children row).take j)) y := by
  rw [← hk] at hn hm
  obtain ⟨front, p, form, rest, hrow, he, hcount, rfl⟩ := hi.exists_behind_element Laid.final hn
  obtain ⟨next, q, other, tail, htail, ho, hnext, hplace⟩ :=
    hi.exists_behind_element Laid.source hm
  obtain ⟨⟨-, hplaced, -⟩, ⟨-, hvalid, -⟩, hmatched, -⟩ := hi.of_behind hrow
  obtain ⟨indent, w, written, hwrite, hnewline⟩ := hlong
  have hform : (form.map Laid.final).token = x := by
    have hget := shell.getElem?_enclose_behind Laid.final front p form rest
    rw [← hrow, hx] at hget
    exact (Option.some.inj hget).symm
  rw [← hform] at hwrite
  have hspans : form.spans Laid.isLong = true := by
    rw [← Form.spans_final hplaced hvalid, ← Form.hasNewline_write hmatched hwrite]
    exact hnewline
  have hafter := Reach.afterLong_pass Laid.isLong front next (.start shell isBindings row)
    (hrow.symm.trans htail) he (by rw [hnext, hcount])
  refine hi.onOwnLine_form hs hformat htail ?_ hplace hy
  rw [Form.next, ho]
  refine breaksLine_of_afterLong ?_ (hafter.trans hspans) _
  rw [Reach.shell_pass]
  exact hk

end

/--
**After an element on several lines the next one starts a line.** Every list of a tree is
there after the passes, by the same path. If its element number `n` is written on several
lines then, the next one starts a line of the formatted text.
-/
theorem onOwnLine_of_writtenOnLines {text : String} {t : Token} {path : List Nat}
    {before : List Char} {children : List Token} (ht : Token.ofText text = .ok t)
    (hpath : locate path t = some (before, .aggregate .list children)) :
    ∃ (others : List Char) (final : List Token),
      locate path (Pass.runAll Pass.standard t) = some (others, .aggregate .list final) ∧
        ∀ (n i j : Nat) (x y : Token),
          (elements .list final)[n]? = some i → final[i]? = some x → WrittenOnLines x →
            (elements .list children)[n + 1]? = some j → children[j]? = some y →
              OnOwnLine (format text) (before ++ allCharacters (children.take j)) y := by
  let whole := Row.ofLexemes (Lexeme.scan .source text)
  have hr : whole.Regular Row.IsEmpty none true := Row.regular_ofLexemes _
  have hs : Lexeme.scan .source text = whole.lexemes id := scan_eq_lexemes_ofLexemes text
  have hformat := format_eq_laid hr hs
  have htree := Token.ofText_of_scan hr hs
  rw [ht] at htree
  cases hf : whole.fits 0 with
  | false => simp [hf] at htree
  | true =>
    rw [hf, if_pos rfl] at hformat htree
    cases htree
    obtain ⟨shell, isBindings, row, others, hi, hkind, rfl, hfinal⟩ :=
      exists_inside_of_locate (whole.matched_of_regular none true hr) (Or.inr (Or.inl rfl)) hpath
    refine ⟨others, _, hfinal, fun n i j x y hn hx hlong hm hy => ?_⟩
    exact hi.onOwnLine_after hs hformat hkind.symm hn hx hlong hm hy

/-- A call of two lines puts the next element on a line of its own. -/
theorem onOwnLine_of_writtenOnLines_call :
    ∃ t y, Token.ofText "((f\n x) y)" = .ok t ∧ y.characters = "y".toList ∧
      OnOwnLine (format "((f\n x) y)") "((f\n x) ".toList y := by
  let list (ts : List Token) : Token := .aggregate .list (.char '(' :: ts ++ [.char ')'])
  let call := list [.plain ['f'], .char '\n', .space, .plain ['x']]
  let outer (gap : Token) := list [call, gap, .plain ['y']]
  have ht : Token.ofText "((f\n x) y)" = .ok (.aggregate .root [outer .space]) := rfl
  have hpath : locate [0] (.aggregate .root [outer .space]) = some ([], outer .space) := rfl
  have hlong : WrittenOnLines call := ⟨0, .empty, "(f\n x)".toList, rfl, rfl⟩
  -- the passes are not evaluated on the tree, but on the row that it is given by
  let word (c : Char) (h : isWordChar .source c = true) : Form Gap :=
    .word ⟨[c], by simp, by simpa using h⟩
  let row (gap : Gap) : Row Gap := .item [] (.group .round (.item [] (.group .round
    (.item [] (word 'f' rfl) (.item [.blank .newline, .space] (word 'x' rfl) (.last []))) true)
    (.item gap (word 'y' rfl) (.last []))) true) (.last [])
  have hmatched : (row [.space]).Matched none := by
    simp [row, word, Row.Matched, Form.Matched, Form.isStray]
  have hedit : ((row [.space]).edit never arranged (.start .root false (row [.space]))).edit
      endsLine Breaker.continuations.rule (.start .root false (row [.space])) =
        row [.lineBreak] := rfl
  have hpasses : Pass.runAll Pass.standard (row [.space]).tree = (row [.lineBreak]).tree := by
    rw [runAll_standard hmatched, hedit]
  obtain ⟨others, final, hfinal, hnext⟩ := onOwnLine_of_writtenOnLines ht hpath
  have hsource : (row [.space]).tree = .aggregate .root [outer .space] := rfl
  rw [← hsource, hpasses] at hfinal
  cases hfinal
  exact ⟨_, _, ht, rfl, hnext 0 1 3 call (.plain ['y']) rfl rfl hlong rfl rfl⟩

end ExactLisp.Layout
