import ExactLisp.Proofs.Layout.Walk

/-!
# The places of forms among the nodes of a row

The passes find their way by places: positions of nodes among the children of an
aggregate. In the children that a row gives, the places of the forms that pass a
test are found by counting through the gaps (`Row.places`), and this is what
`innerPlaces` finds (`innerPlaces_enclose`): the delimiters are what they are taken
for, as no bracket at the end of a row could be mistaken for its closing one.
-/

namespace ExactLisp.Layout

namespace Row

/-- The places of the forms that pass a test, when the row starts at some place. -/
def places (test : Form Gap → Bool) (start : Nat) : Row Gap → List Nat
  | .last _ => []
  | .item gap form rest =>
    (if test form then [start + gap.length] else []) ++
      rest.places test (start + gap.length + 1)

theorem length_places_isElement (start : Nat) (row : Row Gap) :
    (row.places Form.isElement start).length = row.count := by
  cases row with
  | last _ => rfl
  | item gap form rest =>
    have ih := length_places_isElement (start + gap.length + 1) rest
    rw [places, List.length_append, ih, count]
    cases form.isElement <;> rfl

end Row

/-! ## What the delimiters are -/

theorem ne_closeChar_of_isBlank {c : Char} (h : isBlank c = true) (b : Bracket) :
    c ≠ b.closeChar := by
  rintro rfl
  cases b <;> revert h <;> decide

theorem text_ne_closer_of_mem_gapTokens {gap : Gap} {b : Bracket} {text : List Char}
    {lineBreak : Bool} (h : .atom text lineBreak ∈ gapTokens gap) : text ≠ [b.closeChar] := by
  obtain ⟨m, -, hm⟩ := List.mem_map.mp h
  cases m with
  | blank c =>
    obtain ⟨rfl, -⟩ : [c.1] = text ∧ false = lineBreak := by
      simpa [Mark.token, Token.char, Token.plain] using hm
    exact fun he => ne_closeChar_of_isBlank c.2 b (List.head_eq_of_cons_eq he)
  | lineBreak =>
    obtain ⟨rfl, -⟩ : ['\n'] = text ∧ true = lineBreak := by
      simpa [Mark.token, Token.newline] using hm
    cases b <;> decide

/-- A form that is an atom is not the closing bracket, unless it is one that closes nothing. -/
theorem Form.text_ne_closer {f : Form Gap} {b : Bracket} {text : List Char} {lineBreak : Bool}
    (hs : f.isStray b = false) (h : f.token = .atom text lineBreak) : text ≠ [b.closeChar] := by
  cases f with
  | word w =>
    obtain ⟨rfl, -⟩ : w.1 = text ∧ false = lineBreak := by simpa [Form.token, Token.plain] using h
    intro he
    have hc := w.2.2 b.closeChar (by simp [he])
    revert hc
    cases b <;> decide
  | stray c =>
    obtain ⟨rfl, -⟩ : [c.closeChar] = text ∧ false = lineBreak := by
      simpa [Form.token, Token.char, Token.plain] using h
    cases b <;> cases c <;> revert hs <;> decide
  | str | comment | group | quoted | bareQuote => cases h

/-- The last node of a row is not the bracket that would close it. -/
theorem Row.text_ne_closer {b : Bracket} {text : List Char} {lineBreak : Bool} :
    ∀ row : Row Gap, row.Matched (some b) →
      row.tokens.getLast? = some (.atom text lineBreak) → text ≠ [b.closeChar]
  | .last gap, _, h => text_ne_closer_of_mem_gapTokens (List.mem_of_getLast? h)
  | .item gap form rest, hm, h => by
    rw [Row.tokens, List.getLast?_append, List.getLast?_cons] at h
    cases hr : rest.tokens.getLast? with
    | none =>
      rw [hr] at h
      exact form.text_ne_closer (hm.2.1 b rfl) (by simpa using h)
    | some last =>
      rw [hr] at h
      have hlast : some last = some (.atom text lineBreak) := h
      exact rest.text_ne_closer hm.2.2 (hr.trans hlast)

namespace Shell

/-- Whether the closing delimiter is there. -/
def closes : Shell → Bool
  | root => false
  | group _ closed => closed

theorem isClosed_enclose {shell : Shell} {row : Row Gap} (h : row.Matched shell.own) :
    isClosed shell.kind (shell.enclose row.tokens) = shell.closes := by
  cases shell with
  | root => rfl
  | group b closed =>
    have hcloser : (Kind.ofBracket b).closer = some b.closeChar := by cases b <;> rfl
    cases closed with
    | true =>
      have hlast : ((Shell.group b true).enclose row.tokens).getLast? =
          some (.char b.closeChar) := by
        simp [enclose, closerTokens, Layout.closerTokens]
      simp only [isClosed, kind, hcloser, hlast, closes, Token.char, Token.plain]
      simp [enclose, openerTokens, closerTokens, Layout.closerTokens]
    | false =>
      have hchildren : (Shell.group b false).enclose row.tokens =
          .char b.openChar :: row.tokens := by
        simp [enclose, openerTokens, closerTokens, Layout.closerTokens]
      rw [hchildren, isClosed, kind, hcloser, List.getLast?_cons]
      cases hl : row.tokens.getLast? with
      | none =>
        have hnil : row.tokens = [] := List.getLast?_eq_none_iff.mp hl
        simp [hnil, Token.char, Token.plain, closes]
      | some last =>
        cases last with
        | atom text lineBreak =>
          have hne := row.text_ne_closer h hl
          simp [hne, closes]
        | aggregate => rfl

theorem innerStart_enclose (shell : Shell) (ts : List Token) :
    innerStart shell.kind (shell.enclose ts) = shell.openerTokens.length := by
  cases shell with
  | root => rfl
  | group b closed =>
    have ho : (Kind.ofBracket b).hasOpener = true := by cases b <;> rfl
    simp [innerStart, kind, ho, enclose, openerTokens]

theorem innerEnd_enclose {shell : Shell} {row : Row Gap} (h : row.Matched shell.own) :
    innerEnd shell.kind (shell.enclose row.tokens) =
      shell.openerTokens.length + row.tokens.length := by
  rw [innerEnd, isClosed_enclose h, innerStart_enclose]
  cases shell with
  | root => simp [closes, enclose, openerTokens, closerTokens]
  | group b closed =>
    cases closed <;>
      simp [closes, enclose, openerTokens, closerTokens, Layout.closerTokens, Nat.add_comm]

end Shell

/-! ## The places of the forms -/

theorem map_snd_filter_zipIdx_whitespace {test : Token → Bool} {ts : List Token}
    (h : ∀ t ∈ ts, test t = false) (start : Nat) :
    ((ts.zipIdx start).filter fun p => test p.1).map Prod.snd = [] := by
  rw [List.map_eq_nil_iff, List.filter_eq_nil_iff]
  intro p hp
  rw [h p.1 (List.fst_mem_of_mem_zipIdx hp)]
  exact Bool.false_ne_true

theorem Row.places_eq {test : Token → Bool} (hw : ∀ t, t.isWhitespace = true → test t = false) :
    ∀ (row : Row Gap) (start : Nat),
      ((row.tokens.zipIdx start).filter fun p => test p.1).map Prod.snd =
        row.places (fun f => test f.token) start
  | .last gap, start =>
    map_snd_filter_zipIdx_whitespace
      (fun t ht => hw t (isWhitespace_of_mem_gapTokens ht)) start
  | .item gap form rest, start => by
    have hwhite : ∀ t ∈ gapTokens gap, test t = false :=
      fun t ht => hw t (isWhitespace_of_mem_gapTokens ht)
    have hgap := map_snd_filter_zipIdx_whitespace hwhite start
    have hrest := rest.places_eq hw (start + gap.length + 1)
    have hlen : (gapTokens gap).length = gap.length := List.length_map ..
    rw [Row.tokens, List.zipIdx_append, List.filter_append, List.map_append, hgap, hlen,
      List.nil_append, List.zipIdx_cons, List.filter_cons, places, ← hrest]
    dsimp only
    split <;> rfl

/-- What lies between two places that bound the middle of a list is the middle. -/
theorem filter_zipIdx_between (before ts rest : List Token) (test : Token → Bool) :
    ((before ++ ts ++ rest).zipIdx.filter fun p =>
        before.length ≤ p.2 && p.2 < before.length + ts.length && test p.1) =
      (ts.zipIdx before.length).filter fun p => test p.1 := by
  have hbefore : (before.zipIdx.filter fun p =>
      before.length ≤ p.2 && p.2 < before.length + ts.length && test p.1) = [] := by
    rw [List.filter_eq_nil_iff]
    intro p hp
    have hlt : p.2 < before.length := List.snd_lt_of_mem_zipIdx hp
    simp [Nat.not_le.mpr hlt]
  have hrest : ((rest.zipIdx (before ++ ts).length).filter fun p =>
      before.length ≤ p.2 && p.2 < before.length + ts.length && test p.1) = [] := by
    rw [List.filter_eq_nil_iff]
    intro p hp
    have hle := List.le_snd_of_mem_zipIdx hp
    rw [List.length_append] at hle
    simp [Nat.not_lt.mpr hle]
  rw [List.zipIdx_append, List.zipIdx_append, List.filter_append, List.filter_append, hbefore,
    Nat.zero_add, Nat.zero_add, hrest, List.nil_append, List.append_nil]
  refine List.filter_congr fun p hp => ?_
  have h1 := List.le_snd_of_mem_zipIdx hp
  have h2 := List.snd_lt_add_of_mem_zipIdx hp
  simp [h1, h2]

/-- **The places between the delimiters** that pass a test are those of the forms that do. -/
theorem innerPlaces_enclose {shell : Shell} {row : Row Gap} (h : row.Matched shell.own)
    {test : Token → Bool} (hw : ∀ t, t.isWhitespace = true → test t = false) :
    innerPlaces shell.kind (shell.enclose row.tokens) test =
      row.places (fun f => test f.token) shell.openerTokens.length := by
  rw [innerPlaces, Shell.innerEnd_enclose h, Shell.innerStart_enclose, ← row.places_eq hw]
  exact congrArg _ (filter_zipIdx_between ..)

theorem isElement_token (f : Form Gap) : isElement f.token = f.isElement := by
  rw [isElement, isWhitespace_form]
  cases f with
  | group b => cases b <;> rfl
  | word | stray | str | comment | quoted | bareQuote => rfl

theorem isLineComment_token (f : Form Gap) : isLineComment f.token = f.isLineComment := by
  cases f with
  | comment text => cases text <;> rfl
  | group b => cases b <;> rfl
  | word | stray | str | quoted | bareQuote => rfl

theorem isElement_of_isWhitespace (t : Token) (h : t.isWhitespace = true) :
    isElement t = false := by
  simp [isElement, h]

theorem isLineComment_of_isWhitespace (t : Token) (h : t.isWhitespace = true) :
    isLineComment t = false := by
  cases t with
  | atom => rfl
  | aggregate => cases h

theorem elements_enclose {shell : Shell} {row : Row Gap} (h : row.Matched shell.own) :
    elements shell.kind (shell.enclose row.tokens) =
      row.places Form.isElement shell.openerTokens.length := by
  rw [elements, innerPlaces_enclose h isElement_of_isWhitespace]
  exact congrArg (fun test => row.places test _) (funext isElement_token)

theorem lineComments_enclose {shell : Shell} {row : Row Gap} (h : row.Matched shell.own) :
    innerPlaces shell.kind (shell.enclose row.tokens) isLineComment =
      row.places Form.isLineComment shell.openerTokens.length := by
  rw [innerPlaces_enclose h isLineComment_of_isWhitespace]
  exact congrArg (fun test => row.places test _) (funext isLineComment_token)

theorem atomText?_token (f : Form Gap) : f.token.atomText? = f.atomText? := by
  cases f <;> rfl

theorem length_append_gap (before : List Token) (gap : Gap) :
    (before ++ gapTokens gap).length = before.length + gap.length := by
  simp [gapTokens]

theorem length_append_form (before : List Token) (gap : Gap) (form : Form Gap) :
    (before ++ gapTokens gap ++ [form.token]).length = before.length + gap.length + 1 := by
  rw [List.length_append, length_append_gap]
  rfl

/-- A row goes on behind its first form. -/
theorem append_tokens_item (before rest : List Token) (gap : Gap) (form : Form Gap)
    (others : Row Gap) :
    before ++ ((Row.item gap form others).tokens ++ rest) =
      before ++ gapTokens gap ++ [form.token] ++ (others.tokens ++ rest) := by
  simp [Row.tokens]

/-- The node of a form of a row, found by its place. -/
theorem getElem?_form (before rest : List Token) (gap : Gap) (form : Form Gap) :
    (before ++ (gapTokens gap ++ form.token :: rest))[before.length + gap.length]? =
      some form.token := by
  have hlen : (gapTokens gap).length = gap.length := List.length_map ..
  rw [List.getElem?_append_right (Nat.le_add_right ..), Nat.add_sub_cancel_left,
    List.getElem?_append_right (Nat.le_of_eq hlen), hlen, Nat.sub_self]
  rfl

/-- The text of the first element of a row, found by its place. -/
theorem Row.head?_places : ∀ (row : Row Gap) (before rest : List Token),
    ((row.places Form.isElement before.length).head?.bind fun i =>
        ((before ++ (row.tokens ++ rest))[i]?).bind Token.atomText?) = row.head?
  | .last gap, before, rest => rfl
  | .item gap form others, before, rest => by
    rw [places, head?]
    cases hf : form.isElement with
    | true =>
      rw [if_pos rfl, if_pos rfl, List.singleton_append, List.head?_cons, Option.bind_some,
        Row.tokens, List.append_assoc, List.cons_append, getElem?_form, Option.bind_some,
        atomText?_token]
    | false =>
      have ih := others.head?_places (before ++ gapTokens gap ++ [form.token]) rest
      rw [length_append_form, ← append_tokens_item] at ih
      exact ih

theorem head?_enclose {shell : Shell} {row : Row Gap} (h : row.Matched shell.own) :
    Layout.head? shell.kind (shell.enclose row.tokens) = row.head? := by
  rw [Layout.head?, elements_enclose h, Shell.enclose, List.append_assoc]
  exact row.head?_places ..

end ExactLisp.Layout
