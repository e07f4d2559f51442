import ExactLisp.Proofs.Layout.Paths
import ExactLisp.Proofs.Layout.Reindenting

/-!
# What stands before a node in the formatted text

Where a node of the source tree has gone in the formatted text is told by the code before
it: formatting keeps all lexemes but white space, so the same code stands before the node
in both texts. What is written directly before a child of an aggregate is what is written
for a gap of its row (`Inside.precededBy_form`). Where a pass breaks the line that is a
line break and spaces, so the child starts a line (`Inside.onOwnLine_form`).
-/

namespace ExactLisp.Layout

open Token (allCharacters)

/-! ## What stands before a node -/

/-- The lexemes of some characters but for white space. -/
def codeOf (cs : List Char) : List Lexeme :=
  (Lexeme.scan .source (String.ofList cs)).filter fun x => !x.isSpace

/--
Whether some white space stands directly before a node in a formatted text. The place of
the node is the one after the code that stands before it in the source.
-/
def PrecededBy (formatted : String) (before : List Char) (c : Token) (blanks : List Char) : Prop :=
  ∃ (lead rest : List Char) (x : Char),
    formatted.toList = lead ++ (blanks ++ x :: rest) ∧ codeOf lead = codeOf before ∧
      c.characters.head? = some x ∧ isBlank x = false

/--
Whether a node starts a line of a formatted text, with nothing but spaces before it. The
place of the node is the one after the code that stands before it in the source.
-/
def OnOwnLine (formatted : String) (before : List Char) (c : Token) : Prop :=
  ∃ (lead rest : List Char) (n : Nat) (x : Char),
    formatted.toList = lead ++ '\n' :: (List.replicate n ' ' ++ x :: rest) ∧
      codeOf lead = codeOf before ∧ c.characters.head? = some x ∧ isBlank x = false

theorem PrecededBy.onOwnLine {formatted : String} {before : List Char} {c : Token} {n : Nat}
    (h : PrecededBy formatted before c ('\n' :: List.replicate n ' ')) :
    OnOwnLine formatted before c := by
  obtain ⟨lead, rest, x, htext, hcode, hx, hblank⟩ := h
  exact ⟨lead, rest, n, x, htext, hcode, hx, hblank⟩

/-! ## Places among pieces -/

/-- Lexemes at the start of a text are what is read from them alone. -/
theorem codeOf_spelling {xs ys : List Lexeme} (h : Lexeme.Canonical .source (xs ++ ys)) :
    codeOf (xs.flatMap Lexeme.spelling) = xs.filter fun x => !x.isSpace := by
  have hcanonical : Lexeme.Canonical .source xs :=
    ⟨fun x hx => h.spelled x (List.mem_append_left ys hx), h.apart.left_of_append⟩
  rw [codeOf, Lexeme.scan_ofList hcanonical]

/-- What is not white space does not start with white space. -/
theorem exists_spelling_cons {x : Lexeme} (hx : x.WellSpelled .source) (hs : x.isSpace = false) :
    ∃ y ys, x.spelling = y :: ys ∧ isBlank y = false := by
  cases x with
  | space => cases hs
  | word w =>
    obtain ⟨hne, hall⟩ := hx
    cases w with
    | nil => exact absurd rfl hne
    | cons c rest =>
      exact ⟨c, rest, rfl, isBlank_of_mem_word (w := ⟨c :: rest, hne, hall⟩) List.mem_cons_self⟩
  | opening b => cases b <;> exact ⟨_, _, rfl, by decide⟩
  | closing b => cases b <;> exact ⟨_, _, rfl, by decide⟩
  | quote => exact ⟨quoteMark, _, rfl, by decide⟩
  | str => exact ⟨quotationMark, _, rfl, by decide⟩
  | comment => exact ⟨commentMark, _, rfl, by decide⟩

/-- **What stands after a gap** is preceded by what is written for the gap. -/
theorem precededBy_of_standsAt {text : String} {row : Row (List Blank)}
    (hs : Lexeme.scan .source text = row.lexemes id)
    (hformat : format text = String.ofList row.laid.text) {before : List Char} {p : Laid}
    {x : Lexeme} {rest : List Piece}
    (hstands : StandsAt row.laid.pieces before (.inr p :: .inl x :: rest))
    (hx : x.isSpace = false) {c : Token} {more : List Char}
    (hc : c.characters = x.spelling ++ more) :
    PrecededBy (format text) (before ++ sourceText [.inr p]) c (characters p.blanks) := by
  obtain ⟨front, back, hpieces, rfl⟩ := hstands
  let upto : List Piece := front ++ [.inr p]
  let lead := front.flatMap (pieceLexemes Laid.blanks)
  let follow := fun blanks => (rest ++ back).flatMap (pieceLexemes blanks)
  have hcanonical : Lexeme.Canonical .source (row.lexemes id) :=
    hs ▸ Lexeme.canonical_scan .source text
  have hlaid : row.laid.lexemes Laid.blanks =
      lead ++ (spaces p.blanks ++ x :: follow Laid.blanks) := by
    rw [← Row.flatMap_pieces, hpieces]
    simp [pieceLexemes, lead, follow]
  have hsource : row.lexemes id =
      upto.flatMap (pieceLexemes Laid.sourceBlanks) ++ x :: follow Laid.sourceBlanks := by
    have hall : row.laid.lexemes Laid.sourceBlanks = row.lexemes id := Row.lexemes_source_laid row
    rw [← hall, ← Row.flatMap_pieces, hpieces]
    simp [pieceLexemes, upto, follow]
  obtain ⟨y, ys, hys, hblank⟩ : ∃ y ys, x.spelling = y :: ys ∧ isBlank y = false := by
    refine exists_spelling_cons (hcanonical.spelled x ?_) hx
    rw [hsource]
    exact List.mem_append_right _ List.mem_cons_self
  -- the same pieces stand before the node in both texts
  have hcode : codeOf (lead.flatMap Lexeme.spelling) = codeOf (sourceText upto) := by
    have hlead := codeOf_spelling (hlaid ▸ Row.canonical_laid hcanonical)
    have hupto : codeOf (sourceText upto) = _ := codeOf_spelling (hsource ▸ hcanonical)
    have happend : upto.flatMap (pieceLexemes Laid.blanks) = lead ++ spaces p.blanks := by
      simp [pieceLexemes, upto, lead]
    rw [hlead, hupto, filter_pieceLexemes Laid.sourceBlanks Laid.blanks, happend,
      List.filter_append, filter_spaces, List.append_nil]
  refine ⟨lead.flatMap Lexeme.spelling, ys ++ (follow Laid.blanks).flatMap Lexeme.spelling, y,
    ?_, ?_, ?_, hblank⟩
  · have htext : row.laid.text = (row.laid.lexemes Laid.blanks).flatMap Lexeme.spelling := rfl
    rw [hformat, String.toList_ofList, htext, hlaid, List.flatMap_append, List.flatMap_append,
      flatMap_spelling_spaces, List.flatMap_cons, hys]
    rfl
  · rw [hcode, sourceText_append]
  · rw [hc, hys]
    rfl

/-! ## What stands before the children of an aggregate -/

section
variable {text : String} {whole : Row (List Blank)} {before : List Char} {shell : Shell}
  {isBindings : Bool} {row : Row Laid} {front : List (Laid × Form Laid)}

/-- The children before a place after a gap, and those from there on. -/
theorem Inside.take_drop_children (hi : Inside whole.laid.pieces before shell isBindings row)
    {tail : Row Laid} (hrow : row = tail.behind front) {p : Laid} (hv : p.Valid)
    {ts : List Token}
    (htokens : (tail.map Laid.source).tokens ++ shell.closerTokens = gapTokens p.source ++ ts)
    {i : Nat} (hplace : i = shell.openerTokens.length + (itemTokens Laid.source front).length +
      p.source.length) :
    allCharacters ((shell.children row).take i) =
        sourceText (shell.openerPieces ++ itemPieces front) ++ sourceText [.inr p] ∧
      (shell.children row).drop i = ts := by
  let ahead := shell.openerTokens ++ itemTokens Laid.source front ++ gapTokens p.source
  have hvalid := (Row.all_of_behind (hrow ▸ hi.valid)).1
  have hchildren : shell.children row = ahead ++ ts := by
    rw [Shell.children, Shell.enclose, hrow, Row.tokens_behind]
    simp only [ahead, List.append_assoc, htokens]
  have hlen : i = ahead.length := by
    simp [ahead, gapTokens, hplace]
    omega
  rw [hchildren, hlen, List.take_left, List.drop_left]
  refine ⟨?_, rfl⟩
  rw [Token.allCharacters_eq_flatMap, List.flatMap_append, List.flatMap_append,
    shell.characters_openerTokens, characters_itemTokens hvalid, hv.characters_gapTokens,
    sourceText_append]

/-- A child after a gap is preceded by what is written for the gap. -/
theorem Inside.precededBy (hs : Lexeme.scan .source text = whole.lexemes id)
    (hformat : format text = String.ofList whole.laid.text)
    (hi : Inside whole.laid.pieces before shell isBindings row) {tail : Row Laid}
    (hrow : row = tail.behind front) {p : Laid} {x : Lexeme} {follow : List Piece}
    (hpieces : tail.pieces ++ shell.closerPieces = .inr p :: .inl x :: follow) {c : Token}
    {ts : List Token}
    (htokens : (tail.map Laid.source).tokens ++ shell.closerTokens = gapTokens p.source ++ c :: ts)
    (hv : p.Valid) (hx : x.isSpace = false) {more : List Char}
    (hc : c.characters = x.spelling ++ more) {i : Nat}
    (hplace : i = shell.openerTokens.length + (itemTokens Laid.source front).length +
      p.source.length) {d : Token} (hd : (shell.children row)[i]? = some d) :
    PrecededBy (format text) (before ++ allCharacters ((shell.children row).take i)) d
      (characters p.blanks) := by
  obtain ⟨hahead, hfollow⟩ := hi.take_drop_children hrow hv htokens hplace
  have hstands := hi.stands_behind hrow
  rw [hpieces, ← List.append_assoc] at hstands
  have hbefore := precededBy_of_standsAt hs hformat (hstands.right _ _) hx hc
  rw [← List.head?_drop, hfollow] at hd
  cases hd
  rwa [hahead, ← List.append_assoc]

/-- The node of a form that stands behind some others, found by its place. -/
theorem Shell.getElem?_enclose_behind (shell : Shell) (get : Laid → Gap)
    (front : List (Laid × Form Laid)) (p : Laid) (form : Form Laid) (rest : Row Laid) :
    (shell.enclose ((Row.behind front (.item p form rest)).map get).tokens)[
        shell.openerTokens.length + (itemTokens get front).length + (get p).length]? =
      some (form.map get).token := by
  have hget := getElem?_form (shell.openerTokens ++ itemTokens get front)
    ((rest.map get).tokens ++ shell.closerTokens) (get p) (form.map get)
  rw [List.length_append] at hget
  rw [← hget, Shell.enclose, Row.tokens_behind]
  simp [Row.map, Row.tokens]

theorem tokens_item_append (p : Laid) (form : Form Laid) (rest : Row Laid) (ts : List Token) :
    ((Row.item p form rest).map Laid.source).tokens ++ ts =
      gapTokens p.source ++ (form.map Laid.source).token ::
        ((rest.map Laid.source).tokens ++ ts) := by
  simp [Row.map, Row.tokens]

/-- A form is preceded by what is written for the gap before it. -/
theorem Inside.precededBy_form (hs : Lexeme.scan .source text = whole.lexemes id)
    (hformat : format text = String.ofList whole.laid.text)
    (hi : Inside whole.laid.pieces before shell isBindings row) {p : Laid} {form : Form Laid}
    {rest : Row Laid} (hrow : row = Row.behind front (.item p form rest)) {i : Nat}
    (hplace : i = shell.openerTokens.length + (itemTokens Laid.source front).length +
      p.source.length) {c : Token} (hc : (shell.children row)[i]? = some c) :
    PrecededBy (format text) (before ++ allCharacters ((shell.children row).take i)) c
      (characters p.blanks) := by
  obtain ⟨x, pieces, hform, hx⟩ := form.exists_pieces_cons
  obtain ⟨-, ⟨hv, hvForm, -⟩, -⟩ := hi.of_behind hrow
  have htoken : (form.map Laid.source).token.characters = x.spelling ++ sourceText pieces := by
    rw [form.characters_token hvForm, hform, sourceText_lexeme]
  have hpieces : (Row.item p form rest).pieces ++ shell.closerPieces =
      .inr p :: .inl x :: (pieces ++ (rest.pieces ++ shell.closerPieces)) := by
    simp [Row.pieces, hform]
  exact hi.precededBy hs hformat hrow hpieces (tokens_item_append ..) hv hx htoken hplace hc

theorem Inside.matched_map (hi : Inside whole.laid.pieces before shell isBindings row)
    (get : Laid → Gap) : (row.map get).Matched shell.own :=
  (row.matched_map get shell.own).mpr hi.matched

/-- A child that passes a test is a form of the row, in the source and after passes. -/
theorem Inside.exists_behind_form (hi : Inside whole.laid.pieces before shell isBindings row)
    (get : Laid → Gap) {test : Token → Bool} (hw : ∀ t, t.isWhitespace = true → test t = false)
    {n i : Nat}
    (hn : (innerPlaces shell.kind (shell.enclose (row.map get).tokens) test)[n]? = some i) :
    ∃ front p form rest, row = Row.behind front (.item p form rest) ∧
      test (form.map get).token = true ∧
        n = front.countP (fun q => test (q.2.map get).token) ∧
          i = shell.openerTokens.length + (itemTokens get front).length + (get p).length := by
  rw [innerPlaces_enclose (hi.matched_map get) hw] at hn
  exact Row.exists_behind_form get (fun f => test f.token) row _ _ _ hn

/-- An element of an aggregate is a form of its row. -/
theorem Inside.exists_behind_element (hi : Inside whole.laid.pieces before shell isBindings row)
    (get : Laid → Gap) {n i : Nat}
    (hn : (elements shell.kind (shell.enclose (row.map get).tokens))[n]? = some i) :
    ∃ front p form rest, row = Row.behind front (.item p form rest) ∧
      form.isElement = true ∧ countElements front = n ∧
        i = shell.openerTokens.length + (itemTokens get front).length + (get p).length := by
  obtain ⟨front, p, form, rest, hrow, he, hcount, hplace⟩ :=
    hi.exists_behind_form get isElement_of_isWhitespace hn
  simp only [isElement_token, Form.isElement_map] at he hcount
  exact ⟨front, p, form, rest, hrow, he, hcount.symm, hplace⟩

end

/-! ## Lines that are broken -/

/-- Whether the passes break the line at a place. -/
def breaksLine (r : Reach) (next : Next) : Bool :=
  ((mark r next).or (Breaker.continuations r next [])).isSome

theorem breaksLine_of_mark {r : Reach} {next : Next} (h : (mark r next).isSome = true) :
    breaksLine r next = true := by
  rw [breaksLine, Option.isSome_or, h, Bool.true_or]

/-- After an element that takes several lines the line is broken before the next one. -/
theorem breaksLine_of_afterLong {r : Reach} (hk : r.shell.kind = .list) (hl : r.afterLong = true)
    (isLineComment : Bool) : breaksLine r (.form true isLineComment) = true := by
  rw [breaksLine, Option.isSome_or, Bool.or_eq_true]
  right
  simp [Breaker.continuations, hk, hl]

theorem writeGap_broken (indent : Nat) (next : Next) (extra : Nat) :
    writeGap indent next false (broken extra) =
      .newline :: List.replicate (indent + extra) .space := by
  have hspaces : writeGap indent next false (ofBlanks (List.replicate extra .space)) =
      List.replicate extra .space := by
    refine writeGap_within_line indent next fun c hc => ?_
    rw [List.eq_of_mem_replicate hc]
    decide
  have hbroken : broken extra = .lineBreak :: ofBlanks (List.replicate extra .space) := by
    rw [ofBlanks, List.map_replicate]
    rfl
  rw [hbroken, writeGap, hspaces, List.replicate_append_replicate]

/-- Where a pass breaks the line, a line break and spaces are written. -/
theorem Laid.Valid.blanks_of_breaksLine {p : Laid} (hv : p.Valid) {r : Reach} {next : Next}
    (hs : p.spot = .inRow r next) (hb : breaksLine r next = true) :
    ∃ n, p.blanks = .newline :: List.replicate n .space := by
  obtain ⟨indent, -, hwritten⟩ := hv.blanks
  obtain ⟨extra, hextra⟩ := Option.isSome_iff_exists.mp hb
  refine ⟨indent + extra, ?_⟩
  rw [hwritten, written, hs, finished_inRow hv.plain, hextra]
  exact writeGap_broken indent next extra

theorem characters_newline (n : Nat) :
    characters (.newline :: List.replicate n .space) = '\n' :: List.replicate n ' ' := by
  rw [characters, List.map_cons, List.map_replicate]
  rfl

section
variable {text : String} {whole : Row (List Blank)} {before : List Char} {shell : Shell}
  {isBindings : Bool} {row : Row Laid} {front : List (Laid × Form Laid)}

/-- A form before which the line is broken starts a line. -/
theorem Inside.onOwnLine_form (hs : Lexeme.scan .source text = whole.lexemes id)
    (hformat : format text = String.ofList whole.laid.text)
    (hi : Inside whole.laid.pieces before shell isBindings row) {p : Laid} {form : Form Laid}
    {rest : Row Laid} (hrow : row = Row.behind front (.item p form rest))
    (hb : breaksLine ((Reach.start shell isBindings row).pass Laid.isLong front) form.next = true)
    {i : Nat} (hplace : i = shell.openerTokens.length + (itemTokens Laid.source front).length +
      p.source.length) {c : Token} (hc : (shell.children row)[i]? = some c) :
    OnOwnLine (format text) (before ++ allCharacters ((shell.children row).take i)) c := by
  obtain ⟨hplaced, ⟨hv, -⟩, -⟩ := hi.of_behind hrow
  obtain ⟨n, hblanks⟩ := hv.blanks_of_breaksLine hplaced.1 hb
  have hbefore := hi.precededBy_form hs hformat hrow hplace hc
  rw [hblanks, characters_newline] at hbefore
  exact hbefore.onOwnLine

end

end ExactLisp.Layout
