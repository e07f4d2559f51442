import ExactLisp.Proofs.Layout.Lines

/-!
# Special forms on lines of their own

The passes break the line before the forms of a sequence, the bodies of lambdas and let
forms, all bindings but the first, the branches of a conditional, and comments with two
marks. Whatever else the passes and the writer do, each of these starts a line of the
formatted text, with nothing but spaces before it (`onOwnLine_of_lineStartIn`).

Each rule counts elements of an aggregate or looks at what it starts with. Both are known
at every place of its row, so the first passes mark the gap before the node there, and a
pass that breaks the line at a gap leaves a line break and spaces (`Inside.onOwnLine_form`).
-/

namespace ExactLisp.Layout

open Token (allCharacters)

/-! ## Nodes that start lines -/

/-- Whether the children of a list start with one of some words. -/
def headedBy (heads : List String) (children : List Token) : Bool :=
  (head? .list children).any fun h => heads.contains (String.ofList h)

/-- The places of the children of an aggregate that start lines. -/
inductive LineStart : Kind → List Token → Nat → Prop where
  /-- Every form of a sequence. -/
  | sequence {children : List Token} {i : Nat} : headedBy ["progn"] children = true →
    i ∈ (elements .list children).drop 1 → LineStart .list children i
  /-- Every form after the parameters of a lambda. -/
  | lambda {children : List Token} {i : Nat} : headedBy ["lambda"] children = true →
    i ∈ (elements .list children).drop 2 → LineStart .list children i
  /-- Every body form of a let form. -/
  | body {children : List Token} {i : Nat} : headedBy ["let", "let*"] children = true →
    i ∈ (elements .list children).drop 2 → LineStart .list children i
  /-- The consequent and every alternative of a conditional. -/
  | branch {children : List Token} {i : Nat} : headedBy ["if"] children = true →
    i ∈ (elements .list children).drop 2 → LineStart .list children i
  /-- The closing bracket of a conditional without a consequent. -/
  | closer {children : List Token} : headedBy ["if"] children = true →
    (elements .list children).length = 2 → isClosed .list children = true →
      LineStart .list children (children.length - 1)
  /-- A comment with two marks after other content. -/
  | comment {kind : Kind} {children : List Token} {i : Nat} :
    kind = .root ∨ kind = .list ∨ kind = .array →
      i ∈ innerPlaces kind children isLineComment →
        hasContent children (innerStart kind children) i = true → LineStart kind children i

/-- The nodes of a tree that start lines, each with the characters before it. -/
inductive LineStartIn (t : Token) : List Char → Token → Prop where
  | child {kind : Kind} {children : List Token} {before : List Char} {i : Nat} {c : Token} :
    Occurs (.aggregate kind children) before t → LineStart kind children i →
      children[i]? = some c → LineStartIn t (before ++ allCharacters (children.take i)) c
  /-- Every binding but the first of a let form with a body. -/
  | binding {children bindings : List Token} {before : List Char} {place i : Nat} {c : Token} :
    Occurs (.aggregate .list children) before t → headedBy ["let", "let*"] children = true →
      3 ≤ (elements .list children).length → (elements .list children)[1]? = some place →
        children[place]? = some (.aggregate .list bindings) →
          i ∈ (elements .list bindings).drop 1 → bindings[i]? = some c →
            LineStartIn t (before ++ allCharacters (children.take place) ++
              allCharacters (bindings.take i)) c

/-! ## Where the first passes break the line -/

section
variable {r : Reach}

theorem isSome_mark (r : Reach) (next : Next) :
    (mark r next).isSome = ((Breaker.comments r next []).isSome ||
      ((Breaker.lambdas r next []).isSome || ((Breaker.sequences r next []).isSome ||
        ((Breaker.conditionals r next []).isSome || ((Breaker.letBody r next []).isSome ||
          (Breaker.bindings r next []).isSome))))) := by
  simp only [mark, Option.isSome_or]

theorem mark_sequence (hh : r.isHeaded ["progn"] = true) (hn : 1 ≤ r.seen)
    (isLineComment : Bool) : (mark r (.form true isLineComment)).isSome = true := by
  simp [isSome_mark, Breaker.sequences, Breaker.headed, Breaker.given, Breaker.fromElement,
    Breaker.counting, hh, hn]

theorem mark_lambda (hh : r.isHeaded ["lambda"] = true) (hn : 2 ≤ r.seen)
    (isLineComment : Bool) : (mark r (.form true isLineComment)).isSome = true := by
  simp [isSome_mark, Breaker.lambdas, Breaker.headed, Breaker.given, Breaker.fromElement,
    Breaker.counting, hh, hn]

theorem mark_body (hl : r.isLet = true) (hn : 2 ≤ r.seen) (isLineComment : Bool) :
    (mark r (.form true isLineComment)).isSome = true := by
  simp [isSome_mark, Breaker.letBody, Breaker.given, Breaker.fromElement, Breaker.counting, hl, hn]

theorem mark_binding (hb : r.isBindings = true) (hn : 1 ≤ r.seen) (isLineComment : Bool) :
    (mark r (.form true isLineComment)).isSome = true := by
  simp [isSome_mark, Breaker.bindings, Breaker.given, Breaker.fromElement, Breaker.counting, hb, hn]

theorem mark_branch (hh : r.isHeaded ["if"] = true) (hn : 2 ≤ r.seen) (isLineComment : Bool) :
    (mark r (.form true isLineComment)).isSome = true := by
  have hbranch : (Breaker.conditional r (.form true isLineComment) []).isSome = true := by
    rw [Breaker.conditional, Breaker.counting]
    split
    · rfl
    · rw [if_pos (by omega)]
      rfl
  simp [isSome_mark, Breaker.conditionals, Breaker.headed, Breaker.given, hh, hbranch]

theorem mark_closer (hh : r.isHeaded ["if"] = true) (hn : r.seen = 2) :
    (mark r .closer).isSome = true := by
  simp [isSome_mark, Breaker.conditionals, Breaker.conditional, Breaker.headed, Breaker.given,
    Breaker.counting, hh, hn]

theorem mark_comment (ho : r.opens = false) (isElement : Bool) :
    (mark r (.form isElement true)).isSome = true := by
  simp [isSome_mark, Breaker.comments, ho]

end

/-! ## Children that start lines -/

section
variable {text : String} {whole : Row (List Blank)} {before : List Char} {shell : Shell}
  {isBindings : Bool} {row : Row Laid} {front : List (Laid × Form Laid)}

/-- What the children of a list start with is known at every place of its row. -/
theorem Inside.isHeaded (hi : Inside whole.laid.pieces before shell isBindings row)
    (hk : shell.kind = .list) {heads : List String}
    (hh : headedBy heads (shell.children row) = true) (front : List (Laid × Form Laid)) :
    ((Reach.start shell isBindings row).pass Laid.isLong front).isHeaded heads = true := by
  have hhead := head?_enclose (hi.matched_map Laid.source)
  rw [hk, Row.head?_map] at hhead
  rw [headedBy, Shell.children, hhead] at hh
  have hkind : (shell.kind == .list) = true := beq_iff_eq.mpr hk
  rw [Reach.isHeaded_pass, Reach.isHeaded, Bool.and_eq_true]
  exact ⟨hkind, hh⟩

theorem Inside.length_elements (hi : Inside whole.laid.pieces before shell isBindings row)
    (hk : shell.kind = .list) : (elements .list (shell.children row)).length = row.count := by
  have helements := elements_enclose (hi.matched_map Laid.source)
  rw [hk] at helements
  rw [Shell.children, helements, Row.length_places_isElement, Row.count_map]

/-- A let form with a body is known to be one at every place of its row. -/
theorem Inside.isLet (hi : Inside whole.laid.pieces before shell isBindings row)
    (hk : shell.kind = .list) (hh : headedBy ["let", "let*"] (shell.children row) = true)
    (hlen : 3 ≤ (elements .list (shell.children row)).length) (front : List (Laid × Form Laid)) :
    ((Reach.start shell isBindings row).pass Laid.isLong front).isLet = true := by
  rw [hi.length_elements hk] at hlen
  have hheaded := hi.isHeaded hk hh []
  rw [Reach.isHeaded_pass] at hheaded
  rw [Reach.isLet_pass, Reach.isLet, hheaded, Bool.true_and, decide_eq_true_eq]
  exact hlen

/-- An element before which the line is broken starts a line. -/
theorem Inside.onOwnLine_element (hs : Lexeme.scan .source text = whole.lexemes id)
    (hformat : format text = String.ofList whole.laid.text)
    (hi : Inside whole.laid.pieces before shell isBindings row) (hk : shell.kind = .list)
    {n i : Nat} (hmem : i ∈ (elements .list (shell.children row)).drop n)
    (hmark : ∀ front : List (Laid × Form Laid),
      n ≤ ((Reach.start shell isBindings row).pass Laid.isLong front).seen →
        ∀ isLineComment, (mark ((Reach.start shell isBindings row).pass Laid.isLong front)
          (.form true isLineComment)).isSome = true)
    {c : Token} (hc : (shell.children row)[i]? = some c) :
    OnOwnLine (format text) (before ++ allCharacters ((shell.children row).take i)) c := by
  obtain ⟨m, hm⟩ := List.mem_iff_getElem?.mp hmem
  rw [List.getElem?_drop] at hm
  rw [← hk] at hm
  obtain ⟨front, p, form, rest, hrow, he, hcount, hplace⟩ :=
    hi.exists_behind_element Laid.source hm
  have hseen := (Reach.start shell isBindings row).seen_pass Laid.isLong front
  refine hi.onOwnLine_form hs hformat hrow (breaksLine_of_mark ?_) hplace hc
  rw [Form.next, he]
  exact hmark front (by omega) form.isLineComment

/-- The closing bracket starts a line if the line is broken there. -/
theorem Inside.onOwnLine_closer (hs : Lexeme.scan .source text = whole.lexemes id)
    (hformat : format text = String.ofList whole.laid.text)
    (hi : Inside whole.laid.pieces before shell isBindings row) (hcloses : shell.closes = true)
    (hmark : ∀ front : List (Laid × Form Laid), countElements front = row.count →
      (mark ((Reach.start shell isBindings row).pass Laid.isLong front) .closer).isSome = true)
    {c : Token} (hc : (shell.children row)[(shell.children row).length - 1]? = some c) :
    OnOwnLine (format text) (before ++ allCharacters ((shell.children row).take
      ((shell.children row).length - 1))) c := by
  obtain ⟨front, p, hrow, hcount⟩ := row.exists_behind_last
  obtain ⟨hplaced, hv, -⟩ := hi.of_behind hrow
  have hspot : p.spot = .inRow ((Reach.start shell isBindings row).pass Laid.isLong front)
      shell.next := by
    have hshell := Reach.shell_pass Laid.isLong (Reach.start shell isBindings row) front
    rw [Row.Placed, hshell] at hplaced
    exact hplaced
  have hplace : (shell.children row).length - 1 =
      shell.openerTokens.length + (itemTokens Laid.source front).length + p.source.length := by
    rw [Shell.children, length_enclose_of_closes hcloses, hrow, Row.tokens_behind,
      List.length_append, Row.map, Row.tokens, gapTokens, List.length_map]
    omega
  rcases shell with _ | ⟨b, _ | _⟩
  · cases hcloses
  · cases hcloses
  · have hcloser : (Token.char b.closeChar).characters = (Lexeme.closing b).spelling ++ [] := by
      simp [Lexeme.spelling]
    obtain ⟨n, hblanks⟩ := hv.blanks_of_breaksLine hspot (breaksLine_of_mark (hmark front hcount))
    have hbefore := hi.precededBy hs hformat hrow rfl rfl hv rfl hcloser hplace hc
    rw [hblanks, characters_newline] at hbefore
    exact hbefore.onOwnLine

/-- A comment with two marks after other content starts a line. -/
theorem Inside.onOwnLine_comment (hs : Lexeme.scan .source text = whole.lexemes id)
    (hformat : format text = String.ofList whole.laid.text)
    (hi : Inside whole.laid.pieces before shell isBindings row) {i : Nat}
    (hmem : i ∈ innerPlaces shell.kind (shell.children row) isLineComment)
    (hcontent : hasContent (shell.children row) (innerStart shell.kind (shell.children row)) i =
      true)
    {c : Token} (hc : (shell.children row)[i]? = some c) :
    OnOwnLine (format text) (before ++ allCharacters ((shell.children row).take i)) c := by
  obtain ⟨m, hm⟩ := List.mem_iff_getElem?.mp hmem
  obtain ⟨front, p, form, rest, hrow, hcomment, -, hplace⟩ :=
    hi.exists_behind_form Laid.source isLineComment_of_isWhitespace hm
  have hline : form.isLineComment = true := by
    rw [← hcomment, isLineComment_token]
    cases form <;> rfl
  have hfront : front ≠ [] := by
    rintro rfl
    have hchildren : shell.children row = shell.openerTokens ++ (gapTokens p.source ++
        (form.map Laid.source).token :: ((rest.map Laid.source).tokens ++ shell.closerTokens)) := by
      rw [← tokens_item_append, Shell.children, Shell.enclose, hrow, List.append_assoc]
      rfl
    have hnone := hasContent_append_gap (Nat.le_refl shell.openerTokens.length) p.source
      ((form.map Laid.source).token :: ((rest.map Laid.source).tokens ++ shell.closerTokens))
    have hi0 : i = shell.openerTokens.length + p.source.length := hplace
    rw [← hchildren, List.drop_length, ← hi0] at hnone
    rw [Shell.children, Shell.innerStart_enclose, ← Shell.children, hnone] at hcontent
    cases hcontent
  refine hi.onOwnLine_form hs hformat hrow (breaksLine_of_mark ?_) hplace hc
  rw [Form.next, hline]
  exact mark_comment (Reach.opens_pass _ _ _ hfront) form.isElement

/-- **The children of an aggregate that start lines** do so in the formatted text. -/
theorem Inside.onOwnLine_of_lineStart (hs : Lexeme.scan .source text = whole.lexemes id)
    (hformat : format text = String.ofList whole.laid.text)
    (hi : Inside whole.laid.pieces before shell isBindings row) {kind : Kind}
    (hkind : kind = shell.kind) {i : Nat} (hstart : LineStart kind (shell.children row) i)
    {c : Token} (hc : (shell.children row)[i]? = some c) :
    OnOwnLine (format text) (before ++ allCharacters ((shell.children row).take i)) c := by
  generalize hchildren : shell.children row = children at hstart hc ⊢
  cases hstart with
  | sequence hh hmem =>
    subst hchildren
    have hheaded := hi.isHeaded hkind.symm hh
    exact hi.onOwnLine_element hs hformat hkind.symm hmem
      (fun front hn => mark_sequence (hheaded front) hn) hc
  | lambda hh hmem =>
    subst hchildren
    have hheaded := hi.isHeaded hkind.symm hh
    exact hi.onOwnLine_element hs hformat hkind.symm hmem
      (fun front hn => mark_lambda (hheaded front) hn) hc
  | body hh hmem =>
    subst hchildren
    have hlen := List.length_pos_of_mem hmem
    rw [List.length_drop] at hlen
    have hlet := hi.isLet hkind.symm hh (by omega)
    exact hi.onOwnLine_element hs hformat hkind.symm hmem
      (fun front hn => mark_body (hlet front) hn) hc
  | branch hh hmem =>
    subst hchildren
    have hheaded := hi.isHeaded hkind.symm hh
    exact hi.onOwnLine_element hs hformat hkind.symm hmem
      (fun front hn => mark_branch (hheaded front) hn) hc
  | closer hh hlen hclosed =>
    subst hchildren
    have hheaded := hi.isHeaded hkind.symm hh
    have hcloses := Shell.isClosed_enclose (hi.matched_map Laid.source)
    rw [← hkind] at hcloses
    rw [hi.length_elements hkind.symm] at hlen
    refine hi.onOwnLine_closer hs hformat (hcloses.symm.trans hclosed)
      (fun front hcount => mark_closer (hheaded front) ?_) hc
    rw [Reach.seen_pass, hcount, hlen]
    rfl
  | comment _ hmem hcontent =>
    subst hchildren
    subst hkind
    exact hi.onOwnLine_comment hs hformat hmem hcontent hc

/-- The bindings of a let form with a body are a row that is known to be bindings. -/
theorem Inside.bindings (hi : Inside whole.laid.pieces before shell isBindings row)
    (hk : shell.kind = .list) (hh : headedBy ["let", "let*"] (shell.children row) = true)
    (hlen : 3 ≤ (elements .list (shell.children row)).length) {place : Nat}
    (hplace : (elements .list (shell.children row))[1]? = some place) {bindings : List Token}
    (hb : (shell.children row)[place]? = some (.aggregate .list bindings)) :
    ∃ (closed : Bool) (inner : Row Laid), bindings = (Shell.group .round closed).children inner ∧
      Inside whole.laid.pieces (before ++ allCharacters ((shell.children row).take place))
        (.group .round closed) true inner := by
  rw [← hk] at hplace
  obtain ⟨front, p, form, rest, hrow, -, hcount, hi0⟩ :=
    hi.exists_behind_element Laid.source hplace
  obtain ⟨-, ⟨hv, -⟩, -⟩ := hi.of_behind hrow
  have hat : ((Reach.start shell isBindings row).pass Laid.isLong front).atBindings = true := by
    rw [Reach.atBindings, hi.isLet hk hh hlen front, Reach.seen_pass, hcount]
    rfl
  obtain ⟨hahead, hfollow⟩ := hi.take_drop_children hrow hv (tokens_item_append ..) hi0
  have hstands := hi.stands_form hrow
  rw [hat, sourceText_append, ← hahead] at hstands
  rw [← List.head?_drop, hfollow] at hb
  have hform : (form.map Laid.source).token = .aggregate .list bindings := Option.some.inj hb
  cases form with
  | group b inner closed =>
    rw [Form.map, Form.token_group] at hform
    injection hform with hkind hchildren
    cases b with
    | square => cases hkind
    | round => exact ⟨closed, inner, hchildren.symm, hstands.inside⟩
  | word | stray | str | comment | quoted | bareQuote => cases hform

end

/-! ## The whole tree -/

theorem LineStart.hasRow {kind : Kind} {children : List Token} {i : Nat}
    (h : LineStart kind children i) : kind = .root ∨ kind = .list ∨ kind = .array := by
  cases h with
  | sequence | lambda | body | branch | closer => exact Or.inr (Or.inl rfl)
  | comment hk => exact hk

/--
**Special forms have lines of their own.** In a formatted text every form that is to start
a line does so, with nothing but spaces before it.
-/
theorem onOwnLine_of_lineStartIn {text : String} {t c : Token} {before : List Char}
    (ht : Token.ofText text = .ok t) (h : LineStartIn t before c) :
    OnOwnLine (format text) before c := by
  let whole := Row.ofLexemes (Lexeme.scan .source text)
  have hr : whole.Regular Row.IsEmpty none true := Row.regular_ofLexemes _
  have hs : Lexeme.scan .source text = whole.lexemes id := scan_eq_lexemes_ofLexemes text
  have hm : whole.Matched none := whole.matched_of_regular none true hr
  have hformat := format_eq_laid hr hs
  have htree := Token.ofText_of_scan hr hs
  rw [ht] at htree
  cases hf : whole.fits 0 with
  | false => simp [hf] at htree
  | true =>
    rw [hf, if_pos rfl] at hformat htree
    cases htree
    cases h with
    | child ho hstart hc =>
      obtain ⟨shell, isBindings, row, hi, hkind, rfl⟩ := isRow_of_occurs hm hstart.hasRow ho
      exact hi.onOwnLine_of_lineStart hs hformat hkind hstart hc
    | binding ho hh hlen hplace hb hmem hc =>
      obtain ⟨shell, isBindings, row, hi, hkind, rfl⟩ :=
        isRow_of_occurs hm (Or.inr (Or.inl rfl)) ho
      obtain ⟨closed, inner, rfl, hinner⟩ := hi.bindings hkind.symm hh hlen hplace hb
      refine hinner.onOwnLine_element hs hformat rfl hmem (fun front hn => mark_binding ?_ hn) hc
      rw [Reach.isBindings_pass]
      rfl

/-- The second binding of a let form starts a line. -/
theorem onOwnLine_of_lineStartIn_let :
    ∃ t c, Token.ofText "(let ((x) (y)) x)" = .ok t ∧ c.characters = "(y)".toList ∧
      LineStartIn t "(let ((x) ".toList c ∧
        OnOwnLine (format "(let ((x) (y)) x)") "(let ((x) ".toList c := by
  let list (ts : List Token) : Token := .aggregate .list (.char '(' :: ts ++ [.char ')'])
  let bindings := [list [.plain ['x']], .space, list [.plain ['y']]]
  let form := list [.plain ['l', 'e', 't'], .space, list bindings, .space, .plain ['x']]
  have ht : Token.ofText "(let ((x) (y)) x)" = .ok (.aggregate .root [form]) := rfl
  have hoccurs : Occurs form [] (.aggregate .root [form]) := .inside (.first .here)
  have hstart : LineStartIn (.aggregate .root [form]) "(let ((x) ".toList
      (list [.plain ['y']]) :=
    .binding (i := 3) hoccurs (by decide) (by decide) rfl rfl (by decide) rfl
  exact ⟨_, _, ht, rfl, hstart, onOwnLine_of_lineStartIn ht hstart⟩

end ExactLisp.Layout
