import ExactLisp.Proofs.Layout.Kept

/-!
# Places in a row

To say where in a text something stands, a row is taken apart: into its pieces, lexemes
and gaps in order (`Row.pieces`), and at one of its gaps (`Row.behind`). What stands
before a gap is then the same list of pieces in the source and in what is written, with
other blanks. Places among the nodes of an aggregate are gaps of its row
(`Row.exists_behind_form`, `Row.exists_behind_last`).
-/

namespace ExactLisp.Layout

variable {γ δ : Type}

/-! ## Pieces -/

mutual

/-- A form as lexemes and gaps. -/
def Form.pieces : Form γ → List (Lexeme ⊕ γ)
  | .word w => [.inl (.word w.1)]
  | .stray b => [.inl (.closing b)]
  | .str raw closed => [.inl (.str raw closed)]
  | .comment text => [.inl (.comment text)]
  | .group b row closed =>
    .inl (.opening b) :: (row.pieces ++ if closed then [.inl (.closing b)] else [])
  | .quoted gap form => .inl .quote :: .inr gap :: form.pieces
  | .bareQuote gap => [.inl .quote, .inr gap]

/-- A row as lexemes and gaps. -/
def Row.pieces : Row γ → List (Lexeme ⊕ γ)
  | .last gap => [.inr gap]
  | .item gap form rest => .inr gap :: (form.pieces ++ rest.pieces)

end

/-- The lexemes of a piece, when gaps are taken as blanks. -/
def pieceLexemes (blanks : γ → List Blank) : Lexeme ⊕ γ → List Lexeme
  | .inl x => [x]
  | .inr gap => spaces (blanks gap)

mutual

theorem Form.flatMap_pieces (blanks : γ → List Blank) : ∀ f : Form γ,
    f.pieces.flatMap (pieceLexemes blanks) = f.lexemes blanks
  | .word _ | .stray _ | .str .. | .comment _ => rfl
  | .group b row closed => by
    have hrow := row.flatMap_pieces blanks
    cases closed <;> simp [Form.pieces, Form.lexemes, pieceLexemes, hrow]
  | .quoted gap form => by
    have hform := form.flatMap_pieces blanks
    simp [Form.pieces, Form.lexemes, pieceLexemes, hform]
  | .bareQuote gap => by simp [Form.pieces, Form.lexemes, pieceLexemes]

theorem Row.flatMap_pieces (blanks : γ → List Blank) : ∀ row : Row γ,
    row.pieces.flatMap (pieceLexemes blanks) = row.lexemes blanks
  | .last gap => by simp [Row.pieces, Row.lexemes, pieceLexemes]
  | .item gap form rest => by
    have hform := form.flatMap_pieces blanks
    have hrest := rest.flatMap_pieces blanks
    simp [Row.pieces, Row.lexemes, pieceLexemes, hform, hrest]

end

/-- Pieces stand for the same code whatever the blanks are. -/
theorem filter_pieceLexemes (first second : γ → List Blank) (pieces : List (Lexeme ⊕ γ)) :
    (pieces.flatMap (pieceLexemes first)).filter (fun x => !x.isSpace) =
      (pieces.flatMap (pieceLexemes second)).filter fun x => !x.isSpace := by
  rw [List.filter_flatMap, List.filter_flatMap]
  refine congrArg pieces.flatMap (funext fun piece => ?_)
  cases piece with
  | inl => rfl
  | inr gap => exact (filter_spaces _).trans (filter_spaces _).symm

theorem Form.exists_pieces_cons (f : Form γ) :
    ∃ x rest, f.pieces = .inl x :: rest ∧ x.isSpace = false := by
  cases f <;> exact ⟨_, _, rfl, rfl⟩

/-! ## Rows taken apart -/

/-- A row with some gaps and forms before it. -/
def Row.behind (front : List (γ × Form γ)) (rest : Row γ) : Row γ :=
  front.foldr (fun p row => .item p.1 p.2 row) rest

/-- The pieces of some gaps and forms. -/
def itemPieces (front : List (γ × Form γ)) : List (Lexeme ⊕ γ) :=
  front.flatMap fun p => .inr p.1 :: p.2.pieces

/-- The nodes of some gaps and forms. -/
def itemTokens (get : γ → Gap) (front : List (γ × Form γ)) : List Token :=
  front.flatMap fun p => gapTokens (get p.1) ++ [(p.2.map get).token]

/-- The place after some gaps and forms. -/
def Reach.pass (breaks : γ → Bool) (r : Reach) (front : List (γ × Form γ)) : Reach :=
  front.foldl (fun r p => r.after p.2.isElement (p.2.spans breaks)) r

/-- The number of elements among some gaps and forms. -/
def countElements (front : List (γ × Form γ)) : Nat := front.countP fun p => p.2.isElement

namespace Row

variable (front : List (γ × Form γ)) (rest : Row γ)

theorem pieces_behind : (rest.behind front).pieces = itemPieces front ++ rest.pieces := by
  induction front with
  | nil => rfl
  | cons p front ih =>
    have hcons : (rest.behind (p :: front)).pieces =
        .inr p.1 :: (p.2.pieces ++ (rest.behind front).pieces) := rfl
    rw [hcons, ih]
    simp [itemPieces]

theorem tokens_behind (get : γ → Gap) :
    ((rest.behind front).map get).tokens = itemTokens get front ++ (rest.map get).tokens := by
  induction front with
  | nil => rfl
  | cons p front ih =>
    have hcons : ((rest.behind (p :: front)).map get).tokens =
        gapTokens (get p.1) ++ (p.2.map get).token :: ((rest.behind front).map get).tokens := rfl
    rw [hcons, ih]
    simp [itemTokens]

variable {front rest}

theorem placed_of_behind {spot : γ → Spot} {breaks : γ → Bool} {r : Reach}
    (h : (rest.behind front).Placed spot breaks r) :
    rest.Placed spot breaks (r.pass breaks front) := by
  induction front generalizing r with
  | nil => exact h
  | cons p front ih => exact ih h.2.2

theorem all_of_behind {P : γ → Prop} (h : (rest.behind front).All P) :
    (∀ p ∈ front, P p.1 ∧ p.2.All P) ∧ rest.All P := by
  induction front with
  | nil => exact ⟨List.forall_mem_nil _, h⟩
  | cons p front ih =>
    obtain ⟨hgap, hform, hrest⟩ := h
    obtain ⟨hfront, hrest⟩ := ih hrest
    exact ⟨List.forall_mem_cons.mpr ⟨⟨hgap, hform⟩, hfront⟩, hrest⟩

theorem matched_of_behind {own : Option Bracket} (h : (rest.behind front).Matched own) :
    rest.Matched own := by
  induction front with
  | nil => exact h
  | cons p front ih => exact ih h.2.2

/-- The place of a form among the nodes of a row is that of a gap. -/
theorem exists_behind_form (get : γ → Gap) (test : Form Gap → Bool) :
    ∀ (row : Row γ) (start n i : Nat), ((row.map get).places test start)[n]? = some i →
      ∃ front gap form rest, row = behind front (.item gap form rest) ∧
        test (form.map get) = true ∧ n = front.countP (fun p => test (p.2.map get)) ∧
          i = start + (itemTokens get front).length + (get gap).length
  | .last _, _, _, _, h => by cases h
  | .item gap form rest, start, n, i, h => by
    have hlen : (itemTokens get [(gap, form)]).length = (get gap).length + 1 := by
      simp [itemTokens, gapTokens]
    -- a place further on is found in the rest, behind this form
    have hlater : ∀ n, ((rest.map get).places test (start + (get gap).length + 1))[n]? = some i →
        ∃ front p f others, Row.item gap form rest = behind ((gap, form) :: front)
            (.item p f others) ∧ test (f.map get) = true ∧
          n = front.countP (fun p => test (p.2.map get)) ∧
            i = start + (itemTokens get ((gap, form) :: front)).length + (get p).length := by
      intro n hn
      obtain ⟨front, p, f, others, hrest, hf, hcount, hi⟩ :=
        exists_behind_form get test rest _ n i hn
      refine ⟨front, p, f, others, by rw [hrest]; rfl, hf, hcount, ?_⟩
      have happend : itemTokens get ((gap, form) :: front) =
          itemTokens get [(gap, form)] ++ itemTokens get front := by simp [itemTokens]
      rw [hi, happend, List.length_append, hlen]
      omega
    rw [map, places] at h
    cases htest : test (form.map get) with
    | false =>
      rw [htest] at h
      obtain ⟨front, p, f, others, hrow, hf, hcount, hi⟩ := hlater n h
      refine ⟨(gap, form) :: front, p, f, others, hrow, hf, ?_, hi⟩
      rw [hcount, List.countP_cons_of_neg (by simp [htest])]
    | true =>
      rw [htest, if_pos rfl, List.singleton_append] at h
      cases n with
      | zero => exact ⟨[], gap, form, rest, rfl, htest, rfl, (Option.some.inj h).symm⟩
      | succ n =>
        obtain ⟨front, p, f, others, hrow, hf, hcount, hi⟩ := hlater n h
        refine ⟨(gap, form) :: front, p, f, others, hrow, hf, ?_, hi⟩
        rw [hcount, List.countP_cons_of_pos (by simp [htest])]

/-- Every row ends with a gap. -/
theorem exists_behind_last : ∀ row : Row γ,
    ∃ front gap, row = behind front (.last gap) ∧ countElements front = row.count
  | .last gap => ⟨[], gap, rfl, rfl⟩
  | .item gap form rest => by
    obtain ⟨front, p, hrest, hcount⟩ := exists_behind_last rest
    refine ⟨(gap, form) :: front, p, by rw [hrest]; rfl, ?_⟩
    rw [count, ← hcount, countElements, countElements, List.countP_cons, Nat.add_comm]
    cases form.isElement <;> rfl

end Row

namespace Reach

variable (breaks : γ → Bool) (r : Reach) (front : List (γ × Form γ))

theorem shell_pass : (r.pass breaks front).shell = r.shell := by
  induction front generalizing r with
  | nil => rfl
  | cons p front ih => exact ih _

theorem isHeaded_pass (heads : List String) :
    (r.pass breaks front).isHeaded heads = r.isHeaded heads := by
  induction front generalizing r with
  | nil => rfl
  | cons p front ih => exact ih _

theorem isLet_pass : (r.pass breaks front).isLet = r.isLet := by
  induction front generalizing r with
  | nil => rfl
  | cons p front ih => exact ih _

theorem isBindings_pass : (r.pass breaks front).isBindings = r.isBindings := by
  induction front generalizing r with
  | nil => rfl
  | cons p front ih => exact ih _

theorem seen_pass : (r.pass breaks front).seen = r.seen + countElements front := by
  induction front generalizing r with
  | nil => rfl
  | cons p front ih =>
    have hcons : (r.pass breaks (p :: front)).seen =
        ((r.after p.2.isElement (p.2.spans breaks)).pass breaks front).seen := rfl
    rw [hcons, ih, countElements, countElements, List.countP_cons]
    show r.seen + p.2.isElement.toNat + _ = _
    cases p.2.isElement with
    | true =>
      simp only [Bool.toNat_true, if_true]
      omega
    | false =>
      simp only [Bool.toNat_false]
      rfl

/-- Where some form has been passed, the row is not at its start. -/
theorem opens_pass (h : front ≠ []) : (r.pass breaks front).opens = false := by
  have hstays : ∀ (front : List (γ × Form γ)) (r : Reach), r.opens = false →
      (r.pass breaks front).opens = false := by
    intro front
    induction front with
    | nil => exact fun _ h => h
    | cons p front ih => exact fun r _ => ih _ rfl
  cases front with
  | nil => exact absurd rfl h
  | cons p front => exact hstays front _ rfl

end Reach

/-! ## The characters of the source -/

/-- A lexeme, or a gap of a laid out row. -/
abbrev Piece := Lexeme ⊕ Laid

/-- The blanks of the source for a gap. -/
def Laid.sourceBlanks (p : Laid) : List Blank := blanksOf p.source

/-- The characters of the source that some pieces were read from. -/
def sourceText (pieces : List Piece) : List Char :=
  (pieces.flatMap (pieceLexemes Laid.sourceBlanks)).flatMap Lexeme.spelling

theorem sourceText_append (first second : List Piece) :
    sourceText (first ++ second) = sourceText first ++ sourceText second := by
  rw [sourceText, List.flatMap_append, List.flatMap_append]
  rfl

theorem sourceText_lexeme (x : Lexeme) (pieces : List Piece) :
    sourceText (.inl x :: pieces) = x.spelling ++ sourceText pieces := rfl

theorem Laid.Valid.characters_gapTokens {p : Laid} (hv : p.Valid) :
    (gapTokens p.source).flatMap Token.characters = sourceText [.inr p] := by
  obtain ⟨blanks, hb⟩ := hv.source
  have hgap : ∀ blanks : List Blank,
      (gapTokens (ofBlanks blanks)).flatMap Token.characters = characters blanks := by
    intro blanks
    induction blanks with
    | nil => rfl
    | cons c rest ih => exact congrArg (c.1 :: ·) ih
  have htext : sourceText [.inr p] = (spaces p.sourceBlanks ++ []).flatMap Lexeme.spelling := rfl
  rw [htext, List.append_nil, flatMap_spelling_spaces, sourceBlanks, hb, hgap, blanksOf_ofBlanks]

mutual

theorem Form.characters_token : ∀ f : Form Laid, f.All Laid.Valid →
    (f.map Laid.source).token.characters = sourceText f.pieces
  | .word w, _ => by simp [Form.map, Form.token, Form.pieces, sourceText, pieceLexemes,
      Lexeme.spelling]
  | .stray b, _ => by simp [Form.map, Form.token, Form.pieces, sourceText, pieceLexemes,
      Lexeme.spelling]
  | .str raw closed, _ => by
    rw [Form.map, Form.token, characters_stringToken]
    exact (List.append_nil _).symm
  | .comment text, _ => by
    rw [Form.map, Form.token, characters_commentToken]
    exact (List.append_nil _).symm
  | .group b row closed, hv => by
    have hrow := row.characters_tokens hv
    have hcloser : (closerTokens b closed).flatMap Token.characters =
        sourceText (if closed then [.inl (.closing b)] else []) := by
      cases closed <;> simp [closerTokens, sourceText, pieceLexemes, Lexeme.spelling]
    rw [Form.map, Form.token, Form.pieces, sourceText_lexeme, sourceText_append,
      Token.characters_aggregate, List.flatMap_cons, List.flatMap_append, hrow, hcloser,
      Token.characters_char]
    rfl
  | .quoted p form, hv => by
    have hform := form.characters_token hv.2
    have happend : sourceText (.inl .quote :: .inr p :: form.pieces) =
        [quoteMark] ++ (sourceText [.inr p] ++ sourceText form.pieces) := by
      rw [← sourceText_append]
      rfl
    rw [Form.map, Form.token, Form.pieces, happend, Token.characters_aggregate, List.flatMap_cons,
      List.flatMap_append, hv.1.characters_gapTokens, List.flatMap_singleton, hform,
      Token.characters_char]
  | .bareQuote p, hv => by
    have hgap := Laid.Valid.characters_gapTokens hv
    rw [Form.map, Form.token, Form.pieces, sourceText_lexeme, Token.characters_aggregate,
      List.flatMap_cons, hgap, Token.characters_char]
    rfl

theorem Row.characters_tokens : ∀ row : Row Laid, row.All Laid.Valid →
    (row.map Laid.source).tokens.flatMap Token.characters = sourceText row.pieces
  | .last _, hv => Laid.Valid.characters_gapTokens hv
  | .item p form rest, hv => by
    have hform := form.characters_token hv.2.1
    have hrest := rest.characters_tokens hv.2.2
    have happend : sourceText (.inr p :: (form.pieces ++ rest.pieces)) =
        sourceText [.inr p] ++ (sourceText form.pieces ++ sourceText rest.pieces) := by
      rw [← sourceText_append, ← sourceText_append]
      rfl
    rw [Row.map, Row.tokens, Row.pieces, happend, List.flatMap_append, List.flatMap_cons,
      hv.1.characters_gapTokens, hform, hrest]

end

theorem characters_itemTokens {front : List (Laid × Form Laid)}
    (hv : ∀ p ∈ front, p.1.Valid ∧ p.2.All Laid.Valid) :
    (itemTokens Laid.source front).flatMap Token.characters = sourceText (itemPieces front) := by
  induction front with
  | nil => rfl
  | cons p front ih =>
    obtain ⟨⟨hgap, hform⟩, hfront⟩ := List.forall_mem_cons.mp hv
    have htokens : itemTokens Laid.source (p :: front) =
        gapTokens p.1.source ++ (p.2.map Laid.source).token :: itemTokens Laid.source front := by
      simp [itemTokens]
    have hpieces : itemPieces (p :: front) = [.inr p.1] ++ (p.2.pieces ++ itemPieces front) := by
      simp [itemPieces]
    rw [htokens, hpieces, List.flatMap_append, List.flatMap_cons, hgap.characters_gapTokens,
      p.2.characters_token hform, ih hfront, sourceText_append, sourceText_append]

end ExactLisp.Layout
