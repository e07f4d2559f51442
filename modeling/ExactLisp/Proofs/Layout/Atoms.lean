import ExactLisp.Layout.Characters
import ExactLisp.Lexeme.Spelling
import ExactLisp.Proofs.Layout.Nesting

/-!
# The atoms of a tree

The tree of a text has the whole text in its atoms. Whatever is unterminated, closes the wrong
bracket or quotes nothing, the atoms read from left to right are the text, and none of them is
empty (`flatten_atomTexts_ofText`). The only texts without a tree are those that nest too
deeply.
-/

namespace ExactLisp.Layout

namespace Token

mutual

/-- The texts of the atoms of a node, from left to right. -/
def atomTexts : Token → List (List Char)
  | .atom text _ => [text]
  | .aggregate _ children => allAtomTexts children

/-- The texts of the atoms of some nodes, from left to right. -/
def allAtomTexts : List Token → List (List Char)
  | [] => []
  | t :: rest => t.atomTexts ++ allAtomTexts rest

end

mutual

theorem flatten_atomTexts : ∀ t : Token, t.atomTexts.flatten = t.characters
  | .atom text _ => by rw [atomTexts, List.flatten_singleton, characters]
  | .aggregate _ children => flatten_allAtomTexts children

theorem flatten_allAtomTexts : ∀ ts : List Token,
    (allAtomTexts ts).flatten = allCharacters ts
  | [] => rfl
  | t :: rest => by
    rw [allAtomTexts, List.flatten_append, flatten_atomTexts, flatten_allAtomTexts, allCharacters]

end

theorem allAtomTexts_append (ts us : List Token) :
    allAtomTexts (ts ++ us) = allAtomTexts ts ++ allAtomTexts us := by
  induction ts with
  | nil => rfl
  | cons t rest ih => rw [List.cons_append, allAtomTexts, allAtomTexts, ih, List.append_assoc]

@[simp] theorem atomTexts_plain (text : List Char) : (plain text).atomTexts = [text] := by
  rw [plain, atomTexts]

@[simp] theorem atomTexts_char (c : Char) : (char c).atomTexts = [[c]] := atomTexts_plain [c]

end Token

open Token (allAtomTexts allAtomTexts_append)

/-! ## No atom is empty -/

theorem nil_notMem_atomTexts_stringToken (raw : List Char) (closed : Bool) :
    [] ∉ (stringToken raw closed).atomTexts := by
  cases raw <;> cases closed <;> simp [stringToken, Token.atomTexts, allAtomTexts]

theorem nil_notMem_atomTexts_commentToken (text : List Char) :
    [] ∉ (commentToken text).atomTexts := by
  cases text <;> simp [commentToken, Token.atomTexts, allAtomTexts]

theorem nil_notMem_allAtomTexts_gapTokens (gap : Gap) : [] ∉ allAtomTexts (gapTokens gap) := by
  induction gap with
  | nil => exact List.not_mem_nil
  | cons m rest ih =>
    have hmark : [] ∉ m.token.atomTexts := by
      cases m <;> simp [Mark.token, Token.newline, Token.atomTexts]
    exact List.not_mem_append hmark ih

mutual

theorem Form.nil_notMem_atomTexts : ∀ f : Form Gap, [] ∉ f.token.atomTexts
  | .word w => by simpa [Form.token] using w.2.1
  | .stray b => by simp [Form.token]
  | .str raw closed => nil_notMem_atomTexts_stringToken raw closed
  | .comment text => nil_notMem_atomTexts_commentToken text
  | .group b row closed => by
    have hrow := row.nil_notMem_allAtomTexts
    have hcloser : [] ∉ allAtomTexts (closerTokens b closed) := by
      cases closed <;> simp [closerTokens, allAtomTexts]
    simpa [Form.token, Token.atomTexts, allAtomTexts, allAtomTexts_append] using ⟨hrow, hcloser⟩
  | .quoted gap form => by
    have hgap := nil_notMem_allAtomTexts_gapTokens gap
    have hform := form.nil_notMem_atomTexts
    simpa [Form.token, Token.atomTexts, allAtomTexts, allAtomTexts_append] using ⟨hgap, hform⟩
  | .bareQuote gap => by
    have hgap := nil_notMem_allAtomTexts_gapTokens gap
    simpa [Form.token, Token.atomTexts, allAtomTexts] using hgap

theorem Row.nil_notMem_allAtomTexts : ∀ row : Row Gap, [] ∉ allAtomTexts row.tokens
  | .last gap => nil_notMem_allAtomTexts_gapTokens gap
  | .item gap form rest => by
    have hgap := nil_notMem_allAtomTexts_gapTokens gap
    have hform := form.nil_notMem_atomTexts
    have hrest := rest.nil_notMem_allAtomTexts
    simpa [Row.tokens, allAtomTexts, allAtomTexts_append] using ⟨hgap, hform, hrest⟩

end

/-! ## Trees of texts -/

/-- All characters of a text are in its tree, in order. -/
theorem characters_of_ofText {text : String} {t : Token} (h : Token.ofText text = .ok t) :
    t.characters = text.toList := by
  rw [Token.ofText] at h
  split at h
  next g hg =>
    cases h
    rw [Token.characters_aggregate, Growth.flatMap_characters_finish, Growth.characters_readAll hg,
      Lexeme.spelling_scan]
    simp [Growth.characters, Growth.charactersOf, Growth.stackCharacters, Growth.empty]
  · cases h

/--
**The tree of a text loses nothing.** Its atoms, read from left to right, are the text, and every
one of them has some character of it. A text has a tree exactly if it stays below the limit on
nesting, and is refused as too deeply nested otherwise.
-/
theorem flatten_atomTexts_ofText (text : String) :
    let layers := (Row.ofLexemes (Lexeme.scan .source text)).layers
    (layers < depthLimit ∧ ∃ t, Token.ofText text = .ok t ∧
        t.atomTexts.flatten = text.toList ∧ [] ∉ t.atomTexts) ∨
      (depthLimit ≤ layers ∧ ∃ fault, Token.ofText text = .error fault ∧
        fault.kind = .tooDeeplyNested) := by
  intro layers
  have htree : Token.ofText text = if layers < depthLimit then
      .ok (Row.ofLexemes (Lexeme.scan .source text)).source.tree
    else .error Growth.tooDeep := Token.ofText_eq text
  by_cases hlow : layers < depthLimit
  · rw [if_pos hlow] at htree
    refine Or.inl ⟨hlow, _, htree, ?_, Row.nil_notMem_allAtomTexts _⟩
    rw [Token.flatten_atomTexts, characters_of_ofText htree]
  · rw [if_neg hlow] at htree
    exact Or.inr ⟨Nat.le_of_not_lt hlow, _, htree, rfl⟩

/-- For instance with a bracket that nothing closes, one that closes nothing, and a bare quote. -/
example : (Token.ofText "(a ]' ;").toOption.map Token.atomTexts =
    some [['('], ['a'], [' '], [']'], ['\x27'], [' '], [';']] := by
  decide +kernel

end ExactLisp.Layout
