import ExactLisp.Layout.Tree
import ExactLisp.Layout.Writer

/-!
# Forms and the gaps between them

The token tree mixes what a text says with the white space around it. Here the two
are kept apart. A *form* is what stands between white space: a word, a string, a
comment, a bracketed group, a quote. A *row* is the inside of a group, or of the
whole text: forms with a gap before each of them and one after the last.

What a gap is made of is left open. The gaps of a text are blanks; on their way
through the passes they also have line breaks in them; and a proof can put several
gaps next to each other in one place. Edits that only change gaps then have the same
forms before and after them by construction.
-/

namespace ExactLisp.Layout

/-- A character that separates words. -/
abbrev Blank := { c : Char // isBlank c = true }

/-- A word of the source. -/
abbrev Word := { text : List Char // text ≠ [] ∧ ∀ c ∈ text, isWordChar .source c = true }

mutual

/-- What stands between white space. -/
inductive Form (γ : Type) where
  | word (w : Word)
  /-- A bracket that closes nothing. -/
  | stray (b : Bracket)
  | str (raw : List Char) (closed : Bool)
  | comment (text : List Char)
  /-- Something in brackets, the second of which may be missing. -/
  | group (b : Bracket) (row : Row γ) (closed : Bool)
  | quoted (gap : γ) (form : Form γ)
  /-- A quote mark with nothing to quote. -/
  | bareQuote (gap : γ)

/-- Forms, with a gap before each and one after the last. -/
inductive Row (γ : Type) where
  | last (gap : γ)
  | item (gap : γ) (form : Form γ) (rest : Row γ)

end

variable {γ δ ε : Type}

/-! ## Other gaps around the same forms -/

mutual

/-- Change every gap. -/
def Form.map (φ : γ → δ) : Form γ → Form δ
  | .word w => .word w
  | .stray b => .stray b
  | .str raw closed => .str raw closed
  | .comment text => .comment text
  | .group b row closed => .group b (row.map φ) closed
  | .quoted gap form => .quoted (φ gap) (form.map φ)
  | .bareQuote gap => .bareQuote (φ gap)

/-- Change every gap of a row. -/
def Row.map (φ : γ → δ) : Row γ → Row δ
  | .last gap => .last (φ gap)
  | .item gap form rest => .item (φ gap) (form.map φ) (rest.map φ)

end

mutual

theorem Form.map_map (φ : γ → δ) (ψ : δ → ε) :
    ∀ f : Form γ, (f.map φ).map ψ = f.map (ψ ∘ φ)
  | .word _ | .stray _ | .str .. | .comment _ => rfl
  | .group b row closed => by simp [Form.map, row.map_map φ ψ]
  | .quoted gap form => by simp [Form.map, form.map_map φ ψ]
  | .bareQuote gap => rfl

theorem Row.map_map (φ : γ → δ) (ψ : δ → ε) :
    ∀ r : Row γ, (r.map φ).map ψ = r.map (ψ ∘ φ)
  | .last gap => rfl
  | .item gap form rest => by simp [Row.map, form.map_map φ ψ, rest.map_map φ ψ]

end

mutual

theorem Form.map_id : ∀ f : Form γ, f.map id = f
  | .word _ | .stray _ | .str .. | .comment _ | .bareQuote _ => rfl
  | .group b row closed => by rw [Form.map, row.map_id]
  | .quoted gap form => by rw [Form.map, form.map_id]; rfl

theorem Row.map_id : ∀ row : Row γ, row.map id = row
  | .last _ => rfl
  | .item gap form rest => by rw [Row.map, form.map_id, rest.map_id]; rfl

end

/-! ## Facts about all gaps -/

mutual

/-- Whether all gaps of a form have a property. -/
def Form.All (P : γ → Prop) : Form γ → Prop
  | .group _ row _ => row.All P
  | .quoted gap form => P gap ∧ form.All P
  | .bareQuote gap => P gap
  | _ => True

/-- Whether all gaps of a row have a property. -/
def Row.All (P : γ → Prop) : Row γ → Prop
  | .last gap => P gap
  | .item gap form rest => P gap ∧ form.All P ∧ rest.All P

end

mutual

theorem Form.All.mono {P Q : γ → Prop} (h : ∀ gap, P gap → Q gap) :
    ∀ f : Form γ, f.All P → f.All Q
  | .word _, _ | .stray _, _ | .str .., _ | .comment _, _ => trivial
  | .group _ row _, hf => Row.All.mono h row hf
  | .quoted gap form, hf => ⟨h gap hf.1, Form.All.mono h form hf.2⟩
  | .bareQuote gap, hf => h gap hf

theorem Row.All.mono {P Q : γ → Prop} (h : ∀ gap, P gap → Q gap) :
    ∀ row : Row γ, row.All P → row.All Q
  | .last gap, hr => h gap hr
  | .item gap form rest, hr =>
    ⟨h gap hr.1, Form.All.mono h form hr.2.1, Row.All.mono h rest hr.2.2⟩

end

mutual

theorem Form.all_map (φ : γ → δ) (P : δ → Prop) : ∀ f : Form γ,
    (f.map φ).All P ↔ f.All fun gap => P (φ gap)
  | .word _ | .stray _ | .str .. | .comment _ | .bareQuote _ => Iff.rfl
  | .group _ row _ => row.all_map φ P
  | .quoted gap form => by
    rw [Form.map, Form.All, Form.All, form.all_map φ P]

theorem Row.all_map (φ : γ → δ) (P : δ → Prop) : ∀ row : Row γ,
    (row.map φ).All P ↔ row.All fun gap => P (φ gap)
  | .last gap => Iff.rfl
  | .item gap form rest => by
    rw [Row.map, Row.All, Row.All, form.all_map φ P, rest.all_map φ P]

end

mutual

theorem Form.All.and {P Q : γ → Prop} : ∀ f : Form γ,
    f.All P → f.All Q → f.All fun gap => P gap ∧ Q gap
  | .word _, _, _ | .stray _, _, _ | .str .., _, _ | .comment _, _, _ => trivial
  | .group _ row _, h1, h2 => Row.All.and row h1 h2
  | .quoted _ form, h1, h2 => ⟨⟨h1.1, h2.1⟩, Form.All.and form h1.2 h2.2⟩
  | .bareQuote _, h1, h2 => ⟨h1, h2⟩

theorem Row.All.and {P Q : γ → Prop} : ∀ row : Row γ,
    row.All P → row.All Q → row.All fun gap => P gap ∧ Q gap
  | .last _, h1, h2 => ⟨h1, h2⟩
  | .item _ form rest, h1, h2 =>
    ⟨⟨h1.1, h2.1⟩, Form.All.and form h1.2.1 h2.2.1, Row.All.and rest h1.2.2 h2.2.2⟩

end

mutual

theorem Form.all_of_forall {P : γ → Prop} (h : ∀ gap, P gap) : ∀ f : Form γ, f.All P
  | .word _ | .stray _ | .str .. | .comment _ => trivial
  | .group _ row _ => row.all_of_forall h
  | .quoted gap form => ⟨h gap, form.all_of_forall h⟩
  | .bareQuote gap => h gap

theorem Row.all_of_forall {P : γ → Prop} (h : ∀ gap, P gap) : ∀ row : Row γ, row.All P
  | .last gap => h gap
  | .item gap form rest => ⟨h gap, form.all_of_forall h, rest.all_of_forall h⟩

end

/-! ## As lexemes -/

/-- Some blanks as lexemes. -/
def spaces (blanks : List Blank) : List Lexeme := blanks.map fun c => .space c.1

theorem filter_spaces (blanks : List Blank) :
    (spaces blanks).filter (fun x => !x.isSpace) = [] := by
  rw [List.filter_eq_nil_iff]
  intro x hx
  obtain ⟨c, -, rfl⟩ := List.mem_map.mp hx
  exact Bool.false_ne_true

theorem isBlank_of_mem_spaces {blanks : List Blank} {c : Char} (h : .space c ∈ spaces blanks) :
    isBlank c = true := by
  obtain ⟨d, -, hd⟩ := List.mem_map.mp h
  have hc : d.1 = c := Lexeme.space.inj hd
  rw [← hc]
  exact d.2

mutual

/-- The lexemes of a form, when its gaps are taken as blanks. -/
def Form.lexemes (blanks : γ → List Blank) : Form γ → List Lexeme
  | .word w => [.word w.1]
  | .stray b => [.closing b]
  | .str raw closed => [.str raw closed]
  | .comment text => [.comment text]
  | .group b row closed =>
    .opening b :: (row.lexemes blanks ++ if closed then [.closing b] else [])
  | .quoted gap form => .quote :: (spaces (blanks gap) ++ form.lexemes blanks)
  | .bareQuote gap => .quote :: spaces (blanks gap)

/-- The lexemes of a row. -/
def Row.lexemes (blanks : γ → List Blank) : Row γ → List Lexeme
  | .last gap => spaces (blanks gap)
  | .item gap form rest => spaces (blanks gap) ++ form.lexemes blanks ++ rest.lexemes blanks

end

mutual

theorem Form.lexemes_map (φ : γ → δ) (blanks : δ → List Blank) :
    ∀ f : Form γ, (f.map φ).lexemes blanks = f.lexemes (blanks ∘ φ)
  | .word _ | .stray _ | .str .. | .comment _ | .bareQuote _ => rfl
  | .group b row closed => by simp [Form.map, Form.lexemes, row.lexemes_map φ blanks]
  | .quoted gap form => by simp [Form.map, Form.lexemes, form.lexemes_map φ blanks]

theorem Row.lexemes_map (φ : γ → δ) (blanks : δ → List Blank) :
    ∀ r : Row γ, (r.map φ).lexemes blanks = r.lexemes (blanks ∘ φ)
  | .last _ => rfl
  | .item gap form rest => by
    simp [Row.map, Row.lexemes, form.lexemes_map φ blanks, rest.lexemes_map φ blanks]

end

mutual

/-- Other gaps do not change the lexemes that are not white space. -/
theorem Form.filter_lexemes (blanks : γ → List Blank) (others : δ → List Blank) (φ : γ → δ) :
    ∀ f : Form γ, (f.lexemes blanks).filter (fun x => !x.isSpace) =
      ((f.map φ).lexemes others).filter fun x => !x.isSpace
  | .word _ | .stray _ | .str .. | .comment _ => rfl
  | .group b row closed => by
    simp [Form.map, Form.lexemes, List.filter_cons, row.filter_lexemes blanks others φ]
  | .quoted gap form => by
    simp [Form.map, Form.lexemes, List.filter_cons, filter_spaces,
      form.filter_lexemes blanks others φ]
  | .bareQuote gap => by
    simp [Form.map, Form.lexemes, List.filter_cons, filter_spaces]

theorem Row.filter_lexemes (blanks : γ → List Blank) (others : δ → List Blank) (φ : γ → δ) :
    ∀ row : Row γ, (row.lexemes blanks).filter (fun x => !x.isSpace) =
      ((row.map φ).lexemes others).filter fun x => !x.isSpace
  | .last gap => by simp [Row.map, Row.lexemes, filter_spaces]
  | .item gap form rest => by
    simp [Row.map, Row.lexemes, filter_spaces, form.filter_lexemes blanks others φ,
      rest.filter_lexemes blanks others φ]

end

mutual

/-- The white space among the lexemes is that of the gaps. -/
theorem Form.isBlank_of_mem_lexemes (blanks : γ → List Blank) {c : Char} : ∀ f : Form γ,
    .space c ∈ f.lexemes blanks → isBlank c = true
  | .word _, h | .stray _, h | .str .., h | .comment _, h => by simp [Form.lexemes] at h
  | .group b row closed, h => by
    have hrow : .space c ∈ row.lexemes blanks := by
      cases closed <;> simpa [Form.lexemes] using h
    exact row.isBlank_of_mem_lexemes blanks hrow
  | .quoted gap form, h => by
    simp only [Form.lexemes, List.mem_cons, List.mem_append, reduceCtorEq, false_or] at h
    rcases h with h | h
    · exact isBlank_of_mem_spaces h
    · exact form.isBlank_of_mem_lexemes blanks h
  | .bareQuote gap, h => by
    simp only [Form.lexemes, List.mem_cons, reduceCtorEq, false_or] at h
    exact isBlank_of_mem_spaces h

theorem Row.isBlank_of_mem_lexemes (blanks : γ → List Blank) {c : Char} : ∀ row : Row γ,
    .space c ∈ row.lexemes blanks → isBlank c = true
  | .last gap, h => isBlank_of_mem_spaces h
  | .item gap form rest, h => by
    simp only [Row.lexemes, List.mem_append] at h
    rcases h with (h | h) | h
    · exact isBlank_of_mem_spaces h
    · exact form.isBlank_of_mem_lexemes blanks h
    · exact rest.isBlank_of_mem_lexemes blanks h

end

/-! ## As nodes of the tree -/

/-- A part of a gap: a blank, or a line break that a pass has inserted. -/
inductive Mark where
  | blank (c : Blank)
  | lineBreak

/-- White space between two forms of a tree. -/
abbrev Gap := List Mark

/-- A part of a gap as a node. -/
def Mark.token : Mark → Token
  | .blank c => .char c.1
  | .lineBreak => .newline

/-- A gap as nodes. -/
def gapTokens (gap : Gap) : List Token := gap.map Mark.token

/-- The bracket that ends an aggregate, if it is there. -/
def closerTokens (b : Bracket) (closed : Bool) : List Token :=
  if closed then [.char b.closeChar] else []

mutual

/-- A form as a node. -/
def Form.token : Form Gap → Token
  | .word w => .plain w.1
  | .stray b => .char b.closeChar
  | .str raw closed => stringToken raw closed
  | .comment text => commentToken text
  | .group b row closed =>
    .aggregate (.ofBracket b) (.char b.openChar :: (row.tokens ++ closerTokens b closed))
  | .quoted gap form => .aggregate .quote (.char quoteMark :: (gapTokens gap ++ [form.token]))
  | .bareQuote gap => .aggregate .quote (.char quoteMark :: gapTokens gap)

/-- A row as nodes. -/
def Row.tokens : Row Gap → List Token
  | .last gap => gapTokens gap
  | .item gap form rest => gapTokens gap ++ form.token :: rest.tokens

end

/-- The whole tree of a row. -/
def Row.tree (row : Row Gap) : Token := .aggregate .root row.tokens

/-- The gap that some blanks of a text are. -/
def ofBlanks (blanks : List Blank) : Gap := blanks.map .blank

/-! ## What a gap is -/

theorem isWhitespace_markToken (m : Mark) : m.token.isWhitespace = true := by
  cases m with
  | blank c => simp [Mark.token, Token.char, Token.plain, Token.isWhitespace, isBlankText, c.2]
  | lineBreak => rfl

theorem isWhitespace_of_mem_gapTokens {gap : Gap} {t : Token} (h : t ∈ gapTokens gap) :
    t.isWhitespace = true := by
  obtain ⟨m, -, rfl⟩ := List.mem_map.mp h
  exact isWhitespace_markToken m

theorem isBlank_of_mem_word {w : Word} {c : Char} (h : c ∈ w.1) : isBlank c = false := by
  have hc := w.2.2 c h
  simp only [isWordChar, isBreaking, Bool.and_eq_true, Bool.not_eq_true', Bool.or_eq_false_iff]
    at hc
  exact hc.1.1.1.1.1.1.1

theorem isWhitespace_form (f : Form Gap) : f.token.isWhitespace = false := by
  cases f with
  | word w =>
    obtain ⟨c, hc⟩ := List.exists_mem_of_ne_nil w.1 w.2.1
    have hb : w.1.all isBlank = false := by
      rw [List.all_eq_false]
      exact ⟨c, hc, by simp [isBlank_of_mem_word hc]⟩
    simp [Form.token, Token.plain, Token.isWhitespace, isBlankText, hb]
  | stray b => cases b <;> rfl
  | str | comment | group | quoted | bareQuote => rfl

end ExactLisp.Layout
