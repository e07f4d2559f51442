import ExactLisp.Proofs.Layout.Form
import ExactLisp.Proofs.Lexeme.Canonical

/-!
# Every list of lexemes is a row of forms

Lexemes are grouped into forms from the right. A lexeme in front of a row becomes a
form of its own, unless it opens something: an opening bracket takes all forms up to
the first bracket that closes it, or the whole row if there is none, and a quote mark
takes the form after it, if that is one it can quote.

The rows that arise this way are *regular*. A bracket that closes nothing really
could not have closed anything; what lacks its end is the last thing in the text; and
a quote mark is without a form only where none follows.
-/

namespace ExactLisp.Layout

variable {γ δ : Type}

namespace Form

/-- Whether a form is a bracket that could close a group. -/
def isStray (b : Bracket) : Form γ → Bool
  | .stray c => c == b
  | _ => false

/-- Whether a quote mark takes a form. -/
def isQuotable : Form γ → Bool
  | .stray _ | .comment _ => false
  | _ => true

theorem isQuotable_map (φ : γ → δ) (f : Form γ) : (f.map φ).isQuotable = f.isQuotable := by
  cases f <;> rfl

/-- Whether a form lacks a closing bracket. -/
def isOpen : Form γ → Bool
  | .group _ _ closed => !closed
  | .quoted _ form => form.isOpen
  | _ => false

/-- Whether a form ends in a quote mark with nothing to quote. -/
def endsBare : Form γ → Bool
  | .quoted _ form => form.endsBare
  | .bareQuote _ => true
  | _ => false

end Form

namespace Row

/-- Whether a row has no form, and no gap. -/
def IsVoid (empty : γ → Prop) : Row γ → Prop
  | .last gap => empty gap
  | .item .. => False

/-- Whether a row is what can follow a quote mark with nothing to quote. -/
def FollowsBare (empty : γ → Prop) : Row γ → Prop
  | .last gap => empty gap
  | .item gap form _ => empty gap ∧ form.isQuotable = false

end Row

mutual

/-- Whether a form is grouped as in a text, when it is known which gaps are empty. -/
def Form.Regular (empty : γ → Prop) : Form γ → Prop
  | .group b row closed => row.Regular empty (some b) (!closed)
  | .quoted _ form => form.isQuotable = true ∧ form.Regular empty
  | _ => True

/--
Whether a row is grouped as in a text: the inside of a group that its own bracket
closes, if any, and at the end of the text or not.
-/
def Row.Regular (empty : γ → Prop) (own : Option Bracket) (atEnd : Bool) : Row γ → Prop
  | .last _ => True
  | .item _ form rest =>
    form.Regular empty ∧ (∀ b, own = some b → form.isStray b = false) ∧
      (form.isOpen = true → atEnd = true ∧ rest.IsVoid empty) ∧
      (form.endsBare = true → rest.FollowsBare empty) ∧ rest.Regular empty own atEnd

end

namespace Row

/-! ## Adding a lexeme in front -/

/-- Add a blank in front of a row. -/
def addBlank (c : Blank) : Row (List Blank) → Row (List Blank)
  | .last gap => .last (c :: gap)
  | .item gap form rest => .item (c :: gap) form rest

/-- The part of a row before the first bracket that closes it, and the part after that. -/
def splitAt (b : Bracket) : Row γ → Row γ × Option (Row γ)
  | .last gap => (.last gap, none)
  | .item gap form rest =>
    if form.isStray b then (.last gap, some rest)
    else (.item gap form (rest.splitAt b).1, (rest.splitAt b).2)

/-- Add a lexeme in front of a row. -/
def push (x : Lexeme) (row : Row (List Blank)) : Row (List Blank) :=
  match x with
  | .space c => if h : isBlank c = true then row.addBlank ⟨c, h⟩ else row
  | .word w =>
    if h : w ≠ [] ∧ w.all (isWordChar .source) = true then
      .item [] (.word ⟨w, h.1, List.all_eq_true.mp h.2⟩) row
    else row
  | .closing b => .item [] (.stray b) row
  | .str raw closed => .item [] (.str raw closed) row
  | .comment text => .item [] (.comment text) row
  | .opening b =>
    match row.splitAt b with
    | (inner, some rest) => .item [] (.group b inner true) rest
    | (inner, none) => .item [] (.group b inner false) (.last [])
  | .quote =>
    match row with
    | .last gap => .item [] (.bareQuote gap) (.last [])
    | .item gap form rest =>
      if form.isQuotable then .item [] (.quoted gap form) rest
      else .item [] (.bareQuote gap) (.item [] form rest)

/-- The row of some lexemes. -/
def ofLexemes (xs : List Lexeme) : Row (List Blank) := xs.foldr push (.last [])

/-! ## Nothing is lost -/

theorem lexemes_addBlank (c : Blank) (row : Row (List Blank)) :
    (row.addBlank c).lexemes id = .space c.1 :: row.lexemes id := by
  cases row <;> rfl

theorem splitAt_eq_none {b : Bracket} :
    ∀ {row inner : Row γ}, row.splitAt b = (inner, none) → inner = row
  | .last gap, inner, h => by
    simp only [splitAt, Prod.mk.injEq, and_true] at h
    exact h.symm
  | .item gap form rest, inner, h => by
    rw [splitAt] at h
    split at h
    · cases h
    · simp only [Prod.mk.injEq] at h
      have hrest : (rest.splitAt b).1 = rest := splitAt_eq_none (Prod.ext rfl h.2)
      rw [← h.1, hrest]

theorem lexemes_splitAt {b : Bracket} :
    ∀ {row inner rest : Row (List Blank)}, row.splitAt b = (inner, some rest) →
      row.lexemes id = inner.lexemes id ++ .closing b :: rest.lexemes id
  | .last gap, inner, rest, h => by cases h
  | .item gap form others, inner, rest, h => by
    rw [splitAt] at h
    split at h
    next hs =>
      cases form with
      | stray c =>
        have hc : c = b := eq_of_beq hs
        cases h
        simp [Row.lexemes, Form.lexemes, hc]
      | _ => cases hs
    · simp only [Prod.mk.injEq] at h
      have hpair : others.splitAt b = ((others.splitAt b).1, some rest) := Prod.ext rfl h.2
      have hrest := lexemes_splitAt hpair
      rw [← h.1]
      simp [Row.lexemes, hrest]

theorem lexemes_push {x : Lexeme} (hx : x.WellSpelled .source) (row : Row (List Blank)) :
    (push x row).lexemes id = x :: row.lexemes id := by
  cases x with
  | space c =>
    have hc : isBlank c = true := hx
    rw [push, dif_pos hc, lexemes_addBlank]
  | word w =>
    have hw : w ≠ [] ∧ ∀ c ∈ w, isWordChar .source c = true := hx
    rw [push, dif_pos ⟨hw.1, List.all_eq_true.mpr hw.2⟩]
    rfl
  | closing | str | comment => rfl
  | opening b =>
    rw [push]
    split
    next inner rest hs => simp [Row.lexemes, Form.lexemes, spaces, lexemes_splitAt hs]
    next inner hs => simp [Row.lexemes, Form.lexemes, spaces, splitAt_eq_none hs]
  | quote =>
    cases row with
    | last gap => simp [push, Row.lexemes, Form.lexemes, spaces]
    | item gap form rest =>
      rw [push]
      split <;> simp [Row.lexemes, Form.lexemes, spaces]

/-- The lexemes of the row of some lexemes are these lexemes. -/
theorem lexemes_ofLexemes {xs : List Lexeme} (h : ∀ x ∈ xs, x.WellSpelled .source) :
    (ofLexemes xs).lexemes id = xs := by
  induction xs with
  | nil => rfl
  | cons x rest ih =>
    rw [ofLexemes, List.foldr_cons, lexemes_push (h x List.mem_cons_self)]
    exact congrArg _ (ih fun y hy => h y (List.mem_cons_of_mem _ hy))

/-! ## The row of some lexemes is regular -/

/-- A gap of blanks with nothing in it. -/
def IsEmpty (gap : List Blank) : Prop := gap = []

theorem regular_addBlank {c : Blank} {row : Row (List Blank)} {own : Option Bracket}
    {atEnd : Bool} (h : row.Regular IsEmpty own atEnd) :
    (row.addBlank c).Regular IsEmpty own atEnd := by
  cases row with
  | last => trivial
  | item => exact h

theorem regular_of_splitAt_none {empty : γ → Prop} {b : Bracket} :
    ∀ {row inner : Row γ}, row.splitAt b = (inner, none) → row.Regular empty none true →
      row.Regular empty (some b) true
  | .last _, _, _, _ => trivial
  | .item gap form rest, inner, h, hr => by
    rw [splitAt] at h
    split at h
    · cases h
    next hs =>
      simp only [Prod.mk.injEq] at h
      obtain ⟨h1, -, h3, h4, h5⟩ := hr
      refine ⟨h1, ?_, h3, h4, regular_of_splitAt_none (Prod.ext rfl h.2) h5⟩
      rintro c ⟨⟩
      exact Bool.not_eq_true _ ▸ hs

theorem followsBare_splitAt {empty : γ → Prop} {row : Row γ} (b : Bracket)
    (h : row.FollowsBare empty) : (row.splitAt b).1.FollowsBare empty := by
  cases row with
  | last => exact h
  | item gap form rest =>
    rw [splitAt]
    split
    · exact h.1
    · exact h

theorem regular_splitAt {empty : γ → Prop} {b : Bracket} :
    ∀ {row inner rest : Row γ}, row.splitAt b = (inner, some rest) → row.Regular empty none true →
      inner.Regular empty (some b) false ∧ rest.Regular empty none true
  | .last _, _, _, h, _ => by cases h
  | .item gap form others, inner, rest, h, hr => by
    obtain ⟨h1, -, h3, h4, h5⟩ := hr
    rw [splitAt] at h
    split at h
    · cases h
      exact ⟨trivial, h5⟩
    next hs =>
      simp only [Prod.mk.injEq] at h
      have hpair : others.splitAt b = ((others.splitAt b).1, some rest) := Prod.ext rfl h.2
      obtain ⟨hin, hrest⟩ := regular_splitAt hpair h5
      refine ⟨?_, hrest⟩
      rw [← h.1]
      refine ⟨h1, ?_, fun ho => ?_, fun hb => followsBare_splitAt b (h4 hb), hin⟩
      · rintro c ⟨⟩
        exact Bool.not_eq_true _ ▸ hs
      · -- nothing follows an open form, but the closing bracket does
        have hv := (h3 ho).2
        cases others with
        | last => cases h.2
        | item => exact absurd hv id

theorem regular_push (x : Lexeme) {row : Row (List Blank)} (h : row.Regular IsEmpty none true) :
    (push x row).Regular IsEmpty none true := by
  have plain : ∀ form : Form (List Blank), form.Regular IsEmpty → form.isOpen = false →
      form.endsBare = false → (Row.item [] form row).Regular IsEmpty none true := by
    intro form h1 h2 h3
    refine ⟨h1, by simp, ?_, ?_, h⟩ <;> simp [h2, h3]
  cases x with
  | space c =>
    rw [push]
    split
    · exact regular_addBlank h
    · exact h
  | word w =>
    rw [push]
    split
    · exact plain _ trivial rfl rfl
    · exact h
  | closing | str | comment => exact plain _ trivial rfl rfl
  | opening b =>
    rw [push]
    split
    next inner rest hs =>
      -- the group takes the row up to the bracket that closes it
      obtain ⟨hin, hrest⟩ := regular_splitAt hs h
      refine ⟨hin, by simp, ?_, ?_, hrest⟩ <;> simp [Form.isOpen, Form.endsBare]
    next inner hs =>
      -- nothing closes the group, which takes the whole row
      rw [splitAt_eq_none hs]
      refine ⟨regular_of_splitAt_none hs h, by simp, fun _ => ⟨rfl, rfl⟩, ?_, trivial⟩
      simp [Form.endsBare]
  | quote =>
    cases row with
    | last gap =>
      refine ⟨trivial, by simp, ?_, fun _ => rfl, trivial⟩
      simp [Form.isOpen]
    | item gap form rest =>
      rw [push]
      split
      next hq =>
        obtain ⟨h1, -, h3, h4, h5⟩ := h
        exact ⟨⟨hq, h1⟩, by simp, h3, h4, h5⟩
      next hq =>
        obtain ⟨h1, h2, h3, h4, h5⟩ := h
        refine ⟨trivial, by simp, ?_, fun _ => ⟨rfl, Bool.not_eq_true _ ▸ hq⟩, h1, h2, h3, h4, h5⟩
        simp [Form.isOpen]

/-- **The row of some lexemes is regular.** -/
theorem regular_ofLexemes (xs : List Lexeme) : (ofLexemes xs).Regular IsEmpty none true := by
  induction xs with
  | nil => trivial
  | cons x rest ih => exact regular_push x ih

end Row

end ExactLisp.Layout
