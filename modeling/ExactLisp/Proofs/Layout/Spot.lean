import ExactLisp.Layout.Passes
import ExactLisp.Proofs.Layout.Form

/-!
# Where a gap is

Whether a pass changes a gap depends on where the gap is: in what kind of aggregate,
after how many elements, and in front of what. All of this is a matter of the forms
alone, except that the last pass also asks whether an element takes several lines,
which the gaps inside of it decide.

`Row.annotate` puts next to each gap what there is to know about its place. An edit
of a whole tree is then a function of a place and a gap, and two edits one after the
other are one edit by the composed function (`Row.edit_edit`).
-/

namespace ExactLisp.Layout

variable {γ δ : Type}

/-! ## Forms as the passes see them -/

namespace Form

/-- Whether a form is a logical element: anything but a comment. -/
def isElement : Form γ → Bool
  | .comment _ => false
  | _ => true

/-- Whether a form is a comment that starts with two marks. -/
def isLineComment : Form γ → Bool
  | .comment text => text.head? == some commentMark
  | _ => false

/-- The text of a form that is an atom in the tree. -/
def atomText? : Form γ → Option (List Char)
  | .word w => some w.1
  | .stray b => some [b.closeChar]
  | _ => none

end Form

namespace Row

/-- The text of the first element, if it is an atom. -/
def head? : Row γ → Option (List Char)
  | .last _ => none
  | .item _ form rest => if form.isElement then form.atomText? else rest.head?

/-- The number of elements. -/
def count : Row γ → Nat
  | .last _ => 0
  | .item _ form rest => form.isElement.toNat + rest.count

end Row

mutual

/-- Whether a form takes several lines, when it is known which gaps do. -/
def Form.spans (breaks : γ → Bool) : Form γ → Bool
  | .word _ | .stray _ => false
  | .str raw _ => hasNewline raw
  | .comment text => hasNewline text
  | .group _ row _ => row.spans breaks
  | .quoted gap form => breaks gap || form.spans breaks
  | .bareQuote gap => breaks gap

/-- Whether a row takes several lines. -/
def Row.spans (breaks : γ → Bool) : Row γ → Bool
  | .last gap => breaks gap
  | .item gap form rest => breaks gap || form.spans breaks || rest.spans breaks

end

/-! ## Places -/

/-- What a row is the inside of. -/
inductive Shell where
  /-- The whole text. -/
  | root
  | group (b : Bracket) (closed : Bool)
  deriving DecidableEq

namespace Shell

/-- The kind of the aggregate. -/
def kind : Shell → Kind
  | root => .root
  | group b _ => .ofBracket b

/-- The bracket that would close it. -/
def own : Shell → Option Bracket
  | root => none
  | group b _ => some b

end Shell

/-- What follows a gap. -/
inductive Next where
  | form (isElement isLineComment : Bool)
  | closer
  | nothing
  deriving DecidableEq

/-- What follows a gap that a form comes after. -/
def Form.next (f : Form γ) : Next := .form f.isElement f.isLineComment

/-- What follows the last gap of a row. -/
def Shell.next : Shell → Next
  | .group _ true => .closer
  | _ => .nothing

/-- How far into a row a place is. -/
structure Reach where
  shell : Shell
  /-- The text of the first element of the row, if it is an atom. -/
  head : Option (List Char)
  /-- The number of elements of the row. -/
  count : Nat
  /-- Whether the row is the bindings of a let form. -/
  isBindings : Bool
  /-- No form stands before the place. -/
  opens : Bool
  /-- The number of elements before the place. -/
  seen : Nat
  /-- The last one of these takes several lines. -/
  afterLong : Bool

namespace Reach

/-- The start of a row; only the row of a list can be the bindings of a let form. -/
def start (shell : Shell) (isBindings : Bool) (row : Row γ) : Reach :=
  ⟨shell, row.head?, row.count, isBindings && shell.kind == .list, true, 0, false⟩

/-- The place after another form, which takes several lines or not. -/
def after (r : Reach) (isElement long : Bool) : Reach :=
  { r with
    opens := false
    seen := r.seen + isElement.toNat
    afterLong := if isElement then long else r.afterLong }

/-- Whether the row is a list that starts with one of some words. -/
def isHeaded (r : Reach) (heads : List String) : Bool :=
  r.shell.kind == .list && r.head.any fun h => heads.contains (String.ofList h)

/-- Whether the row is a let form with a body. -/
def isLet (r : Reach) : Bool := r.isHeaded ["let", "let*"] && 3 ≤ r.count

/-- Whether an element at this place is the bindings of a let form. -/
def atBindings (r : Reach) : Bool := r.isLet && r.seen == 1

end Reach

/-- The place of a gap. -/
inductive Spot where
  | inRow (r : Reach) (next : Next)
  /-- After a quote mark, which quotes something or not. -/
  | afterQuote (quotes : Bool)

namespace Spot

/-- What follows the gap. -/
def next : Spot → Next
  | inRow _ next => next
  | afterQuote true => .form true false
  | afterQuote false => .nothing

/-- Whether the gap is in no aggregate but the root. -/
def atRoot : Spot → Bool
  | inRow r _ => r.shell == .root
  | afterQuote _ => false

end Spot

mutual

/-- Put its place next to every gap of a form. -/
def Form.annotate (breaks : γ → Bool) (isBindings : Bool) : Form γ → Form (Spot × γ)
  | .word w => .word w
  | .stray b => .stray b
  | .str raw closed => .str raw closed
  | .comment text => .comment text
  | .group b row closed =>
    .group b (row.annotate breaks (.start (.group b closed) isBindings row)) closed
  | .quoted gap form => .quoted (.afterQuote true, gap) (form.annotate breaks false)
  | .bareQuote gap => .bareQuote (.afterQuote false, gap)

/-- Put its place next to every gap of a row, of which some part has been passed. -/
def Row.annotate (breaks : γ → Bool) (r : Reach) : Row γ → Row (Spot × γ)
  | .last gap => .last (.inRow r r.shell.next, gap)
  | .item gap form rest =>
    .item (.inRow r form.next, gap) (form.annotate breaks r.atBindings)
      (rest.annotate breaks (r.after form.isElement (form.spans breaks)))

end

/-! ## Only the forms decide -/

mutual

/-- Annotating changes nothing else. -/
theorem Form.map_snd_annotate (breaks : γ → Bool) : ∀ (f : Form γ) (isBindings : Bool),
    (f.annotate breaks isBindings).map Prod.snd = f
  | .word _, _ | .stray _, _ | .str .., _ | .comment _, _ | .bareQuote _, _ => rfl
  | .group b row closed, isBindings => by
    simp [Form.map, Form.annotate, row.map_snd_annotate breaks]
  | .quoted gap form, isBindings => by
    simp [Form.map, Form.annotate, form.map_snd_annotate breaks]

theorem Row.map_snd_annotate (breaks : γ → Bool) : ∀ (row : Row γ) (r : Reach),
    (row.annotate breaks r).map Prod.snd = row
  | .last gap, r => rfl
  | .item gap form rest, r => by
    simp [Row.map, Row.annotate, form.map_snd_annotate breaks, rest.map_snd_annotate breaks]

end

namespace Form

@[simp] theorem isElement_map (φ : γ → δ) (f : Form γ) : (f.map φ).isElement = f.isElement := by
  cases f <;> rfl

@[simp] theorem next_map (φ : γ → δ) (f : Form γ) : (f.map φ).next = f.next := by
  cases f <;> rfl

@[simp] theorem atomText?_map (φ : γ → δ) (f : Form γ) : (f.map φ).atomText? = f.atomText? := by
  cases f <;> rfl

@[simp] theorem isElement_annotate (breaks : γ → Bool) (isBindings : Bool) (f : Form γ) :
    (f.annotate breaks isBindings).isElement = f.isElement := by
  rw [← isElement_map Prod.snd, map_snd_annotate]

@[simp] theorem next_annotate (breaks : γ → Bool) (isBindings : Bool) (f : Form γ) :
    (f.annotate breaks isBindings).next = f.next := by
  rw [← next_map Prod.snd, map_snd_annotate]

end Form

namespace Row

theorem head?_map (φ : γ → δ) (row : Row γ) : (row.map φ).head? = row.head? := by
  cases row with
  | last _ => rfl
  | item gap form rest => simp [Row.map, head?, head?_map φ rest]

theorem count_map (φ : γ → δ) (row : Row γ) : (row.map φ).count = row.count := by
  cases row with
  | last _ => rfl
  | item gap form rest => simp [Row.map, count, count_map φ rest]

end Row

@[simp] theorem Reach.start_map (shell : Shell) (isBindings : Bool) (φ : γ → δ) (row : Row γ) :
    Reach.start shell isBindings (row.map φ) = .start shell isBindings row := by
  rw [start, start, Row.head?_map, Row.count_map]

@[simp] theorem Reach.start_annotate (shell : Shell) (isBindings : Bool) (breaks : γ → Bool)
    (r : Reach) (row : Row γ) :
    Reach.start shell isBindings (row.annotate breaks r) = .start shell isBindings row := by
  rw [← start_map shell isBindings Prod.snd, Row.map_snd_annotate]

mutual

theorem Form.spans_map (φ : γ → δ) (breaks : δ → Bool) :
    ∀ f : Form γ, (f.map φ).spans breaks = f.spans (breaks ∘ φ)
  | .word _ | .stray _ | .str .. | .comment _ | .bareQuote _ => rfl
  | .group b row closed => row.spans_map φ breaks
  | .quoted gap form => by simp [Form.map, Form.spans, form.spans_map φ breaks]

theorem Row.spans_map (φ : γ → δ) (breaks : δ → Bool) :
    ∀ r : Row γ, (r.map φ).spans breaks = r.spans (breaks ∘ φ)
  | .last _ => rfl
  | .item gap form rest => by
    simp [Row.map, Row.spans, form.spans_map φ breaks, rest.spans_map φ breaks]

end

theorem Form.spans_annotate (breaks other : γ → Bool) (f : Form γ) (isBindings : Bool) :
    (f.annotate breaks isBindings).spans (other ∘ Prod.snd) = f.spans other := by
  rw [← Form.spans_map, Form.map_snd_annotate]

mutual

/-- Changing gaps does not change places. -/
theorem Form.annotate_map (φ : γ → δ) (breaks : δ → Bool) : ∀ (f : Form γ) (isBindings : Bool),
    (f.map φ).annotate breaks isBindings =
      (f.annotate (breaks ∘ φ) isBindings).map (Prod.map id φ)
  | .word _, _ | .stray _, _ | .str .., _ | .comment _, _ | .bareQuote _, _ => rfl
  | .group b row closed, isBindings => by
    simp [Form.map, Form.annotate, row.annotate_map φ breaks]
  | .quoted gap form, isBindings => by
    simp [Form.map, Form.annotate, form.annotate_map φ breaks]

theorem Row.annotate_map (φ : γ → δ) (breaks : δ → Bool) : ∀ (row : Row γ) (r : Reach),
    (row.map φ).annotate breaks r = (row.annotate (breaks ∘ φ) r).map (Prod.map id φ)
  | .last gap, r => rfl
  | .item gap form rest, r => by
    simp [Row.map, Row.annotate, form.annotate_map φ breaks, rest.annotate_map φ breaks,
      Form.spans_map]

end

/-! ## Forms that know the places of their gaps -/

mutual

/-- Whether the places of the gaps of a form are what some function says they are. -/
def Form.Placed (spot : γ → Spot) (breaks : γ → Bool) (isBindings : Bool) : Form γ → Prop
  | .group b row closed => row.Placed spot breaks (.start (.group b closed) isBindings row)
  | .quoted gap form => spot gap = .afterQuote true ∧ form.Placed spot breaks false
  | .bareQuote gap => spot gap = .afterQuote false
  | _ => True

/-- Whether the places of the gaps of a row are what some function says they are. -/
def Row.Placed (spot : γ → Spot) (breaks : γ → Bool) (r : Reach) : Row γ → Prop
  | .last gap => spot gap = .inRow r r.shell.next
  | .item gap form rest =>
    spot gap = .inRow r form.next ∧ form.Placed spot breaks r.atBindings ∧
      rest.Placed spot breaks (r.after form.isElement (form.spans breaks))

end

mutual

theorem Form.placed_annotate (breaks : γ → Bool) : ∀ (f : Form γ) (isBindings : Bool),
    (f.annotate breaks isBindings).Placed Prod.fst (breaks ∘ Prod.snd) isBindings
  | .word _, _ | .stray _, _ | .str .., _ | .comment _, _ => trivial
  | .bareQuote _, _ => rfl
  | .group b row closed, isBindings => by
    have hrow := row.placed_annotate breaks (.start (.group b closed) isBindings row)
    rwa [Form.annotate, Form.Placed, Reach.start_annotate]
  | .quoted gap form, _ => ⟨rfl, form.placed_annotate breaks false⟩

theorem Row.placed_annotate (breaks : γ → Bool) : ∀ (row : Row γ) (r : Reach),
    (row.annotate breaks r).Placed Prod.fst (breaks ∘ Prod.snd) r
  | .last _, _ => rfl
  | .item gap form rest, r => by
    have hrest := rest.placed_annotate breaks (r.after form.isElement (form.spans breaks))
    rw [Row.annotate, Row.Placed, Form.next_annotate, Form.isElement_annotate,
      Form.spans_annotate]
    exact ⟨rfl, form.placed_annotate breaks r.atBindings, hrest⟩

end

mutual

theorem Form.placed_map (φ : γ → δ) (spot : δ → Spot) (breaks : δ → Bool) :
    ∀ (f : Form γ) (isBindings : Bool),
      (f.map φ).Placed spot breaks isBindings ↔ f.Placed (spot ∘ φ) (breaks ∘ φ) isBindings
  | .word _, _ | .stray _, _ | .str .., _ | .comment _, _ | .bareQuote _, _ => Iff.rfl
  | .group b row closed, isBindings => by
    simp only [Form.map, Form.Placed, Reach.start_map]
    exact row.placed_map φ spot breaks _
  | .quoted gap form, isBindings => by
    simp only [Form.map, Form.Placed, form.placed_map φ spot breaks]
    rfl

theorem Row.placed_map (φ : γ → δ) (spot : δ → Spot) (breaks : δ → Bool) :
    ∀ (row : Row γ) (r : Reach),
      (row.map φ).Placed spot breaks r ↔ row.Placed (spot ∘ φ) (breaks ∘ φ) r
  | .last _, _ => Iff.rfl
  | .item gap form rest, r => by
    simp only [Row.map, Row.Placed, Form.next_map, Form.isElement_map, Form.spans_map,
      form.placed_map φ spot breaks, rest.placed_map φ spot breaks]
    rfl

end

mutual

/-- Annotating a form that knows the places of its gaps adds nothing new. -/
theorem Form.annotate_of_placed {spot : γ → Spot} {breaks : γ → Bool} :
    ∀ (f : Form γ) (isBindings : Bool), f.Placed spot breaks isBindings →
      f.annotate breaks isBindings = f.map fun gap => (spot gap, gap)
  | .word _, _, _ | .stray _, _, _ | .str .., _, _ | .comment _, _, _ => rfl
  | .bareQuote gap, _, h => by
    rw [Form.annotate, Form.map, show spot gap = .afterQuote false from h]
  | .group b row closed, isBindings, h => by
    rw [Form.annotate, Form.map, row.annotate_of_placed _ h]
  | .quoted gap form, _, h => by
    rw [Form.annotate, Form.map, h.1, form.annotate_of_placed _ h.2]

theorem Row.annotate_of_placed {spot : γ → Spot} {breaks : γ → Bool} :
    ∀ (row : Row γ) (r : Reach), row.Placed spot breaks r →
      row.annotate breaks r = row.map fun gap => (spot gap, gap)
  | .last gap, r, h => by
    rw [Row.annotate, Row.map, show spot gap = .inRow r r.shell.next from h]
  | .item gap form rest, r, h => by
    obtain ⟨hgap, hform, hrest⟩ := h
    rw [Row.annotate, Row.map, hgap, form.annotate_of_placed _ hform,
      rest.annotate_of_placed _ hrest]

end

/-! ## Edits of all gaps -/

/-- What becomes of a gap, by its place. -/
abbrev Rule := Spot → Gap → Gap

/-- Edit the gaps of a form. -/
def Form.edit (breaks : Gap → Bool) (rule : Rule) (isBindings : Bool) (f : Form Gap) : Form Gap :=
  (f.annotate breaks isBindings).map fun p => rule p.1 p.2

/-- Edit the gaps of a row. -/
def Row.edit (breaks : Gap → Bool) (rule : Rule) (r : Reach) (row : Row Gap) : Row Gap :=
  (row.annotate breaks r).map fun p => rule p.1 p.2

/-- No gap takes more than one line; for edits that do not ask. -/
def never : Gap → Bool := fun _ => false

@[simp] theorem Reach.start_edit (shell : Shell) (isBindings : Bool) (breaks : Gap → Bool)
    (rule : Rule) (r : Reach) (row : Row Gap) :
    Reach.start shell isBindings (row.edit breaks rule r) = .start shell isBindings row := by
  rw [Row.edit, start_map, start_annotate]

/-- Two edits one after the other are one edit. -/
theorem Row.edit_edit (first second : Rule) (r : Reach) (row : Row Gap) :
    (row.edit never first r).edit never second r =
      row.edit never (fun s g => second s (first s g)) r := by
  have h : (never ∘ fun p : Spot × Gap => first p.1 p.2) = never ∘ Prod.snd := rfl
  rw [edit, edit, annotate_map, h, annotate_of_placed _ _ (placed_annotate never row r), map_map,
    map_map]
  rfl

end ExactLisp.Layout
