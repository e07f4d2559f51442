import ExactLisp.Layout.Characters
import ExactLisp.Proofs.Layout.Regular
import ExactLisp.Proofs.Layout.Spot

/-!
# A pass over the tree of a row

A pass is shown an aggregate before what is in it, so its edit of the children of one
aggregate is all there is to say about it. `Realizes` says it: the edit does to the
gaps of one row what a rule says, and touches the forms in it only to prepare one
for what the rule does there anyway. From that, walking the whole tree is applying
the rule to all gaps (`Realizes.walk_tree`).
-/

namespace ExactLisp.Layout

variable {γ δ : Type}

/-! ## Brackets that close nothing -/

mutual

/-- Whether no bracket in a form that closes nothing could have closed a group. -/
def Form.Matched : Form γ → Prop
  | .group b row _ => row.Matched (some b)
  | .quoted _ form => form.Matched
  | _ => True

/-- Whether no bracket in a row that closes nothing could have closed a group or the row. -/
def Row.Matched (own : Option Bracket) : Row γ → Prop
  | .last _ => True
  | .item _ form rest =>
    form.Matched ∧ (∀ b, own = some b → form.isStray b = false) ∧ rest.Matched own

end

theorem Form.isStray_map (φ : γ → δ) (b : Bracket) (f : Form γ) :
    (f.map φ).isStray b = f.isStray b := by
  cases f <;> rfl

mutual

theorem Form.matched_map (φ : γ → δ) : ∀ f : Form γ, (f.map φ).Matched ↔ f.Matched
  | .word _ | .stray _ | .str .. | .comment _ | .bareQuote _ => Iff.rfl
  | .group b row _ => row.matched_map φ (some b)
  | .quoted _ form => form.matched_map φ

theorem Row.matched_map (φ : γ → δ) : ∀ (row : Row γ) (own : Option Bracket),
    (row.map φ).Matched own ↔ row.Matched own
  | .last _, _ => Iff.rfl
  | .item gap form rest, own => by
    simp only [Row.map, Row.Matched, form.matched_map φ, rest.matched_map φ own,
      Form.isStray_map]

end

mutual

theorem Form.matched_of_regular {empty : γ → Prop} : ∀ f : Form γ, f.Regular empty → f.Matched
  | .word _, _ | .stray _, _ | .str .., _ | .comment _, _ | .bareQuote _, _ => trivial
  | .group b row closed, h => row.matched_of_regular (some b) (!closed) h
  | .quoted _ form, h => form.matched_of_regular h.2

theorem Row.matched_of_regular {empty : γ → Prop} : ∀ (row : Row γ) (own : Option Bracket)
    (atEnd : Bool), row.Regular empty own atEnd → row.Matched own
  | .last _, _, _, _ => trivial
  | .item _ form rest, own, atEnd, h => by
    obtain ⟨hform, hstray, -, -, hrest⟩ := h
    exact ⟨form.matched_of_regular hform, hstray, rest.matched_of_regular own atEnd hrest⟩

end

theorem Row.matched_edit (breaks : Gap → Bool) (rule : Rule) (r : Reach) (row : Row Gap)
    (own : Option Bracket) : (row.edit breaks rule r).Matched own ↔ row.Matched own := by
  rw [Row.edit, Row.matched_map, ← Row.matched_map Prod.snd, Row.map_snd_annotate]

/-! ## One row at a time -/

namespace Shell

/-- The opening delimiter as nodes. -/
def openerTokens : Shell → List Token
  | root => []
  | group b _ => [.char b.openChar]

/-- The closing delimiter as nodes, if it is there. -/
def closerTokens : Shell → List Token
  | root => []
  | group b closed => Layout.closerTokens b closed

/-- Nodes between their delimiters. -/
def enclose (shell : Shell) (ts : List Token) : List Token :=
  shell.openerTokens ++ ts ++ shell.closerTokens

end Shell

theorem Form.token_group (b : Bracket) (row : Row Gap) (closed : Bool) :
    (Form.group b row closed).token =
      .aggregate (.ofBracket b) ((Shell.group b closed).enclose row.tokens) := by
  simp [Form.token, Shell.enclose, Shell.openerTokens, Shell.closerTokens]

/-- What an edit does to a row in advance when it edits the row around it. -/
abbrev Prepare := Shell → Row Gap → Row Gap

/-- Edit a form in advance. -/
def Form.prepare (prepare : Prepare) : Form Gap → Form Gap
  | .group b row closed => .group b (prepare (.group b closed) row) closed
  | f => f

/-- Only groups are edited in advance. -/
theorem Form.prepared_eq_self {prepare : Prepare} {f : Form Gap} (h : f.prepare prepare = f)
    (isBindings : Bool) : (if isBindings then f.prepare prepare else f) = f := by
  rw [h, ite_self]

/-- Nothing is done in advance. -/
def leave : Prepare := fun _ row => row

theorem Form.prepare_leave (f : Form Gap) : f.prepare leave = f := by
  cases f <;> rfl

/-- Edit the gaps of a row itself, and of the forms in it only the bindings in advance. -/
def Row.editOwn (breaks : Gap → Bool) (rule : Rule) (prepare : Prepare) (r : Reach) :
    Row Gap → Row Gap
  | .last gap => .last (rule (.inRow r r.shell.next) gap)
  | .item gap form rest =>
    .item (rule (.inRow r form.next) gap)
      (if r.atBindings then form.prepare prepare else form)
      (rest.editOwn breaks rule prepare (r.after form.isElement (form.spans breaks)))

/-- That an edit of children does to every row what a rule says. -/
structure Realizes (edit : Kind → List Token → List Token) (breaks : Gap → Bool) (rule : Rule)
    (prepare : Prepare) : Prop where
  /-- Strings and comments are left alone. -/
  verbatim : ∀ kind, kind.isVerbatim = true → ∀ ts, edit kind ts = ts
  inRow : ∀ (shell : Shell) (isBindings : Bool) (row : Row Gap), row.Matched shell.own →
    edit shell.kind (shell.enclose (if isBindings then prepare shell row else row).tokens) =
      shell.enclose (row.editOwn breaks rule prepare (.start shell isBindings row)).tokens
  quoted : ∀ (gap : Gap) (form : Form Gap),
    edit .quote (.char quoteMark :: (gapTokens gap ++ [form.token])) =
      .char quoteMark :: (gapTokens (rule (.afterQuote true) gap) ++ [form.token])
  bareQuote : ∀ gap : Gap,
    edit .quote (.char quoteMark :: gapTokens gap) =
      .char quoteMark :: gapTokens (rule (.afterQuote false) gap)

/-! ## The whole tree -/

namespace Pass

theorem walkWithin_atom (edit : Kind → List Token → List Token) (levels : Nat)
    (parent : Option Kind) (depth : Nat) (text : List Char) (lineBreak : Bool) :
    walkWithin (ofChildren edit) levels parent depth (.atom text lineBreak) =
      .atom text lineBreak := by
  cases levels <;> rfl

theorem walkWithin_gapTokens (edit : Kind → List Token → List Token) (levels : Nat)
    (parent : Option Kind) (depth : Nat) (gap : Gap) :
    (gapTokens gap).map (walkWithin (ofChildren edit) levels parent depth) = gapTokens gap := by
  rw [gapTokens, List.map_map]
  refine List.map_congr_left fun m _ => ?_
  cases m <;> exact walkWithin_atom ..

theorem walkWithin_openerTokens (edit : Kind → List Token → List Token) (levels : Nat)
    (parent : Option Kind) (depth : Nat) (shell : Shell) :
    shell.openerTokens.map (walkWithin (ofChildren edit) levels parent depth) =
      shell.openerTokens := by
  cases shell with
  | root => rfl
  | group => exact congrArg (fun t => [t]) (walkWithin_atom ..)

theorem walkWithin_closerTokens (edit : Kind → List Token → List Token) (levels : Nat)
    (parent : Option Kind) (depth : Nat) (shell : Shell) :
    shell.closerTokens.map (walkWithin (ofChildren edit) levels parent depth) =
      shell.closerTokens := by
  cases shell with
  | root => rfl
  | group b closed =>
    cases closed with
    | false => rfl
    | true => exact congrArg (fun t => [t]) (walkWithin_atom ..)

/-- A pass leaves an aggregate alone whose children it does not edit and that holds atoms. -/
theorem walkWithin_atoms {edit : Kind → List Token → List Token} {kind : Kind}
    {children : List Token} (he : edit kind children = children)
    (ha : ∀ t ∈ children, ∃ text lineBreak, t = .atom text lineBreak) (levels : Nat)
    (parent : Option Kind) (depth : Nat) :
    walkWithin (ofChildren edit) levels parent depth (.aggregate kind children) =
      .aggregate kind children := by
  cases levels with
  | zero => rfl
  | succ levels =>
    rw [walkWithin]
    simp only [ofChildren, he]
    congr 1
    conv_rhs => rw [← List.map_id children]
    refine List.map_congr_left fun t ht => ?_
    obtain ⟨text, lineBreak, rfl⟩ := ha t ht
    exact walkWithin_atom ..

end Pass

mutual

/-- The number of levels of groups and quotes. -/
def Form.levels : Form γ → Nat
  | .group _ row _ => row.levels + 1
  | .quoted _ form => form.levels + 1
  | .bareQuote _ => 1
  | _ => 0

/-- The number of levels of groups and quotes in a row. -/
def Row.levels : Row γ → Nat
  | .last _ => 0
  | .item _ form rest => max form.levels rest.levels

end

theorem one_le_height (t : Token) : 1 ≤ t.height := by
  cases t with
  | atom => exact Nat.le_refl 1
  | aggregate => exact Nat.le_add_left ..

theorem heights_append (ts us : List Token) :
    Token.heights (ts ++ us) = max (Token.heights ts) (Token.heights us) := by
  induction ts with
  | nil =>
    have h : 1 ≤ Token.heights us := by
      cases us with
      | nil => exact Nat.le_refl 1
      | cons u rest => exact Nat.le_trans (one_le_height u) (Nat.le_max_left ..)
    simp [Token.heights, h]
  | cons t rest ih => simp [Token.heights, ih, Nat.max_assoc]

mutual

theorem Form.levels_le_height : ∀ f : Form Gap, f.levels ≤ f.token.height
  | .word _ | .stray _ | .str .. | .comment _ => Nat.zero_le _
  | .bareQuote _ => Nat.le_add_left ..
  | .group b row closed => by
    have h := row.levels_le_heights
    rw [Form.token_group, Token.height, Shell.enclose, heights_append, heights_append, Form.levels]
    omega
  | .quoted gap form => by
    have h := form.levels_le_height
    simp only [Form.token, Token.height, Token.heights, heights_append, Form.levels]
    omega

theorem Row.levels_le_heights : ∀ row : Row Gap, row.levels ≤ Token.heights row.tokens
  | .last _ => Nat.zero_le _
  | .item gap form rest => by
    have h1 := form.levels_le_height
    have h2 := rest.levels_le_heights
    rw [Row.tokens, heights_append, Token.heights, Row.levels]
    omega

end

section
variable {edit : Kind → List Token → List Token} {breaks : Gap → Bool} {rule : Rule}
  {prepare : Prepare}

open Pass

mutual

/-- A pass over a form, which may have been edited in advance, edits all gaps in it. -/
theorem Form.walkWithin_token (h : Realizes edit breaks rule prepare) :
    ∀ (f : Form Gap) (isBindings : Bool) (levels : Nat) (parent : Option Kind) (depth : Nat),
      f.Matched → f.levels ≤ levels →
        walkWithin (ofChildren edit) levels parent depth
            (if isBindings then f.prepare prepare else f).token =
          (f.edit breaks rule isBindings).token
  | .word w, isBindings, levels, parent, depth, _, _ => by
    rw [Form.prepared_eq_self rfl]
    exact walkWithin_atom ..
  | .stray b, isBindings, levels, parent, depth, _, _ => by
    rw [Form.prepared_eq_self rfl]
    exact walkWithin_atom ..
  | .str raw closed, isBindings, levels, parent, depth, _, _ => by
    rw [Form.prepared_eq_self rfl]
    exact walkWithin_atoms (h.verbatim .str rfl _)
      (fun t ht => (plain_of_mem_stringToken rfl t ht).imp fun _ he => ⟨_, he⟩) levels parent depth
  | .comment text, isBindings, levels, parent, depth, _, _ => by
    rw [Form.prepared_eq_self rfl]
    exact walkWithin_atoms (h.verbatim .comment rfl _)
      (fun t ht => (plain_of_mem_commentToken rfl t ht).imp fun _ he => ⟨_, he⟩) levels parent depth
  | .group b row closed, isBindings, levels, parent, depth, hm, hl => by
    obtain ⟨levels, rfl⟩ : ∃ n, levels = n + 1 := ⟨levels - 1, by simp [Form.levels] at hl; omega⟩
    -- the own gaps of the row are edited first, and the forms in it when the pass comes to them
    have hown := h.inRow (.group b closed) isBindings row hm
    have hrow := Row.walkWithin_tokens h row (.start (.group b closed) isBindings row) levels
      (some (.ofBracket b)) (depth + 1) hm (by simp [Form.levels] at hl; omega)
    have hprep : (if isBindings then (Form.group b row closed).prepare prepare
          else .group b row closed) =
        .group b (if isBindings then prepare (.group b closed) row else row) closed := by
      cases isBindings <;> rfl
    have hedit : (Form.group b row closed).edit breaks rule isBindings =
        .group b (row.edit breaks rule (.start (.group b closed) isBindings row)) closed := rfl
    rw [hprep, hedit, Form.token_group, Form.token_group, walkWithin, ofChildren]
    simp only [Shell.kind] at hown
    rw [hown]
    simp only [Shell.enclose, List.map_append, walkWithin_openerTokens, walkWithin_closerTokens,
      hrow]
  | .quoted gap form, isBindings, levels, parent, depth, hm, hl => by
    obtain ⟨levels, rfl⟩ : ∃ n, levels = n + 1 := ⟨levels - 1, by simp [Form.levels] at hl; omega⟩
    -- what is quoted is never the bindings of a let form
    have hform := Form.walkWithin_token h form false levels (some .quote) (depth + 1) hm
      (by simp [Form.levels] at hl; omega)
    rw [Form.prepared_eq_self rfl, Form.token, walkWithin, ofChildren, h.quoted]
    simp only [List.map_cons, List.map_append, List.map_nil, walkWithin_gapTokens]
    rw [if_neg (by simp)] at hform
    rw [hform]
    simp only [Token.char, Token.plain, walkWithin_atom]
    rfl
  | .bareQuote gap, isBindings, levels, parent, depth, _, hl => by
    obtain ⟨levels, rfl⟩ : ∃ n, levels = n + 1 := ⟨levels - 1, by simp [Form.levels] at hl; omega⟩
    rw [Form.prepared_eq_self rfl, Form.token, walkWithin, ofChildren, h.bareQuote]
    simp only [List.map_cons, walkWithin_gapTokens, Token.char, Token.plain, walkWithin_atom]
    rfl

/-- A pass over the forms of a row whose own gaps have been edited edits all other gaps. -/
theorem Row.walkWithin_tokens (h : Realizes edit breaks rule prepare) :
    ∀ (row : Row Gap) (r : Reach) (levels : Nat) (parent : Option Kind) (depth : Nat),
      row.Matched r.shell.own → row.levels ≤ levels →
        (row.editOwn breaks rule prepare r).tokens.map
            (walkWithin (ofChildren edit) levels parent depth) =
          (row.edit breaks rule r).tokens
  | .last gap, r, levels, parent, depth, _, _ => walkWithin_gapTokens ..
  | .item gap form rest, r, levels, parent, depth, hm, hl => by
    rw [Row.levels] at hl
    have hform := Form.walkWithin_token h form r.atBindings levels parent depth hm.1 (by omega)
    have hrest := Row.walkWithin_tokens h rest (r.after form.isElement (form.spans breaks)) levels
      parent depth hm.2.2 (by omega)
    rw [Row.editOwn, Row.tokens, List.map_append, List.map_cons, walkWithin_gapTokens, hform,
      hrest]
    rfl

end

/-- **A pass over the tree of a row** applies its rule to all gaps. -/
theorem Realizes.walk_tree (h : Realizes edit breaks rule prepare) {row : Row Gap}
    (hm : row.Matched none) :
    walk (ofChildren edit) row.tree = (row.edit breaks rule (.start .root false row)).tree := by
  have hown := h.inRow .root false row hm
  have hrow := Row.walkWithin_tokens h row (.start .root false row) (Token.heights row.tokens)
    (some .root) 1 hm row.levels_le_heights
  simp only [Shell.kind, Shell.enclose, Shell.openerTokens, Shell.closerTokens, List.nil_append,
    List.append_nil, Bool.false_eq_true, if_false] at hown
  rw [walk, Row.tree, Token.height, walkWithin, ofChildren, hown]
  simp only [hrow]
  rfl

end

end ExactLisp.Layout
