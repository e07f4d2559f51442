import ExactLisp.Proofs.Datum.Printing
import ExactLisp.Proofs.Layout.Denoting

/-!
# How deep a tree may nest

Reader and tree have one limit, but count towards it in different ways. The reader counts
the lists and quotes around a form, from none; the tree counts the aggregates around a
node, from one, and everything in a tree is a node, white space and the elements of
arrays included. So a text may be read at its last level or two and have no tree.

The layers of a row (`Row.layers`) are what the tree counts: the tree is built exactly if
they stay below the limit (`Token.ofText_eq`). For a text that is read, they are the depth
of its forms or one more (`Row.layers_of_data?`), the latter where the innermost level has
nothing but white space, or the elements of an array.
-/

namespace ExactLisp

open Datum (depths depths_le_iff)

namespace Layout

variable {γ : Type}

/-! ## Levels -/

mutual

/-- How many layers of nodes a form has. -/
def Form.layers : Form (List Blank) → Nat
  | .group _ row _ => row.layers + 1
  | .quoted _ form => form.layers + 1
  | _ => 1

/-- How many layers of nodes a row has; white space is a node as well. -/
def Row.layers : Row (List Blank) → Nat
  | .last gap => if gap.isEmpty then 0 else 1
  | .item _ form rest => max form.layers rest.layers

end

theorem Form.one_le_layers (f : Form (List Blank)) : 1 ≤ f.layers := by
  cases f <;> simp [Form.layers]

mutual

/-- A form can be read inside some open aggregates if its layers fit into what is left. -/
theorem Form.fits_iff : ∀ (f : Form (List Blank)) (level : Nat),
    f.fits level = true ↔ level + f.layers < depthLimit
  | .group _ row _, level => by
    have hrow := row.fits_iff (level + 1)
    rw [Form.fits, Bool.and_eq_true, decide_eq_true_iff, hrow, Form.layers]
    omega
  | .quoted _ form, level => by
    have hform := form.fits_iff (level + 1)
    have hone := form.one_le_layers
    rw [Form.fits, Bool.and_eq_true, decide_eq_true_iff, hform, Form.layers]
    omega
  | .word _, _ | .stray _, _ | .str .., _ | .comment _, _ | .bareQuote _, _ => decide_eq_true_iff

/-- The same for a row, which takes no level at all if nothing is in it. -/
theorem Row.fits_iff : ∀ (row : Row (List Blank)) (level : Nat),
    row.fits level = true ↔ row.layers = 0 ∨ level + row.layers < depthLimit
  | .last gap, level => by
    rw [Row.fits, Row.layers]
    cases gap <;> simp
  | .item _ form rest, level => by
    have hform := form.fits_iff level
    have hrest := rest.fits_iff level
    have hone := form.one_le_layers
    rw [Row.fits, Bool.and_eq_true, hform, hrest, Row.layers]
    omega

end

/-- **The tree of a text is built exactly if its layers stay below the limit.** -/
theorem Token.ofText_eq (text : String) :
    let row := Row.ofLexemes (Lexeme.scan .source text)
    Token.ofText text =
      if row.layers < depthLimit then .ok row.source.tree else .error Growth.tooDeep := by
  intro row
  have hlimit : 0 < depthLimit := by decide
  have hfits : row.fits 0 = true ↔ row.layers < depthLimit := by
    rw [Row.fits_iff]
    omega
  rw [Token.ofText_of_scan (Row.regular_ofLexemes _) (scan_eq_lexemes_ofLexemes text)]
  exact if_congr hfits rfl rfl

/-! ## Levels and depth -/

/-- A form that denotes a literal is a word or a string. -/
theorem Form.layers_of_literal {f : Form (List Blank)} {l : Literal}
    (h : f.datum? = some (.literal l)) : f.layers = 1 := by
  cases f with
  | word | str | stray | comment | bareQuote => rfl
  | group b row closed =>
    obtain ⟨ds, -, hd⟩ := Option.bind_eq_some_iff.mp h
    cases b with
    | round => cases hd
    | square =>
      obtain ⟨ls, -, hl⟩ := Option.map_eq_some_iff.mp hd
      cases hl
  | quoted gap form =>
    obtain ⟨d, -, hd⟩ := Option.map_eq_some_iff.mp h
    cases hd

/-- The elements of an array take one level. -/
theorem Row.layers_of_literals : ∀ {row : Row (List Blank)} {ds : List Datum},
    row.data? = some ds → (∀ d ∈ ds, ∃ l, d = .literal l) → row.layers ≤ 1
  | .last gap, _, _, _ => by
    rw [Row.layers]
    split <;> decide
  | .item gap form rest, ds, h, hl => by
    rw [Row.data?] at h
    split at h
    · obtain ⟨d, hd, htail⟩ := Option.bind_eq_some_iff.mp h
      obtain ⟨es, hes, rfl⟩ := Option.map_eq_some_iff.mp htail
      obtain ⟨⟨l, rfl⟩, hrest⟩ := List.forall_mem_cons.mp hl
      rw [Row.layers, Form.layers_of_literal hd]
      exact Nat.max_le.mpr ⟨le_rfl, rest.layers_of_literals hes hrest⟩
    next he =>
      -- a comment is not an element
      cases form with
      | comment text => exact Nat.max_le.mpr ⟨le_rfl, rest.layers_of_literals h hl⟩
      | word | stray | str | group | quoted | bareQuote => exact absurd rfl he

theorem Datum.exists_of_mapM_literal? {ds : List Datum} {ls : List Literal}
    (h : ds.mapM Datum.literal? = some ls) : ∀ d ∈ ds, ∃ l, d = .literal l := by
  induction ds generalizing ls with
  | nil => simp
  | cons d rest ih =>
    simp only [List.mapM_cons, Option.bind_eq_bind, Option.bind_eq_some_iff] at h
    obtain ⟨l, hl, ms, hms, -⟩ := h
    refine List.forall_mem_cons.mpr ⟨?_, ih hms⟩
    cases d with
    | literal m => exact ⟨m, rfl⟩
    | symbol | list | array => cases hl

mutual

/-- **The layers of a form are the depth of what it denotes, or one more.** -/
theorem Form.layers_of_datum? : ∀ {f : Form (List Blank)} {d : Datum}, f.datum? = some d →
    d.depth ≤ f.layers ∧ f.layers ≤ d.depth + 1
  | .word w, d, h => by
    cases h
    rw [Datum.depth_ofWord]
    exact ⟨le_rfl, Nat.le_succ _⟩
  | .str raw true, d, h => by
    cases h
    exact ⟨le_rfl, Nat.le_succ _⟩
  | .group .round row closed, d, h => by
    obtain ⟨ds, hds, hd⟩ := Option.bind_eq_some_iff.mp h
    cases hd
    have hrow := row.layers_of_data? hds
    exact ⟨Nat.succ_le_succ hrow.1, Nat.succ_le_succ hrow.2⟩
  | .group .square row closed, d, h => by
    obtain ⟨ds, hds, hd⟩ := Option.bind_eq_some_iff.mp h
    obtain ⟨ls, hls, rfl⟩ := Option.map_eq_some_iff.mp hd
    have hrow := Row.layers_of_literals hds (Datum.exists_of_mapM_literal? hls)
    exact ⟨Form.one_le_layers _, Nat.succ_le_succ hrow⟩
  | .quoted gap form, d, h => by
    obtain ⟨e, he, rfl⟩ := Option.map_eq_some_iff.mp h
    have hform := form.layers_of_datum? he
    rw [Datum.depth_quoting]
    exact ⟨Nat.succ_le_succ hform.1, Nat.succ_le_succ hform.2⟩
  | .str _ false, _, h | .stray _, _, h | .comment _, _, h | .bareQuote _, _, h => by cases h

/-- The same for a row and what its elements denote. -/
theorem Row.layers_of_data? : ∀ {row : Row (List Blank)} {ds : List Datum},
    row.data? = some ds → depths ds ≤ row.layers ∧ row.layers ≤ depths ds + 1
  | .last gap, ds, h => by
    cases h
    refine ⟨Nat.zero_le _, ?_⟩
    rw [Row.layers]
    split <;> simp
  | .item gap form rest, ds, h => by
    rw [Row.data?] at h
    split at h
    · obtain ⟨d, hd, htail⟩ := Option.bind_eq_some_iff.mp h
      obtain ⟨es, hes, rfl⟩ := Option.map_eq_some_iff.mp htail
      have hform := form.layers_of_datum? hd
      have hrest := rest.layers_of_data? hes
      rw [Row.layers, depths]
      omega
    next he =>
      have hrest := rest.layers_of_data? h
      cases form with
      | comment text =>
        simp only [Row.layers, Form.layers]
        omega
      | word | stray | str | group | quoted | bareQuote => exact absurd rfl he

end

/-! ## Brackets around a datum -/

/-- A datum inside so many lists. -/
def Datum.inLists : Nat → Datum → Datum
  | 0, d => d
  | n + 1, d => .list [inLists n d]

theorem Datum.depth_inLists (n : Nat) (d : Datum) : (inLists n d).depth = n + d.depth := by
  induction n with
  | zero => exact (Nat.zero_add _).symm
  | succ n ih =>
    simp only [inLists, Datum.depth, depths, ih]
    omega

theorem Datum.readable_inLists {d : Datum} (h : d.Readable) (n : Nat) :
    (inLists n d).Readable := by
  induction n with
  | zero => exact h
  | succ n ih => exact ⟨ih, trivial⟩

theorem Datum.spelling_inLists (n : Nat) (d : Datum) :
    (inLists n d).spelling = List.replicate n '(' ++ d.spelling ++ List.replicate n ')' := by
  induction n with
  | zero => simp [inLists]
  | succ n ih =>
    simp only [inLists, Datum.spelling, Datum.spellings, Datum.spaced, ih]
    rw [List.replicate_succ, List.replicate_succ']
    simp

/-- Brackets are no semicolons. -/
theorem Datum.all_lexemes_inLists {test : Lexeme → Bool} (ho : test (.opening .round) = true)
    (hc : test (.closing .round) = true) (n : Nat) (d : Datum) :
    (inLists n d).lexemes.all test = d.lexemes.all test := by
  induction n with
  | zero => rfl
  | succ n ih => simp [inLists, Datum.lexemes, Datum.lexemesAll, Datum.spacedLexemes, ho, hc, ih]

/-! ## Texts -/

/-- The layers of a text that is read are the depth of its forms, or one more. -/
theorem layers_of_readForms {limit : Nat} {text : String} {ds : List Datum}
    (hs : semicolonsInStrings text = true) (hread : Datum.readForms limit text = .ok ds) :
    depths ds ≤ (Row.ofLexemes (Lexeme.scan .source text)).layers ∧
      (Row.ofLexemes (Lexeme.scan .source text)).layers ≤ depths ds + 1 := by
  obtain ⟨-, hall, -⟩ := Datum.readForms_eq_ok_iff.mp hread
  rw [Lexeme.code, ← scan_source_of_semicolonsInStrings hs] at hall
  exact Row.layers_of_data? (data?_ofLexemes hall)

/--
**Which texts that are read have a tree.** All whose forms nest two levels less than the
limit of the tree do, and none whose forms nest as deep as that limit, which is the limit
of the reader as well. One level below it there is a tree exactly if the innermost level is
all that the text has: no white space stands alone at that depth, and no array holds
elements there.
-/
theorem exists_ofText_of_readForms {limit : Nat} {text : String} {ds : List Datum}
    (hs : semicolonsInStrings text = true) (hread : Datum.readForms limit text = .ok ds) :
    (depths ds + 2 ≤ depthLimit → ∃ t, Token.ofText text = .ok t) ∧
      (depths ds + 1 = depthLimit →
        ((∃ t, Token.ofText text = .ok t) ↔
          (Row.ofLexemes (Lexeme.scan .source text)).layers = depths ds)) ∧
      (depthLimit ≤ depths ds → Token.ofText text = .error Growth.tooDeep) := by
  obtain ⟨hlow, hhigh⟩ := layers_of_readForms hs hread
  rw [Token.ofText_eq]
  refine ⟨fun hd => ⟨_, if_pos (by omega)⟩, fun hd => ⟨fun ⟨t, ht⟩ => ?_, fun hl => ?_⟩,
    fun hd => if_neg (by omega)⟩
  · split at ht
    · omega
    · cases ht
  · exact ⟨_, if_pos (by omega)⟩

/-- For instance an array and white space in brackets, inside brackets. -/
theorem exists_ofText_of_array :
    semicolonsInStrings "([1] ( ))" = true ∧
      Datum.readForms 2 "([1] ( ))" =
        .ok [.list [.array [.number (.int 1)], .list []]] ∧
      ∃ t, Token.ofText "([1] ( ))" = .ok t := by
  have hs : semicolonsInStrings "([1] ( ))" = true := by decide
  have hread : Datum.readForms 2 "([1] ( ))" =
      .ok [.list [.array [.number (.int 1)], .list []]] := by rfl
  exact ⟨hs, hread, (exists_ofText_of_readForms hs hread).1 (by decide)⟩

/--
A number inside 511 pairs of brackets is read under the limit of 512 levels, and there is no
tree of it.
-/
theorem read_ok_ofText_error :
    let text := String.ofList (List.replicate 511 '(' ++ '1' :: List.replicate 511 ')')
    (∃ d, Datum.read text = .ok d) ∧ ¬ ∃ t, Token.ofText text = .ok t := by
  intro text
  let d := Datum.inLists 511 (.literal (.number (.int 1)))
  have hreadable : d.Readable :=
    Datum.readable_inLists (d := .literal (.number (.int 1))) trivial 511
  have hdepth : d.depth = 512 := Datum.depth_inLists ..
  have htext : d.text = text := by
    rw [Datum.text, Datum.spelling_inLists, List.append_assoc]
    rfl
  have hread : Datum.readForms Datum.defaultLimit text = .ok [d] := by
    rw [← htext]
    exact Datum.readForms_of_derives (Datum.derives_code_text hreadable) hdepth.le
  have hs : semicolonsInStrings text = true := by
    rw [← htext, semicolonsInStrings, Datum.scan_text (Datum.wellSpelled_lexemes hreadable)]
    exact (Datum.all_lexemes_inLists rfl rfl 511 _).trans (by decide)
  have hlow : depthLimit ≤ (Row.ofLexemes (Lexeme.scan .source text)).layers := by
    have hd : depths [d] = depthLimit := by rw [depths, hdepth]; rfl
    exact hd ▸ (layers_of_readForms hs hread).1
  refine ⟨⟨d, ?_⟩, ?_⟩
  · rw [Datum.read, Datum.readWithin, hread]
    rfl
  · rintro ⟨t, ht⟩
    rw [Token.ofText_eq, if_neg (Nat.not_lt.mpr hlow)] at ht
    cases ht

end Layout

end ExactLisp
