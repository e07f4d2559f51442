import ExactLisp.Layout.Format
import ExactLisp.Proofs.Layout.Reading
import ExactLisp.Proofs.Layout.Rendering

/-!
# What formatting does to a text

All passes together change each gap of a text by its place: the first six at once
(`arranged`), and the last one when it is known which elements take several lines
then. So a formatted text is the text of the row of the source with other blanks for
gaps (`format_of_scan`), where the blanks are those that the writer makes of what the
passes have made of the gap.
-/

namespace ExactLisp.Layout

/-! ## The passes together -/

/-- What the first six passes make of a gap. -/
def arranged : Rule := fun s gap =>
  Breaker.comments.rule s <| Breaker.lambdas.rule s <| Breaker.sequences.rule s <|
    Breaker.conditionals.rule s <| letRule s <| spaced s gap

/-- The standard passes over the tree of a row change its gaps by their places. -/
theorem runAll_standard {row : Row Gap} (hm : row.Matched none) :
    Pass.runAll Pass.standard row.tree =
      ((row.edit never arranged (.start .root false row)).edit endsLine
        Breaker.continuations.rule (.start .root false row)).tree := by
  let r : Reach := .start .root false row
  have step : ∀ {edit : Kind → List Token → List Token} {breaks : Gap → Bool} {rule : Rule}
      {prepare : Prepare}, Realizes edit breaks rule prepare → ∀ other : Row Gap,
        other.Matched none → Reach.start .root false other = r →
          Pass.walk (Pass.ofChildren edit) other.tree = (other.edit breaks rule r).tree ∧
            (other.edit breaks rule r).Matched none ∧
              Reach.start .root false (other.edit breaks rule r) = r := by
    intro edit breaks rule prepare h other hother hstart
    refine ⟨?_, (other.matched_edit breaks rule r none).mpr hother, ?_⟩
    · rw [h.walk_tree hother, hstart]
    · rw [Reach.start_edit, hstart]
  obtain ⟨h1, hm1, hr1⟩ := step realizes_spacing row hm rfl
  obtain ⟨h2, hm2, hr2⟩ := step realizes_letForms _ hm1 hr1
  obtain ⟨h3, hm3, hr3⟩ := step realizes_conditionals _ hm2 hr2
  obtain ⟨h4, hm4, hr4⟩ := step realizes_sequences _ hm3 hr3
  obtain ⟨h5, hm5, hr5⟩ := step realizes_lambdas _ hm4 hr4
  obtain ⟨h6, hm6, hr6⟩ := step realizes_comments _ hm5 hr5
  obtain ⟨h7, -, -⟩ := step realizes_continuations _ hm6 hr6
  have hrun : Pass.runAll Pass.standard row.tree =
      Pass.walk (Pass.ofChildren breakContinuations) (Pass.walk (Pass.ofChildren breakComments)
        (Pass.walk (Pass.ofChildren (whenHeaded ["lambda"] breakLambda))
          (Pass.walk (Pass.ofChildren (whenHeaded ["progn"] breakSequence))
            (Pass.walk (Pass.ofChildren (whenHeaded ["if"] breakConditional))
              (Pass.walk (Pass.ofChildren (whenHeaded ["let", "let*"] breakLet))
                (Pass.walk (Pass.ofChildren spaceOut) row.tree)))))) := by
    simp only [Pass.runAll, Pass.standard, List.foldl_cons, List.foldl_nil, Pass.spacing,
      Pass.letForms, Pass.conditionals, Pass.sequences, Pass.lambdas, Pass.comments,
      Pass.continuations]
  rw [hrun, h1, h2, h3, h4, h5, h6, h7, Row.edit_edit, Row.edit_edit, Row.edit_edit,
    Row.edit_edit, Row.edit_edit]
  rfl

/-! ## Sites -/

/--
A gap of a source with its place, and again with its place where it is known whether
the element before takes several lines.
-/
abbrev Site := Spot × (Spot × Gap)

namespace Site

/-- The gap after the first six passes. -/
def arranged (l : Site) : Gap := Layout.arranged l.2.1 l.2.2

/-- The gap after all passes. -/
def final (l : Site) : Gap := Breaker.continuations.rule l.1 l.arranged

end Site

/-- The sites of all gaps of a source. -/
def Row.sites (row : Row Gap) : Row Site :=
  (row.annotate never (.start .root false row)).annotate
    (fun p => endsLine (arranged p.1 p.2)) (.start .root false row)

theorem runAll_standard_sites {row : Row Gap} (hm : row.Matched none) :
    Pass.runAll Pass.standard row.tree = (row.sites.map Site.final).tree := by
  rw [runAll_standard hm, Row.edit, Row.edit, Row.annotate_map, Row.map_map]
  rfl

/-- The sites of a row are its gaps with something added to them. -/
theorem Row.map_gap_sites (row : Row Gap) : row.sites.map (fun l => l.2.2) = row := by
  have hfirst : row.sites.map Prod.snd = row.annotate never (.start .root false row) :=
    Row.map_snd_annotate ..
  have hsecond := Row.map_snd_annotate never row (.start .root false row)
  rw [← hfirst, Row.map_map] at hsecond
  exact hsecond

theorem Row.matched_sites {row : Row Gap} : row.sites.Matched none ↔ row.Matched none := by
  rw [← Row.matched_map (fun l : Site => l.2.2) row.sites, map_gap_sites]

/-- **A formatted text**, unless it nests too deeply, is that of the row of the source. -/
theorem format_of_scan {text : String} {row : Row (List Blank)}
    (hr : row.Regular Row.IsEmpty none true) (hs : Lexeme.scan .source text = row.lexemes id) :
    format text =
      if row.fits 0 then String.ofList (row.source.sites.render Site.final .root 0 0).text
      else text := by
  have hm : row.source.Matched none :=
    (row.matched_map ofBlanks none).mpr (row.matched_of_regular none true hr)
  rw [format, formatWith, treeWith, Token.ofText_of_scan hr hs]
  cases row.fits 0 with
  | true =>
    show (Pass.runAll Pass.standard row.source.tree).write = _
    rw [if_pos rfl, runAll_standard_sites hm]
    exact Row.write_tree Site.final (Row.matched_sites.mpr hm)
  | false => rfl

end ExactLisp.Layout
