import ExactLisp.Proofs.Layout.Kept

/-!
# Formatting a formatted text

When a formatted text is formatted again, its forms are the same. Each gap is read
again as some blanks (`Reread`), in most places those that were written for it. A gap is
*settled* if the second run does with them what the first did with the source. If all
gaps are, all are where they were: an element takes several lines after the first
passes now if it did in the end before, and the last pass adds line breaks only to forms
that take several lines without them (`Form.spans_isFinal`). So the same text is written
(`Row.text_reread`).
-/

namespace ExactLisp.Layout

variable {γ : Type}

/-! ## Elements that take several lines -/

namespace Laid

/-- Whether the gap takes several lines in the end. -/
def isFinal (p : Laid) : Bool := endsLine (finished p.spot p.source)

theorem Valid.arranged_eq {p : Laid} (hv : p.Valid) (gap : Gap) :
    Layout.arranged p.1.2.1 gap = Layout.arranged p.spot gap := by
  rw [← arranged_forget, ← hv.forget, arranged_forget]

theorem Valid.plain {p : Laid} (hv : p.Valid) : Plain p.source := by
  obtain ⟨blanks, hb⟩ := hv.source
  rw [hb]
  exact plain_ofBlanks blanks

/-- The last pass adds line breaks only after elements that take several lines. -/
theorem Valid.isFinal_inRow {p : Laid} (hv : p.Valid) {r : Reach} {next : Next}
    (hs : p.spot = .inRow r next) :
    p.isFinal = (p.isLong || (Breaker.continuations r next []).isSome) := by
  have hfinished := endsLine_finished p.spot p.source hv.plain
  rw [← hv.arranged_eq] at hfinished
  rw [isFinal, hfinished, hs]
  rfl

theorem Valid.isFinal_afterQuote {p : Laid} (hv : p.Valid) {quotes : Bool}
    (hs : p.spot = .afterQuote quotes) : p.isFinal = p.isLong := by
  have hfinished := endsLine_finished p.spot p.source hv.plain
  rw [← hv.arranged_eq] at hfinished
  rw [isFinal, hfinished, hs]
  exact Bool.or_false _

end Laid

theorem afterLong_of_continuations {r : Reach} {next : Next}
    (h : (Breaker.continuations r next []).isSome = true) : r.afterLong = true := by
  rcases next with ⟨_ | _, _⟩ | _ | _
  · cases h
  · cases hl : r.afterLong with
    | true => rfl
    | false => simp [Breaker.continuations, hl] at h
  · cases h
  · cases h

mutual

/-- The last pass makes no form longer than a line that was not so before. -/
theorem Form.spans_isFinal : ∀ (f : Form Laid) (isBindings : Bool),
    f.Placed Laid.spot Laid.isLong isBindings → f.All Laid.Valid →
      f.spans Laid.isFinal = f.spans Laid.isLong
  | .word _, _, _, _ => rfl
  | .stray _, _, _, _ => rfl
  | .str .., _, _, _ => rfl
  | .comment _, _, _, _ => rfl
  | .bareQuote _, _, hp, hv => Laid.Valid.isFinal_afterQuote hv hp
  | .group b row closed, isBindings, hp, hv =>
    row.spans_isFinal (.start (.group b closed) isBindings row) false hp hv fun h => by cases h
  | .quoted gap form, _, hp, hv => by
    rw [Form.spans, Form.spans, Laid.Valid.isFinal_afterQuote hv.1 hp.1,
      form.spans_isFinal false hp.2 hv.2]

/-- In a row that is known to take several lines the last pass may add some. -/
theorem Row.spans_isFinal : ∀ (row : Row Laid) (r : Reach) (long : Bool),
    row.Placed Laid.spot Laid.isLong r → row.All Laid.Valid →
      (r.afterLong = true → long = true) →
        (long || row.spans Laid.isFinal) = (long || row.spans Laid.isLong)
  | .last p, r, long, hp, hv, hl => by
    have hs : p.spot = .inRow r r.shell.next := hp
    rw [Row.spans, Row.spans, Laid.Valid.isFinal_inRow hv hs]
    cases hc : (Breaker.continuations r r.shell.next []).isSome with
    | true => rw [hl (afterLong_of_continuations hc), Bool.true_or, Bool.true_or]
    | false => rw [Bool.or_false]
  | .item p form rest, r, long, hp, hv, hl => by
    obtain ⟨hs, hpForm, hpRest⟩ := hp
    obtain ⟨hv, hvForm, hvRest⟩ := hv
    have hform := form.spans_isFinal r.atBindings hpForm hvForm
    have hgap : (long || p.isFinal) = (long || p.isLong) := by
      rw [Laid.Valid.isFinal_inRow hv hs]
      cases hc : (Breaker.continuations r form.next []).isSome with
      | true => rw [hl (afterLong_of_continuations hc), Bool.true_or, Bool.true_or]
      | false => rw [Bool.or_false]
    -- what makes the next element start a line makes the row take several
    have hlong : (r.after form.isElement (form.spans Laid.isLong)).afterLong = true →
        (long || p.isLong || form.spans Laid.isLong) = true := by
      intro h
      cases he : form.isElement with
      | true =>
        rw [he] at h
        have hspans : form.spans Laid.isLong = true := h
        rw [hspans, Bool.or_true]
      | false =>
        rw [he] at h
        rw [hl h, Bool.true_or, Bool.true_or]
    have hrest := rest.spans_isFinal (r.after form.isElement (form.spans Laid.isLong))
      (long || p.isLong || form.spans Laid.isLong) hpRest hvRest hlong
    rw [Row.spans, Row.spans, hform, ← Bool.or_assoc, ← Bool.or_assoc, hgap, hrest,
      Bool.or_assoc, Bool.or_assoc]
    simp only [Bool.or_assoc]

end

mutual

theorem Form.spans_congr {breaks others : γ → Bool} : ∀ f : Form γ,
    (f.All fun gap => breaks gap = others gap) → f.spans breaks = f.spans others
  | .word _, _ | .stray _, _ | .str .., _ | .comment _, _ => rfl
  | .group _ row _, h => row.spans_congr h
  | .quoted gap form, h => by rw [Form.spans, Form.spans, h.1, form.spans_congr h.2]
  | .bareQuote _, h => h

theorem Row.spans_congr {breaks others : γ → Bool} : ∀ row : Row γ,
    (row.All fun gap => breaks gap = others gap) → row.spans breaks = row.spans others
  | .last _, h => h
  | .item gap form rest, h => by
    rw [Row.spans, Row.spans, h.1, form.spans_congr h.2.1, rest.spans_congr h.2.2]

end

/-! ## Gaps that are read again -/

/-- A gap that was laid out, with the blanks that it is read again as. -/
abbrev Reread := Laid × List Blank

namespace Reread

/-- Whether the gap takes several lines after the first six passes of a second run. -/
def isLong (q : Reread) : Bool := endsLine (Layout.arranged q.1.1.2.1 (ofBlanks q.2))

/-- A site of the second run. -/
def again (q : Reread) : Site := (q.1.spot, (q.1.1.2.1, ofBlanks q.2))

/-- A gap with which the second run does what the first did. -/
structure Settled (q : Reread) : Prop where
  valid : q.1.Valid
  /-- It takes several lines after the first passes if it did in the end before. -/
  long : q.isLong = q.1.isFinal
  /-- The same is written for it. -/
  writes : ∀ indent, writeGap indent q.1.spot.next false q.again.final =
    writeGap indent q.1.spot.next false q.1.1.final

end Reread

theorem Laid.Valid.final_first {p : Laid} (hv : p.Valid) :
    p.1.final = finished p.spot p.source := by
  show Breaker.continuations.rule p.spot (Layout.arranged p.1.2.1 p.source) = _
  rw [hv.arranged_eq]
  rfl

theorem Laid.Valid.final_again {p : Laid} (hv : p.Valid) (blanks : List Blank) :
    (Reread.again (p, blanks)).final = finished p.spot (ofBlanks blanks) := by
  show Breaker.continuations.rule p.spot (Layout.arranged p.1.2.1 (ofBlanks blanks)) = _
  rw [hv.arranged_eq]
  rfl

/-- A gap that is read again as what was written for it is settled. -/
theorem Laid.Valid.settled {p : Laid} (hv : p.Valid) : Reread.Settled (p, p.blanks) where
  valid := hv
  long := by
    obtain ⟨indent, -, hb⟩ := hv.blanks
    show endsLine (Layout.arranged p.1.2.1 (ofBlanks p.blanks)) = _
    rw [hv.arranged_eq, hb]
    exact endsLine_arranged_written p.spot p.source hv.plain indent
  writes indent := by
    obtain ⟨first, hi, hb⟩ := hv.blanks
    have hagain := writeGap_again hv.proper hv.plain hi indent
    rw [← hb, written, written, ← hv.final_first, ← hv.final_again] at hagain
    exact hagain

/-- A form takes several lines after the first passes of a second run if it did in the first. -/
theorem Form.spans_reread {f : Form Reread} {isBindings : Bool}
    (hp : f.Placed (Laid.spot ∘ Prod.fst) (Laid.isLong ∘ Prod.fst) isBindings)
    (hs : f.All Reread.Settled) : f.spans Reread.isLong = f.spans (Laid.isLong ∘ Prod.fst) := by
  have hplaced := (f.placed_map Prod.fst Laid.spot Laid.isLong isBindings).mpr hp
  have hvalid := (f.all_map Prod.fst Laid.Valid).mpr (Form.All.mono (fun _ h => h.valid) f hs)
  have hfinal := (f.map Prod.fst).spans_isFinal isBindings hplaced hvalid
  rw [f.spans_map, f.spans_map] at hfinal
  rw [f.spans_congr (Form.All.mono (fun _ h => h.long) f hs)]
  exact hfinal

mutual

theorem Form.placed_reread : ∀ (f : Form Reread) (isBindings : Bool),
    f.Placed (Laid.spot ∘ Prod.fst) (Laid.isLong ∘ Prod.fst) isBindings → f.All Reread.Settled →
      f.Placed (Laid.spot ∘ Prod.fst) Reread.isLong isBindings
  | .word _, _, _, _ => trivial
  | .stray _, _, _, _ => trivial
  | .str .., _, _, _ => trivial
  | .comment _, _, _, _ => trivial
  | .bareQuote _, _, hp, _ => hp
  | .group _ row _, _, hp, hs => row.placed_reread _ hp hs
  | .quoted _ form, _, hp, hs => ⟨hp.1, form.placed_reread false hp.2 hs.2⟩

/-- In a second run all gaps are where they were. -/
theorem Row.placed_reread : ∀ (row : Row Reread) (r : Reach),
    row.Placed (Laid.spot ∘ Prod.fst) (Laid.isLong ∘ Prod.fst) r → row.All Reread.Settled →
      row.Placed (Laid.spot ∘ Prod.fst) Reread.isLong r
  | .last _, _, hp, _ => hp
  | .item gap form rest, r, hp, hs => by
    obtain ⟨hgap, hform, hrest⟩ := hp
    refine ⟨hgap, form.placed_reread _ hform hs.2.1, ?_⟩
    rw [Form.spans_reread hform hs.2.1]
    exact rest.placed_reread _ hrest hs.2.2

end

/-! ## The second run -/

theorem Row.map_blanksOf_laid (row : Row (List Blank)) :
    (row.laid.map fun p => blanksOf p.source) = row := by
  have hmap := congrArg (Row.map blanksOf) (map_source_laid row)
  have hid : blanksOf ∘ ofBlanks = id := funext blanksOf_ofBlanks
  rw [map_map, source, map_map, hid, map_id] at hmap
  exact hmap

namespace Row

variable {row : Row (List Blank)} {q : Row Reread}

theorem placed_of_map_fst (hq : q.map Prod.fst = row.laid) :
    q.Placed (Laid.spot ∘ Prod.fst) (Laid.isLong ∘ Prod.fst) (.start .root false row) := by
  have hplaced := placed_laid row
  rw [← hq] at hplaced
  exact (q.placed_map Prod.fst Laid.spot Laid.isLong _).mp hplaced

theorem placed_first_of_map_fst (hq : q.map Prod.fst = row.laid) :
    q.Placed (fun q => q.1.1.2.1) (fun _ => false) (.start .root false row) := by
  have hplaced := placed_first_laid row
  rw [← hq] at hplaced
  exact (q.placed_map Prod.fst _ _ _).mp hplaced

/-- The sites of the second run are those of the first with the blanks that are there now. -/
theorem sites_reread (hq : q.map Prod.fst = row.laid) (hs : q.All Reread.Settled) :
    (q.map Prod.snd).source.sites = q.map Reread.again := by
  let φ : Reread → Gap := fun q => ofBlanks q.2
  have hsource : (q.map Prod.snd).source = q.map φ := map_map ..
  have hstart : Reach.start .root false (q.map Prod.snd).source = .start .root false row := by
    have hrow := map_blanksOf_laid row
    rw [← hq, map_map] at hrow
    rw [hsource, Reach.start_map, ← hrow, Reach.start_map]
  have hfirst := q.annotate_of_placed _ (placed_first_of_map_fst hq)
  have hagain := q.annotate_of_placed _ (q.placed_reread _ (placed_of_map_fst hq) hs)
  have hnever : never ∘ φ = fun _ => false := rfl
  have hlong : ((fun p : Spot × Gap => endsLine (arranged p.1 p.2)) ∘
      (Prod.map id φ ∘ fun q : Reread => (q.1.1.2.1, q))) = Reread.isLong := rfl
  rw [sites, hstart, hsource, annotate_map, hnever, hfirst, map_map, annotate_map, hlong, hagain,
    map_map]
  rfl

/-- **The second run writes the same text** if all gaps are settled. -/
theorem text_reread (hq : q.map Prod.fst = row.laid) (hs : q.All Reread.Settled) :
    (q.map Prod.snd).laid.text = row.laid.text := by
  have hcongr := @render_congr Reread (Laid.spot ∘ Prod.fst) (Laid.isLong ∘ Prod.fst)
    (Site.final ∘ Reread.again) (Site.final ∘ Prod.fst ∘ Prod.fst) q (.start .root false row) .root
    0 0 rfl (by simp) (placed_of_map_fst hq)
    (All.mono (fun _ h indent _ => h.writes indent) q hs)
  have hagain := q.render_map Reread.again Site.final .root 0 0
  have hfirst := q.render_map (Prod.fst ∘ Prod.fst) Site.final .root 0 0
  have hsites : row.source.sites = q.map (Prod.fst ∘ Prod.fst) := by
    rw [← map_fst_laid, ← hq, map_map]
  rw [laid, sites_reread hq hs, hagain, text_map, hcongr]
  rw [laid, hsites, hfirst, text_map]

end Row

end ExactLisp.Layout
