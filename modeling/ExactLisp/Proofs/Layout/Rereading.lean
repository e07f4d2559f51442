import ExactLisp.Proofs.Layout.SecondRun

/-!
# The row of a formatted text

A formatted text is read again as a row with the same forms, and mostly with the gaps
that were written. Only after a quote mark with nothing to quote are two gaps next to
each other in the text, and the reader takes both of them for the gap of the quote mark.
So the row that is read has these blanks there, and none in the gap after the form
(`Row.reread`). It is a row as texts have it (`Row.regular_reread`), with the lexemes that
were written (`Row.lexemes_reread`).
-/

namespace ExactLisp.Layout

variable {γ δ : Type}

/-! ## Regular rows with other gaps -/

theorem Form.isOpen_map (φ : γ → δ) : ∀ f : Form γ, (f.map φ).isOpen = f.isOpen
  | .word _ | .stray _ | .str .. | .comment _ | .group .. | .bareQuote _ => rfl
  | .quoted _ form => form.isOpen_map φ

theorem Form.endsBare_map (φ : γ → δ) : ∀ f : Form γ, (f.map φ).endsBare = f.endsBare
  | .word _ | .stray _ | .str .. | .comment _ | .group .. | .bareQuote _ => rfl
  | .quoted _ form => form.endsBare_map φ

theorem Row.isVoid_map (φ : γ → δ) (empty : δ → Prop) (row : Row γ) :
    (row.map φ).IsVoid empty ↔ row.IsVoid (empty ∘ φ) := by
  cases row <;> exact Iff.rfl

theorem Row.followsBare_map (φ : γ → δ) (empty : δ → Prop) (row : Row γ) :
    (row.map φ).FollowsBare empty ↔ row.FollowsBare (empty ∘ φ) := by
  cases row with
  | last => exact Iff.rfl
  | item gap form rest =>
    rw [map, FollowsBare, FollowsBare, Form.isQuotable_map]
    exact Iff.rfl

mutual

theorem Form.regular_map (φ : γ → δ) (empty : δ → Prop) : ∀ f : Form γ,
    (f.map φ).Regular empty ↔ f.Regular (empty ∘ φ)
  | .word _ | .stray _ | .str .. | .comment _ | .bareQuote _ => Iff.rfl
  | .group b row closed => row.regular_map φ empty (some b) (!closed)
  | .quoted gap form => by
    rw [Form.map, Form.Regular, Form.Regular, Form.isQuotable_map, form.regular_map φ empty]

theorem Row.regular_map (φ : γ → δ) (empty : δ → Prop) : ∀ (row : Row γ) (own : Option Bracket)
    (atEnd : Bool), (row.map φ).Regular empty own atEnd ↔ row.Regular (empty ∘ φ) own atEnd
  | .last _, _, _ => Iff.rfl
  | .item gap form rest, own, atEnd => by
    simp only [Row.map, Row.Regular, form.regular_map φ empty, Form.isStray_map, Form.isOpen_map,
      Form.endsBare_map, Row.isVoid_map, Row.followsBare_map, rest.regular_map φ empty]

end

/-! ## Rows that are read again -/

/-- The gap before the first form of a row, or its only one. -/
def Row.firstGap : Row γ → γ
  | .last gap => gap
  | .item gap _ _ => gap

mutual

/--
A form with the blanks that its gaps are read again as, when some blanks were written
after it: a quote mark with nothing to quote takes these, too.
-/
def Form.reread (blanks : γ → List Blank) (after : List Blank) :
    Form γ → Form (γ × List Blank)
  | .word w => .word w
  | .stray b => .stray b
  | .str raw closed => .str raw closed
  | .comment text => .comment text
  | .group b row closed => .group b (row.reread blanks false) closed
  | .quoted gap form => .quoted (gap, blanks gap) (form.reread blanks after)
  | .bareQuote gap => .bareQuote (gap, blanks gap ++ after)

/-- A row with the blanks that its gaps are read again as; those of the first may be taken. -/
def Row.reread (blanks : γ → List Blank) (taken : Bool) : Row γ → Row (γ × List Blank)
  | .last gap => .last (gap, if taken then [] else blanks gap)
  | .item gap form rest =>
    .item (gap, if taken then [] else blanks gap) (form.reread blanks (blanks rest.firstGap))
      (rest.reread blanks form.endsBare)

end

mutual

theorem Form.map_fst_reread (blanks : γ → List Blank) (after : List Blank) :
    ∀ f : Form γ, (f.reread blanks after).map Prod.fst = f
  | .word _ | .stray _ | .str .. | .comment _ | .bareQuote _ => rfl
  | .group b row closed => by rw [Form.reread, Form.map, row.map_fst_reread]
  | .quoted gap form => by rw [Form.reread, Form.map, form.map_fst_reread]

theorem Row.map_fst_reread (blanks : γ → List Blank) (taken : Bool) :
    ∀ row : Row γ, (row.reread blanks taken).map Prod.fst = row
  | .last _ => rfl
  | .item gap form rest => by
    rw [Row.reread, Row.map, form.map_fst_reread, rest.map_fst_reread]

end

namespace Form

variable (blanks : γ → List Blank) (after : List Blank) (f : Form γ)

theorem isStray_reread (b : Bracket) : (f.reread blanks after).isStray b = f.isStray b := by
  rw [← isStray_map Prod.fst, map_fst_reread]

theorem isOpen_reread : (f.reread blanks after).isOpen = f.isOpen := by
  rw [← isOpen_map Prod.fst, map_fst_reread]

theorem endsBare_reread : (f.reread blanks after).endsBare = f.endsBare := by
  rw [← endsBare_map Prod.fst, map_fst_reread]

theorem isQuotable_reread : (f.reread blanks after).isQuotable = f.isQuotable := by
  rw [← isQuotable_map Prod.fst, map_fst_reread]

end Form

theorem spaces_append (first second : List Blank) :
    spaces (first ++ second) = spaces first ++ spaces second := List.map_append

mutual

/-- A form is read again with what was written for it, and what its last quote mark takes. -/
theorem Form.lexemes_reread (blanks : γ → List Blank) (after : List Blank) : ∀ f : Form γ,
    (f.reread blanks after).lexemes Prod.snd =
      f.lexemes blanks ++ if f.endsBare then spaces after else []
  | .word _ | .stray _ | .str .. | .comment _ => rfl
  | .group b row closed => by
    have hrow := row.lexemes_reread blanks false
    have hends : (Form.group b row closed).endsBare = false := rfl
    rw [if_neg Bool.false_ne_true, List.nil_append] at hrow
    rw [Form.reread, Form.lexemes, Form.lexemes, hrow, hends, if_neg Bool.false_ne_true,
      List.append_nil]
  | .quoted gap form => by
    rw [Form.reread, Form.lexemes, Form.lexemes, form.lexemes_reread blanks after, Form.endsBare,
      List.cons_append, List.append_assoc]
  | .bareQuote gap => by
    rw [Form.reread, Form.lexemes, Form.lexemes, spaces_append]
    rfl

/-- A row is read again with what was written for it. -/
theorem Row.lexemes_reread (blanks : γ → List Blank) (taken : Bool) : ∀ row : Row γ,
    (if taken then spaces (blanks row.firstGap) else []) ++
        (row.reread blanks taken).lexemes Prod.snd = row.lexemes blanks
  | .last gap => by cases taken <;> simp [Row.reread, Row.lexemes, Row.firstGap, spaces]
  | .item gap form rest => by
    have hgap : (if taken then spaces (blanks gap) else []) ++
        spaces (if taken then [] else blanks gap) = spaces (blanks gap) := by
      cases taken <;> simp [spaces]
    have hrest := rest.lexemes_reread blanks form.endsBare
    rw [Row.reread, Row.lexemes, Row.lexemes, form.lexemes_reread, ← hrest, Row.firstGap]
    simp only [← List.append_assoc, hgap]

end

/-! ## The row that is read is one that a text can have -/

/-- At the end of a text nothing is written where nothing was. -/
theorem Laid.Valid.blanks_of_nothing {p : Laid} (hv : p.Valid) (hn : p.spot.next = .nothing)
    (h : p.source = []) : p.blanks = [] := by
  obtain ⟨indent, -, hb⟩ := hv.blanks
  rw [hb, h]
  exact written_nothing hn indent

/-- A gap of the source with nothing in it. -/
def Laid.IsEmpty (p : Laid) : Prop := p.source = []

/-- Where nothing follows up to the end of the text, nothing is written. -/
theorem Row.exists_last_of_isVoid {row : Row Laid} {r : Reach}
    (hp : row.Placed Laid.spot Laid.isLong r) (hv : row.All Laid.Valid)
    (hc : r.shell.closes = false) (h : row.IsVoid Laid.IsEmpty) :
    ∃ p, row = .last p ∧ p.blanks = [] := by
  cases row with
  | item => exact absurd h id
  | last p =>
    have hs : p.spot = .inRow r r.shell.next := hp
    have hnext : p.spot.next = .nothing := by
      rw [hs]
      rcases hshell : r.shell with _ | ⟨b, _ | _⟩
      · rfl
      · rfl
      · rw [hshell] at hc
        cases hc
    exact ⟨p, rfl, Laid.Valid.blanks_of_nothing hv hnext h⟩

/-- A gap that is read again as no blanks. -/
def Reread.IsEmpty (q : Reread) : Prop := q.2 = []

mutual

theorem Form.regular_reread : ∀ (f : Form Laid) (isBindings : Bool) (after : List Blank),
    f.Placed Laid.spot Laid.isLong isBindings → f.All Laid.Valid →
      f.Regular Laid.IsEmpty → (f.reread Laid.blanks after).Regular Reread.IsEmpty
  | .word _, _, _, _, _, _ => trivial
  | .stray _, _, _, _, _, _ => trivial
  | .str .., _, _, _, _, _ => trivial
  | .comment _, _, _, _, _, _ => trivial
  | .bareQuote _, _, _, _, _, _ => trivial
  | .group b row closed, isBindings, _, hp, hv, hr =>
    row.regular_reread (.start (.group b closed) isBindings row) (some b) (!closed) false hp hv
      (fun h => by simpa [Reach.start, Shell.closes] using h) hr
  | .quoted gap form, _, after, hp, hv, hr => by
    rw [Form.reread, Form.Regular, Form.isQuotable_reread]
    exact ⟨hr.1, form.regular_reread false after hp.2 hv.2 hr.2⟩

theorem Row.regular_reread : ∀ (row : Row Laid) (r : Reach) (own : Option Bracket)
    (atEnd taken : Bool), row.Placed Laid.spot Laid.isLong r → row.All Laid.Valid →
      (atEnd = true → r.shell.closes = false) → row.Regular Laid.IsEmpty own atEnd →
        (row.reread Laid.blanks taken).Regular Reread.IsEmpty own atEnd
  | .last _, _, _, _, _, _, _, _, _ => trivial
  | .item gap form rest, r, own, atEnd, taken, hp, hv, hend, hr => by
    obtain ⟨-, hpForm, hpRest⟩ := hp
    obtain ⟨-, hvForm, hvRest⟩ := hv
    obtain ⟨hform, hstray, hopen, hbare, hrest⟩ := hr
    simp only [Row.reread, Row.Regular, Form.isStray_reread, Form.isOpen_reread,
      Form.endsBare_reread]
    refine ⟨form.regular_reread _ _ hpForm hvForm hform, hstray, fun ho => ?_, fun he => ?_,
      rest.regular_reread (r.after form.isElement (form.spans Laid.isLong)) own atEnd _ hpRest
        hvRest hend hrest⟩
    · -- what lacks its end stays the last thing in the text
      obtain ⟨hatEnd, hvoid⟩ := hopen ho
      refine ⟨hatEnd, ?_⟩
      obtain ⟨p, rfl, hblanks⟩ := Row.exists_last_of_isVoid hpRest hvRest (hend hatEnd) hvoid
      show (if form.endsBare then [] else p.blanks) = []
      rw [hblanks, ite_self]
    · -- the quote mark has taken the blanks that were written after it
      have hfollows := hbare he
      rw [he]
      cases rest with
      | last => rfl
      | item =>
        refine ⟨rfl, ?_⟩
        rw [Form.isQuotable_reread]
        exact hfollows.2

end

/-- Inside an opening bracket nothing is written where nothing was. -/
theorem Laid.Valid.blanks_of_opens {p : Laid} (hv : p.Valid) {r : Reach} {next : Next}
    (hs : p.spot = .inRow r next) (ho : r.opens = true) (h : p.source = []) : p.blanks = [] := by
  obtain ⟨indent, -, hb⟩ := hv.blanks
  have hp := hv.proper
  rw [hs] at hb hp
  rw [hb, h]
  exact written_opens hp.1 ho next indent

mutual

theorem Form.fits_laid : ∀ (f : Form Laid) (isBindings : Bool) (level : Nat),
    f.Placed Laid.spot Laid.isLong isBindings → f.All Laid.Valid →
      (f.map fun p => blanksOf p.source).fits level = true →
        (f.map Laid.blanks).fits level = true
  | .word _, _, _, _, _, h => h
  | .stray _, _, _, _, _, h => h
  | .str .., _, _, _, _, h => h
  | .comment _, _, _, _, _, h => h
  | .bareQuote _, _, _, _, _, h => h
  | .group b row closed, isBindings, level, hp, hv, h => by
    rw [Form.map, Form.fits, Bool.and_eq_true] at h ⊢
    exact ⟨h.1, row.fits_laid (.start (.group b closed) isBindings row) (level + 1) hp hv
      (fun ho => by cases ho) h.2⟩
  | .quoted gap form, _, level, hp, hv, h => by
    rw [Form.map, Form.fits, Bool.and_eq_true] at h ⊢
    exact ⟨h.1, form.fits_laid false (level + 1) hp.2 hv.2 h.2⟩

theorem Row.fits_laid : ∀ (row : Row Laid) (r : Reach) (level : Nat),
    row.Placed Laid.spot Laid.isLong r → row.All Laid.Valid →
      (r.opens = false → level + 1 < depthLimit) →
        (row.map fun p => blanksOf p.source).fits level = true →
          (row.map Laid.blanks).fits level = true
  | .last p, r, level, hp, hv, hl, h => by
    have hs : p.spot = .inRow r r.shell.next := hp
    rw [Row.map, Row.fits, Bool.or_eq_true, decide_eq_true_eq] at h ⊢
    rcases h with h | h
    · cases ho : r.opens with
      | false => exact Or.inr (hl ho)
      | true =>
        obtain ⟨source, hsource⟩ := hv.source
        have hnil : p.source = [] := by
          rw [hsource, blanksOf_ofBlanks, List.isEmpty_iff] at h
          rw [hsource, h]
          rfl
        have hblanks := Laid.Valid.blanks_of_opens hv hs ho hnil
        exact Or.inl (List.isEmpty_iff.mpr hblanks)
    · exact Or.inr h
  | .item p form rest, r, level, hp, hv, hl, h => by
    rw [Row.map, Row.fits, Bool.and_eq_true] at h ⊢
    have hform := form.fits_laid r.atBindings level hp.2.1 hv.2.1 h.1
    exact ⟨hform, rest.fits_laid (r.after form.isElement (form.spans Laid.isLong)) level hp.2.2
      hv.2.2 (fun _ => Form.lt_of_fits hform) h.2⟩

end

mutual

/-- What a quote mark takes nests no deeper than before. -/
theorem Form.fits_reread (blanks : γ → List Blank) (after : List Blank) :
    ∀ (f : Form γ) (level : Nat), (f.map blanks).fits level = true →
      ((f.reread blanks after).map Prod.snd).fits level = true
  | .word _, _, h | .stray _, _, h | .str .., _, h | .comment _, _, h | .bareQuote _, _, h => h
  | .group b row closed, level, h => by
    rw [Form.map, Form.fits, Bool.and_eq_true] at h
    rw [Form.reread, Form.map, Form.fits, Bool.and_eq_true]
    exact ⟨h.1, row.fits_reread blanks false (level + 1) h.2⟩
  | .quoted gap form, level, h => by
    rw [Form.map, Form.fits, Bool.and_eq_true] at h
    rw [Form.reread, Form.map, Form.fits, Bool.and_eq_true]
    exact ⟨h.1, form.fits_reread blanks after (level + 1) h.2⟩

theorem Row.fits_reread (blanks : γ → List Blank) (taken : Bool) :
    ∀ (row : Row γ) (level : Nat), (row.map blanks).fits level = true →
      ((row.reread blanks taken).map Prod.snd).fits level = true
  | .last gap, level, h => by
    cases taken with
    | false => exact h
    | true => rfl
  | .item gap form rest, level, h => by
    rw [Row.map, Row.fits, Bool.and_eq_true] at h
    rw [Row.reread, Row.map, Row.fits, Bool.and_eq_true]
    exact ⟨form.fits_reread blanks _ level h.1, rest.fits_reread blanks _ level h.2⟩

end

/-! ## Formatting again -/

namespace Row

variable {row : Row (List Blank)}

theorem regular_source_laid (hr : row.Regular IsEmpty none true) :
    row.laid.Regular Laid.IsEmpty none true := by
  have hsource : row.source.Regular (fun gap => gap = []) none true := by
    have hempty : (fun gap => gap = []) ∘ ofBlanks = IsEmpty := by
      funext blanks
      simp [IsEmpty, ofBlanks]
    refine (row.regular_map ofBlanks _ none true).mpr ?_
    rw [hempty]
    exact hr
  rw [← map_source_laid] at hsource
  exact (row.laid.regular_map Laid.source _ none true).mp hsource

theorem fits_blanks_laid (hf : row.fits 0 = true) : (row.laid.map Laid.blanks).fits 0 = true := by
  refine row.laid.fits_laid (.start .root false row) 0 (placed_laid row) (valid_laid row)
    (fun ho => by cases ho) ?_
  rw [map_blanksOf_laid]
  exact hf

/-- The row that a formatted text is read as. -/
def formatted (row : Row (List Blank)) : Row (List Blank) :=
  (row.laid.reread Laid.blanks false).map Prod.snd

theorem regular_formatted (hr : row.Regular IsEmpty none true) :
    row.formatted.Regular IsEmpty none true :=
  ((row.laid.reread Laid.blanks false).regular_map Prod.snd IsEmpty none true).mpr
    (row.laid.regular_reread (.start .root false row) none true false (placed_laid row)
      (valid_laid row) (fun _ => rfl) (regular_source_laid hr))

theorem fits_formatted (hf : row.fits 0 = true) : row.formatted.fits 0 = true :=
  row.laid.fits_reread Laid.blanks false 0 (fits_blanks_laid hf)

theorem lexemes_formatted (row : Row (List Blank)) :
    row.formatted.lexemes id = row.laid.lexemes Laid.blanks := by
  have hreread := row.laid.lexemes_reread Laid.blanks false
  rw [if_neg Bool.false_ne_true, List.nil_append] at hreread
  rw [formatted, lexemes_map, ← hreread]
  rfl

end Row

/-- **Formatting twice is formatting once**, if all gaps of the text are settled. -/
theorem format_format_of_settled {text : String} {row : Row (List Blank)}
    (hr : row.Regular Row.IsEmpty none true) (hs : Lexeme.scan .source text = row.lexemes id)
    (hsettled : row.fits 0 = true → (row.laid.reread Laid.blanks false).All Reread.Settled) :
    format (format text) = format text := by
  have hformat := format_eq_laid hr hs
  cases hf : row.fits 0 with
  | false =>
    -- a text that nests too deeply is left as it is
    rw [hf] at hformat
    have hself : format text = text := hformat
    rw [hself, hself]
  | true =>
    have hscan : Lexeme.scan .source (format text) = row.formatted.lexemes id := by
      rw [scan_format_of_fits hr hs hf, Row.lexemes_formatted]
    have htext := Row.text_reread (row.laid.map_fst_reread Laid.blanks false)
      (hsettled hf)
    rw [format_eq_laid (Row.regular_formatted hr) hscan, if_pos (Row.fits_formatted hf), Row.formatted, htext,
      hformat, hf]
    rfl

end ExactLisp.Layout
