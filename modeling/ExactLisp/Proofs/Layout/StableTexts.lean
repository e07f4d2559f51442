import ExactLisp.Proofs.Layout.BareQuotes

/-!
# Which texts a second formatting leaves alone

Where the first formatting puts a line break after a bare quote mark, the second puts another
one. For what broke the line there does so again: the rules look at the forms only, and an
element that took several lines still does when it is read again
(`Laid.isLong_of_extends`, `Row.later_of_placed`). So the formatted text is left as it is by
the second formatting exactly if no line break was put after a bare quote mark
(`format_format_iff`).
-/

namespace ExactLisp.Layout

variable {γ : Type}

/-! ## A row with what is laid out for it -/

/-- The gaps of a row next to what is laid out for the blanks in them. -/
theorem Row.exists_paired (q : Row γ) (blanks : γ → List Blank) :
    ∃ z : Row (γ × Laid), z.map Prod.fst = q ∧ z.map Prod.snd = (q.map blanks).laid ∧
      z.All fun g => g.2.source = ofBlanks (blanks g.1) := by
  let φ : γ → Gap := ofBlanks ∘ blanks
  let ψ : Spot × (Spot × γ) → Site := Prod.map id (Prod.map id φ)
  let r : Reach := .start .root false (q.map φ)
  let breaks : Spot × Gap → Bool := fun p => endsLine (arranged p.1 p.2)
  let places := (q.annotate (never ∘ φ) r).annotate (breaks ∘ Prod.map id φ) r
  have hplaces : places.map (fun p => p.2.2) = q := by
    have hfirst : places.map Prod.snd = q.annotate (never ∘ φ) r := map_snd_annotate ..
    have hsecond := map_snd_annotate (never ∘ φ) q r
    rw [← hfirst, map_map] at hsecond
    exact hsecond
  have hsites : (q.map φ).sites = places.map ψ := by
    rw [sites, annotate_map, annotate_map]
  let laid := places.render (Site.final ∘ ψ) .root 0 0
  have hlaid : (q.map blanks).laid = laid.map (Prod.map ψ id) := by
    rw [Row.laid, Row.source, map_map, hsites, render_map]
  refine ⟨laid.map fun p => (p.1.2.2, (ψ p.1, p.2)), ?_, ?_, ?_⟩
  · have hfst : laid.map Prod.fst = places := map_fst_render ..
    rw [map_map, ← hplaces, ← hfst, map_map]
    rfl
  · rw [map_map, hlaid]
    rfl
  · exact (laid.all_map _ _).mpr (laid.all_of_forall fun _ => rfl)

/-! ## Places after long elements -/

/-- Whether a place is as another, but that the element before may now take several lines. -/
def Spot.Later (s s' : Spot) : Prop :=
  ∀ r next, s = .inRow r next → ∃ r', s' = .inRow r' next ∧ r.forget = r'.forget ∧
    (r.afterLong = true → r'.afterLong = true)

mutual

theorem Form.spans_mono {breaks others : γ → Bool} : ∀ f : Form γ,
    (f.All fun gap => breaks gap = true → others gap = true) → f.spans breaks = true →
      f.spans others = true
  | .word _, _, h | .stray _, _, h | .str .., _, h | .comment _, _, h => h
  | .group _ row _, hall, h => row.spans_mono hall h
  | .quoted gap form, hall, h => by
    rw [Form.spans, Bool.or_eq_true] at h ⊢
    exact h.imp hall.1 (form.spans_mono hall.2)
  | .bareQuote _, hall, h => hall h

theorem Row.spans_mono {breaks others : γ → Bool} : ∀ row : Row γ,
    (row.All fun gap => breaks gap = true → others gap = true) → row.spans breaks = true →
      row.spans others = true
  | .last _, hall, h => hall h
  | .item gap form rest, hall, h => by
    rw [Row.spans, Bool.or_eq_true, Bool.or_eq_true] at h ⊢
    exact h.imp (Or.imp hall.1 (form.spans_mono hall.2.1)) (rest.spans_mono hall.2.2)

end

mutual

/-- If all gaps that took several lines still do, all places are as before or later. -/
theorem Form.later_of_placed {spot other : γ → Spot} {breaks others : γ → Bool} :
    ∀ (f : Form γ) (isBindings : Bool), f.Placed spot breaks isBindings →
      f.Placed other others isBindings →
        (f.All fun gap => breaks gap = true → others gap = true) →
          f.All fun gap => (spot gap).Later (other gap)
  | .word _, _, _, _, _ => trivial
  | .stray _, _, _, _, _ => trivial
  | .str .., _, _, _, _ => trivial
  | .comment _, _, _, _, _ => trivial
  | .bareQuote gap, _, h, _, _ => by
    intro r next hs
    cases hs.symm.trans h
  | .group _ row _, _, h, h', hall => row.later_of_placed _ _ rfl id h h' hall
  | .quoted gap form, _, h, h', hall => by
    refine ⟨fun r next hs => ?_, form.later_of_placed false h.2 h'.2 hall.2⟩
    cases hs.symm.trans h.1

theorem Row.later_of_placed {spot other : γ → Spot} {breaks others : γ → Bool} :
    ∀ (row : Row γ) (r r' : Reach), r.forget = r'.forget →
      (r.afterLong = true → r'.afterLong = true) → row.Placed spot breaks r →
        row.Placed other others r' →
          (row.All fun gap => breaks gap = true → others gap = true) →
            row.All fun gap => (spot gap).Later (other gap)
  | .last gap, r, r', hr, hl, h, h', _ => by
    have hs : spot gap = .inRow r r.shell.next := h
    have hs' : other gap = .inRow r' r'.shell.next := h'
    have hshell : r.shell = r'.shell := by
      have hforget : r.forget.shell = r'.forget.shell := by rw [hr]
      exact hforget
    intro r₁ next hr₁
    rw [hs] at hr₁
    cases hr₁
    exact ⟨r', by rw [hs', hshell], hr, hl⟩
  | .item gap form rest, r, r', hr, hl, h, h', hall => by
    obtain ⟨hs, hform, hrest⟩ := h
    obtain ⟨hs', hform', hrest'⟩ := h'
    obtain ⟨hgap, hallForm, hallRest⟩ := hall
    have hat : r'.atBindings = r.atBindings := by
      have hforget : r'.forget.atBindings = r.forget.atBindings := by rw [hr]
      exact hforget
    have hafter : (r.after form.isElement (form.spans breaks)).forget =
        (r'.after form.isElement (form.spans others)).forget := by
      have hstep := congrArg (fun r => (Reach.after r form.isElement false).forget) hr
      exact hstep
    -- an element that took several lines takes several lines again
    have hlong : (r.after form.isElement (form.spans breaks)).afterLong = true →
        (r'.after form.isElement (form.spans others)).afterLong = true := by
      unfold Reach.after
      dsimp only
      cases form.isElement with
      | true => exact form.spans_mono hallForm
      | false => exact hl
    rw [hat] at hform'
    refine ⟨fun r₁ next hr₁ => ?_, form.later_of_placed _ hform hform' hallForm,
      rest.later_of_placed _ _ hafter hlong hrest hrest' hallRest⟩
    rw [hs] at hr₁
    cases hr₁
    exact ⟨r', hs', hr, hl⟩

end

theorem mark_forget (r : Reach) (next : Next) : mark r.forget next = mark r next := by
  rcases next with ⟨_ | _, _ | _⟩ | _ | _ <;> rfl

/-- What breaks the line at an empty gap does so at a later place. -/
theorem countBreaks_written_later {r r' : Reach} {next : Next} (hr : r.forget = r'.forget)
    (hl : r.afterLong = true → r'.afterLong = true) {first : Nat}
    (h : 0 < countBreaks (written (.inRow r next) first [])) (second : Nat) :
    0 < countBreaks (written (.inRow r' next) second []) := by
  have hmark : mark r' next = mark r next := by rw [← mark_forget, ← hr, mark_forget]
  cases hm : mark r next with
  | some extra =>
    have hbreak : (mark r' next).or (Breaker.continuations r' next []) = some extra := by
      rw [hmark, hm]
      rfl
    exact countBreaks_written_pos hbreak second
  | none =>
    cases hc : Breaker.continuations r next [] with
    | none =>
      have hnone : (mark r next).or (Breaker.continuations r next []) = none := by
        rw [hm, hc]
        rfl
      rw [(withinLine_written hnone first).countBreaks] at h
      cases h
    | some extra =>
      -- the place is the same, as it was after a long element before
      have hlong : r.afterLong = true := afterLong_of_continuations (by rw [hc]; rfl)
      have hsame : ∀ s : Reach, s.afterLong = true → s = { s.forget with afterLong := true } := by
        rintro ⟨⟩ hs
        cases hs
        rfl
      rw [hsame r hlong, hr, ← hsame r' (hl hlong)] at hm hc
      have hbreak : (mark r' next).or (Breaker.continuations r' next []) = some extra := by
        rw [hm, hc]
        rfl
      exact countBreaks_written_pos hbreak second

/-! ## Gaps that are read again -/

/-- Whether a gap is read again as what was written for it and perhaps more, or stays empty. -/
def Reread.Extends (q : Reread) : Prop :=
  (∃ more, q.2 = q.1.blanks ++ more) ∨ q.1.IsEmpty ∧ q.2 = []

theorem Reread.extends_gap {p : Laid} {taken : Bool} (h : taken = true → p.IsEmpty) :
    Reread.Extends (p, if taken then [] else p.blanks) := by
  cases taken with
  | false => exact Or.inl ⟨[], (List.append_nil _).symm⟩
  | true => exact Or.inr ⟨h rfl, rfl⟩

mutual

theorem Form.extends_reread : ∀ (f : Form Laid) (after : List Blank), f.Regular Laid.IsEmpty →
    (f.reread Laid.blanks after).All Reread.Extends
  | .word _, _, _ | .stray _, _, _ | .str .., _, _ | .comment _, _, _ => trivial
  | .bareQuote _, after, _ => Or.inl ⟨after, rfl⟩
  | .group b row closed, _, h => row.extends_reread (some b) (!closed) false h fun h => by cases h
  | .quoted _ form, after, h =>
    ⟨Or.inl ⟨[], (List.append_nil _).symm⟩, form.extends_reread after h.2⟩

theorem Row.extends_reread : ∀ (row : Row Laid) (own : Option Bracket) (atEnd taken : Bool),
    row.Regular Laid.IsEmpty own atEnd → (taken = true → row.firstGap.IsEmpty) →
      (row.reread Laid.blanks taken).All Reread.Extends
  | .last _, _, _, _, _, ht => Reread.extends_gap ht
  | .item _ form rest, own, atEnd, _, h, ht =>
    ⟨Reread.extends_gap ht, form.extends_reread _ h.1,
      rest.extends_reread own atEnd _ h.2.2.2.2 fun he => Row.empty_firstGap (h.2.2.2.1 he)⟩

end

/-- A gap that takes several lines after the first passes does so with other line breaks, too. -/
theorem endsLine_arranged_mono (s : Spot) {gap other : Gap}
    (h : endsLine gap = true → endsLine other = true)
    (hgap : endsLine (arranged s gap) = true) : endsLine (arranged s other) = true := by
  rcases s with ⟨r, next⟩ | ⟨_ | _⟩
  · rw [arranged_inRow] at hgap ⊢
    cases hm : mark r next with
    | some extra => rfl
    | none =>
      rw [hm] at hgap
      have hspaced := endsLine_spaced (s := .inRow r next) (fun h => by cases h)
      exact (hspaced other).trans (h ((hspaced gap).symm.trans hgap))
  · have hspaced := endsLine_spaced (s := .afterQuote false) (fun h => by cases h)
    rw [arranged_afterQuote, hspaced] at hgap ⊢
    exact h hgap
  · cases hgap

/-- A gap that took several lines still does in the second run. -/
theorem Laid.isLong_of_extends {p p' : Laid} (hv : p.Valid) (hv' : p'.Valid)
    (hf : p.spot.forget = p'.spot.forget) {blanks : List Blank}
    (hq : Reread.Extends (p, blanks)) (hs : p'.source = ofBlanks blanks) (h : p.isLong = true) :
    p'.isLong = true := by
  have harranged : Layout.arranged p'.1.2.1 p'.source =
      Layout.arranged p.spot (ofBlanks blanks) := by
    rw [hv'.arranged_eq, hs, ← arranged_forget, ← hf, arranged_forget]
  rw [isLong, harranged]
  rw [isLong, hv.arranged_eq] at h
  rcases hq with ⟨more, hmore⟩ | ⟨hempty, rfl⟩
  · have hmore : blanks = p.blanks ++ more := hmore
    subst hmore
    have happend : ofBlanks (p.blanks ++ more) = ofBlanks p.blanks ++ ofBlanks more :=
      List.map_append
    have hblanks : endsLine (Layout.arranged p.spot (ofBlanks p.blanks)) = true := by
      have hlong := hv.settled.long
      have hfinal := endsLine_finished p.spot p.source hv.plain
      rw [h, Bool.true_or] at hfinal
      rw [← hv.arranged_eq]
      exact hlong.trans hfinal
    refine endsLine_arranged_mono p.spot (fun hline => ?_) hblanks
    rw [happend, endsLine_append, hline, Bool.true_or]
  · rw [show p.source = [] from hempty] at h
    exact h

/-! ## Bare quote marks in the second run -/

/-- What holds of the same gap in the first and the second run. -/
structure Laid.Twice (p p' : Laid) : Prop where
  first : p.Valid
  second : p'.Valid
  forget : p.spot.forget = p'.spot.forget
  later : p.spot.Later p'.spot

/-- Where a line break was put into an empty gap, one is put again. -/
theorem Laid.Twice.countBreaks_eq_zero {p p' : Laid} (h : p.Twice p') {r : Reach} {next : Next}
    (hs : p.spot = .inRow r next) (hp : p.IsEmpty) (hp' : p'.IsEmpty)
    (hzero : countBreaks p'.blanks = 0) : countBreaks p.blanks = 0 := by
  obtain ⟨first, -, hb⟩ := h.first.blanks
  obtain ⟨second, -, hb'⟩ := h.second.blanks
  obtain ⟨r', hs', hr, hl⟩ := h.later r next hs
  rw [hs, show p.source = [] from hp] at hb
  rw [hs', show p'.source = [] from hp'] at hb'
  by_contra hne
  rw [hb] at hne
  have hagain := countBreaks_written_later hr hl (Nat.pos_of_ne_zero hne) second
  rw [← hb', hzero] at hagain
  cases hagain

theorem Row.firstGap_map {δ : Type} (φ : γ → δ) (row : Row γ) :
    (row.map φ).firstGap = φ row.firstGap := by
  cases row <;> rfl

section

variable {first second : γ → Laid}

mutual

/-- Bare quote marks that keep their line breaks in the second run did so in the first. -/
theorem Form.keepsBreaks_first : ∀ (f : Form γ) (isBindings : Bool) (after after' : List Blank),
    f.Placed (Laid.spot ∘ first) (Laid.isLong ∘ first) isBindings →
      (f.All fun g => (first g).Twice (second g)) →
        (f.Regular fun g => (first g).IsEmpty) → (f.Regular fun g => (second g).IsEmpty) →
          (f.endsBare = true → countBreaks after' = 0 → countBreaks after = 0) →
            (∀ q ∈ ((f.map second).reread Laid.blanks after').bareGaps, Reread.KeepsBreaks q) →
              ∀ q ∈ ((f.map first).reread Laid.blanks after).bareGaps, Reread.KeepsBreaks q
  | .word _, _, _, _, _, _, _, _, _, _ => List.forall_mem_nil _
  | .stray _, _, _, _, _, _, _, _, _, _ => List.forall_mem_nil _
  | .str .., _, _, _, _, _, _, _, _, _ => List.forall_mem_nil _
  | .comment _, _, _, _, _, _, _, _, _, _ => List.forall_mem_nil _
  | .bareQuote g, _, after, after', hp, htwice, _, _, hafter, hk => by
    have htwice : (first g).Twice (second g) := htwice
    have hs : (first g).spot = .afterQuote false := hp
    have hs' : (second g).spot = .afterQuote false := by
      have hforget := htwice.forget
      rw [hs] at hforget
      cases h : (second g).spot with
      | inRow r next =>
        rw [h] at hforget
        cases hforget
      | afterQuote quotes =>
        rw [h] at hforget
        exact hforget.symm
    have hzero := (htwice.second.keepsBreaks_iff hs' after').mp (List.forall_mem_singleton.mp hk)
    exact List.forall_mem_singleton.mpr
      ((htwice.first.keepsBreaks_iff hs after).mpr (hafter rfl hzero))
  | .group b row closed, isBindings, _, _, hp, htwice, hr, hr', _, hk =>
    row.keepsBreaks_first (.start (.group b closed) isBindings row) (some b) (!closed) false hp
      htwice hr hr' hk
  | .quoted _ form, _, after, after', hp, htwice, hr, hr', hafter, hk =>
    form.keepsBreaks_first false after after' hp.2 htwice.2 hr.2 hr'.2 hafter hk

theorem Row.keepsBreaks_first : ∀ (row : Row γ) (r : Reach) (own : Option Bracket)
    (atEnd taken : Bool), row.Placed (Laid.spot ∘ first) (Laid.isLong ∘ first) r →
      (row.All fun g => (first g).Twice (second g)) →
        row.Regular (fun g => (first g).IsEmpty) own atEnd →
          row.Regular (fun g => (second g).IsEmpty) own atEnd →
            (∀ q ∈ ((row.map second).reread Laid.blanks taken).bareGaps, Reread.KeepsBreaks q) →
              ∀ q ∈ ((row.map first).reread Laid.blanks taken).bareGaps, Reread.KeepsBreaks q
  | .last _, _, _, _, _, _, _, _, _, _ => List.forall_mem_nil _
  | .item _ form rest, r, own, atEnd, taken, hp, htwice, hr, hr', hk => by
    obtain ⟨-, hpForm, hpRest⟩ := hp
    obtain ⟨-, htwiceForm, htwiceRest⟩ := htwice
    obtain ⟨hrForm, -, -, hbare, hrRest⟩ := hr
    obtain ⟨hrForm', -, -, hbare', hrRest'⟩ := hr'
    have hkForm := fun q hq => hk q (List.mem_append_left _ hq)
    have hkRest := fun q hq => hk q (List.mem_append_right _ hq)
    have hafter : form.endsBare = true →
        countBreaks (rest.map second).firstGap.blanks = 0 →
          countBreaks (rest.map first).firstGap.blanks = 0 := by
      intro he
      obtain ⟨next, hs⟩ := Row.spot_firstGap hpRest
      rw [Row.firstGap_map, Row.firstGap_map]
      exact (Row.firstGap_of_all htwiceRest).countBreaks_eq_zero hs
        (Row.empty_firstGap (hbare he)) (Row.empty_firstGap (hbare' he))
    rw [Form.endsBare_map] at hkRest
    have hform := form.keepsBreaks_first _ _ _ hpForm htwiceForm hrForm hrForm' hafter hkForm
    have hrest := rest.keepsBreaks_first _ own atEnd _ hpRest htwiceRest hrRest hrRest' hkRest
    rw [Row.map, Row.reread, Row.bareGaps, Form.endsBare_map]
    exact List.forall_mem_append.mpr ⟨hform, hrest⟩

end

end

/-! ## Formatting twice -/

namespace Row

variable {row : Row (List Blank)}

theorem settled_of_keepsBreaks (hr : row.Regular IsEmpty none true)
    (hn : ∀ blanks ∈ row.bareGaps, NoReturn blanks)
    (hk : ∀ q ∈ (row.laid.reread Laid.blanks false).bareGaps, Reread.KeepsBreaks q) :
    (row.laid.reread Laid.blanks false).All Reread.Settled := by
  rw [bareGaps_reread] at hn
  exact row.laid.settled_reread (.start .root false row) none true false (placed_laid row)
    (valid_laid row) (regular_source_laid hr)
    (fun q hq => ⟨hn _ (List.mem_map_of_mem hq), hk q hq⟩) fun h => by cases h

/-- Bare quote marks that keep their line breaks in the second formatting did so in the first. -/
theorem keepsBreaks_of_formatted (hr : row.Regular IsEmpty none true)
    (hk : ∀ q ∈ (row.formatted.laid.reread Laid.blanks false).bareGaps, Reread.KeepsBreaks q) :
    ∀ q ∈ (row.laid.reread Laid.blanks false).bareGaps, Reread.KeepsBreaks q := by
  obtain ⟨z, hfirst, hsecond, hsource⟩ :=
    (row.laid.reread Laid.blanks false).exists_paired Prod.snd
  let first : Reread × Laid → Laid := fun g => g.1.1
  let second : Reread × Laid → Laid := Prod.snd
  have hlaid : z.map first = row.laid := by
    rw [← row.laid.map_fst_reread Laid.blanks false, ← hfirst, map_map]
    rfl
  have hagain : z.map second = row.formatted.laid := hsecond
  have hstart : Reach.start .root false row.formatted = .start .root false row := by
    have hrow := map_blanksOf_laid row
    have hformatted := map_blanksOf_laid row.formatted
    rw [← hlaid, map_map] at hrow
    rw [← hagain, map_map] at hformatted
    rw [← hformatted, Reach.start_map, ← hrow, Reach.start_map]
  have hplaced : z.Placed (Laid.spot ∘ first) (Laid.isLong ∘ first) (.start .root false row) := by
    have hplaced := placed_laid row
    rw [← hlaid] at hplaced
    exact (z.placed_map first _ _ _).mp hplaced
  have hplaced' : z.Placed (Laid.spot ∘ second) (Laid.isLong ∘ second)
      (.start .root false row) := by
    have hplaced := placed_laid row.formatted
    rw [← hagain, hstart] at hplaced
    exact (z.placed_map second _ _ _).mp hplaced
  have hvalid : z.All fun g => (first g).Valid :=
    (z.all_map first _).mp (hlaid ▸ valid_laid row)
  have hvalid' : z.All fun g => (second g).Valid :=
    (z.all_map second _).mp (hagain ▸ valid_laid row.formatted)
  have hregular : z.Regular (fun g => (first g).IsEmpty) none true :=
    (z.regular_map first Laid.IsEmpty none true).mp (hlaid ▸ regular_source_laid hr)
  have hregular' : z.Regular (fun g => (second g).IsEmpty) none true :=
    (z.regular_map second Laid.IsEmpty none true).mp
      (hagain ▸ regular_source_laid (regular_formatted hr))
  have hforget := z.all_forget _ _ rfl hplaced hplaced'
  have hextends : z.All fun g => Reread.Extends g.1 := by
    have hall := row.laid.extends_reread none true false (regular_source_laid hr)
      fun h => by cases h
    rw [← hfirst] at hall
    exact (z.all_map Prod.fst _).mp hall
  have hknown := All.and _ (All.and _ hvalid hvalid') (All.and _ hforget (All.and _ hextends hsource))
  -- what took several lines still does, so the places are as before or later
  have hlong : z.All fun g => (first g).isLong = true → (second g).isLong = true :=
    All.mono (fun g ⟨⟨hv, hv'⟩, hf, hq, hs⟩ => Laid.isLong_of_extends hv hv' hf hq hs) z hknown
  have hlater := z.later_of_placed _ _ rfl id hplaced hplaced' hlong
  have htwice : z.All fun g => (first g).Twice (second g) :=
    All.mono (fun g ⟨⟨⟨hv, hv'⟩, hf, _⟩, hl⟩ => ⟨hv, hv', hf, hl⟩) z (All.and _ hknown hlater)
  rw [← hlaid]
  rw [← hagain] at hk
  exact z.keepsBreaks_first _ none true false hplaced htwice hregular hregular' hk

end Row

/--
**Formatting twice is formatting once** exactly if the first time puts no line break after a
bare quote mark. Carriage returns after such a mark are left out: they are kept with the
spaces that come to stand after them.
-/
theorem format_format_iff {text : String}
    (hreturn : ∀ blanks ∈ bareBlanks (Lexeme.scan .source text), '\r' ∉ blanks) :
    format (format text) = format text ↔
      (bareBlanks (Lexeme.scan .source (format text))).map (List.count '\n') =
        (bareBlanks (Lexeme.scan .source text)).map (List.count '\n') := by
  let row := Row.ofLexemes (Lexeme.scan .source text)
  have hr : row.Regular Row.IsEmpty none true := Row.regular_ofLexemes _
  have hs : Lexeme.scan .source text = row.lexemes id := scan_eq_lexemes_ofLexemes text
  cases hf : row.fits 0 with
  | false =>
    -- a text that nests too deeply is left as it is
    have hself : format text = text := by
      rw [format_eq_laid hr hs, hf]
      rfl
    rw [hself, hself]
    exact iff_of_true rfl rfl
  | true =>
    have hscan : Lexeme.scan .source (format text) = row.formatted.lexemes id := by
      rw [scan_format_of_fits hr hs hf, Row.lexemes_formatted]
    rw [hs, hscan, ← Row.keepsBreaks_iff hr]
    constructor
    · intro hsame
      have hr' := Row.regular_formatted hr
      have hagain : Lexeme.scan .source (format (format text)) =
          row.formatted.formatted.lexemes id := by
        rw [scan_format_of_fits hr' hscan (Row.fits_formatted hf), Row.lexemes_formatted]
      rw [hsame, hscan] at hagain
      exact Row.keepsBreaks_of_formatted hr ((Row.keepsBreaks_iff hr').mpr (by rw [← hagain]))
    · intro hk
      rw [hs, Row.bareBlanks_of_regular hr] at hreturn
      have hn : ∀ blanks ∈ row.bareGaps, NoReturn blanks :=
        fun _ hmem => hreturn _ (List.mem_map_of_mem hmem)
      exact format_format_of_settled hr hs fun _ => Row.settled_of_keepsBreaks hr hn hk

/-- A text with bare quote marks at the end of a list, before a comment and at its own end. -/
theorem format_format_bare :
    (∀ blanks ∈ bareBlanks (Lexeme.scan .source "(f '\n ) [' ; note\n 1] '  "), '\r' ∉ blanks) ∧
      (bareBlanks (Lexeme.scan .source (format "(f '\n ) [' ; note\n 1] '  "))).map
          (List.count '\n') =
        (bareBlanks (Lexeme.scan .source "(f '\n ) [' ; note\n 1] '  ")).map (List.count '\n') ∧
      format (format "(f '\n ) [' ; note\n 1] '  ") = format "(f '\n ) [' ; note\n 1] '  " := by
  have hreturn : ∀ blanks ∈ bareBlanks (Lexeme.scan .source "(f '\n ) [' ; note\n 1] '  "),
      '\r' ∉ blanks := by decide
  have hbreaks : (bareBlanks (Lexeme.scan .source (format "(f '\n ) [' ; note\n 1] '  "))).map
        (List.count '\n') =
      (bareBlanks (Lexeme.scan .source "(f '\n ) [' ; note\n 1] '  ")).map (List.count '\n') := by
    decide +kernel
  exact ⟨hreturn, hbreaks, (format_format_iff hreturn).mpr hbreaks⟩

/-- A conditional that ends in a bare quote mark grows by a line each time it is formatted. -/
theorem format_format_ne :
    quotesHaveForms (Lexeme.scan .source "(if ')") = false ∧
      format "(if ')" = "(if '\n )" ∧ format (format "(if ')") = "(if '\n\n )" ∧
        format (format "(if ')") ≠ format "(if ')" := by
  have hfirst : format "(if ')" = "(if '\n )" := by decide +kernel
  have hsecond : format "(if '\n )" = "(if '\n\n )" := by decide +kernel
  refine ⟨rfl, hfirst, ?_, ?_⟩
  · rw [hfirst, hsecond]
  · rw [hfirst, hsecond]
    decide

end ExactLisp.Layout
