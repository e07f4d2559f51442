import ExactLisp.Proofs.Layout.Rereading

/-!
# The writer on its own

Without any passes formatting only re-indents. What the writer makes of a gap differs
from the gap only in the white space that follows a line break (`unindent_writeGap`), it
leaves a gap within a line as it is (`writeGap_within_line`), and to what it has written it
does the same again (`writeGap_writeGap`). So the text of a row whose gaps have been written
is read as that row, and formatting it once more changes nothing.
-/

namespace ExactLisp.Layout

open Lexeme (MayPrecede IsFree isChain_cons_of_free)

variable {γ : Type}

/-! ## Texts without indentation -/

/--
Lexemes without the white space between a line break and the next one, or what else
stands on its line. `skipping` is set at the start of a line.
-/
def unindent : Bool → List Lexeme → List Lexeme
  | _, [] => []
  | skipping, .space c :: rest =>
    if c = '\n' then .space c :: unindent true rest
    else if skipping && c != '\r' then unindent true rest
    else .space c :: unindent false rest
  | _, x :: rest => x :: unindent false rest

/--
A text without the white space, other than line breaks and carriage returns, that
directly follows a line break outside strings.
-/
def unindented (text : String) : String :=
  String.ofList ((unindent false (Lexeme.scan .source text)).flatMap Lexeme.spelling)

theorem unindent_cons {x : Lexeme} (hx : x.isSpace = false) (skipping : Bool)
    (rest : List Lexeme) : unindent skipping (x :: rest) = x :: unindent false rest := by
  cases x with
  | space => cases hx
  | opening | closing | quote | word | str | comment => rfl

/-- Whether two lists of lexemes differ in indentation only, wherever in a line they start. -/
def SameUnindented (xs ys : List Lexeme) : Prop :=
  ∀ skipping, unindent skipping xs = unindent skipping ys

theorem unindent_spaces_append (n : Nat) (rest : List Lexeme) :
    unindent true (spaces (List.replicate n .space) ++ rest) = unindent true rest := by
  induction n with
  | zero => rfl
  | succ n ih => exact ih

/-- **The writer changes the indentation of a gap only.** -/
theorem unindent_writeGap {xs ys : List Lexeme} (h : SameUnindented xs ys) (indent : Nat)
    (next : Next) : ∀ (gap : List Blank) (dropping skipping : Bool),
      (dropping = true → skipping = true) →
        unindent skipping (spaces gap ++ xs) =
          unindent skipping (spaces (writeGap indent next dropping (ofBlanks gap)) ++ ys)
  | [], _, skipping, _ => h skipping
  | c :: gap, dropping, skipping, hd => by
    have hsource : unindent skipping (spaces (c :: gap) ++ xs) =
        if c.1 = '\n' then .space c.1 :: unindent true (spaces gap ++ xs)
        else if skipping && c.1 != '\r' then unindent true (spaces gap ++ xs)
        else .space c.1 :: unindent false (spaces gap ++ xs) := rfl
    have hwrite : writeGap indent next dropping (ofBlanks (c :: gap)) =
        if c.1 = '\n' then
          .newline :: ((if indents next (ofBlanks gap) then List.replicate indent .space else []) ++
            writeGap indent next true (ofBlanks gap))
        else if dropping && !(Mark.blank c).isNewline then
          writeGap indent next true (ofBlanks gap)
        else c :: writeGap indent next false (ofBlanks gap) := rfl
    rw [hsource, hwrite]
    by_cases hc : c.1 = '\n'
    · -- the new indentation is skipped like the old one
      have ih := unindent_writeGap h indent next gap true true id
      have hskip : unindent true (spaces (if indents next (ofBlanks gap) then
            List.replicate indent .space else []) ++
              (spaces (writeGap indent next true (ofBlanks gap)) ++ ys)) =
          unindent true (spaces (writeGap indent next true (ofBlanks gap)) ++ ys) := by
        split
        · exact unindent_spaces_append indent _
        · rfl
      rw [if_pos hc, if_pos hc, ih, ← hskip, ← List.append_assoc, ← spaces_append, hc]
      rfl
    · have hne : (c.1 == '\n') = false := by simpa using hc
      have hnewline : (!(Mark.blank c).isNewline) = (c.1 != '\r') := by
        rw [Mark.isNewline, hne, Bool.false_or]
        rfl
      rw [if_neg hc, if_neg hc, hnewline]
      cases hdrop : dropping && c.1 != '\r' with
      | true =>
        rw [Bool.and_eq_true] at hdrop
        rw [hd hdrop.1, hdrop.2]
        exact unindent_writeGap h indent next gap true true id
      | false =>
        have hstay : ∀ after : Bool, unindent after (spaces gap ++ xs) =
            unindent after (spaces (writeGap indent next false (ofBlanks gap)) ++ ys) :=
          fun after => unindent_writeGap h indent next gap false after (fun hf => by cases hf)
        have hkept : unindent skipping
              (spaces (c :: writeGap indent next false (ofBlanks gap)) ++ ys) =
            if c.1 = '\n' then _ else if skipping && c.1 != '\r' then
              unindent true (spaces (writeGap indent next false (ofBlanks gap)) ++ ys)
            else .space c.1 ::
              unindent false (spaces (writeGap indent next false (ofBlanks gap)) ++ ys) := rfl
        rw [if_neg Bool.false_ne_true, hkept, if_neg hc, hstay, hstay]

/-! ## Gaps -/

/-- A gap without line breaks is left as it is. -/
theorem writeGap_within_line (indent : Nat) (next : Next) {gap : List Blank}
    (h : ∀ c ∈ gap, c.1 ≠ '\n') : writeGap indent next false (ofBlanks gap) = gap := by
  induction gap with
  | nil => rfl
  | cons c rest ih =>
    have hrest := ih fun d hd => h d (List.mem_cons_of_mem c hd)
    have hwrite : writeGap indent next false (ofBlanks (c :: rest)) =
        c :: writeGap indent next false (ofBlanks rest) := if_neg (h c List.mem_cons_self)
    rw [hwrite, hrest]

/-- A line break that was indented once is indented again. -/
theorem indents_writeGap {indent : Nat} {next : Next} (hi : next = .closer → indent ≠ 0)
    (gap : List Blank) :
    indents next (ofBlanks ((if indents next (ofBlanks gap) then List.replicate indent .space
        else []) ++ writeGap indent next true (ofBlanks gap))) = indents next (ofBlanks gap) := by
  have hspaces : ∀ n, endsLine (ofBlanks (List.replicate n .space)) = false := by
    intro n
    induction n with
    | zero => rfl
    | succ n ih => exact ih
  have hends : endsLine (ofBlanks ((if indents next (ofBlanks gap) then
        List.replicate indent .space else []) ++ writeGap indent next true (ofBlanks gap))) =
      endsLine (ofBlanks gap) := by
    rw [ofBlanks, List.map_append, ← ofBlanks, ← ofBlanks, endsLine_append, endsLine_writeGap]
    split
    · rw [hspaces, Bool.false_or]
    · rfl
  cases next with
  | form => simp only [indents, all_not_isNewline] at hends ⊢; rw [hends]
  | nothing => simp [indents]
  | closer =>
    cases gap with
    | nil => rfl
    | cons c rest =>
      cases hn : endsLine (ofBlanks (c :: rest)) with
      | true =>
        rw [hn] at hends
        have hfalse : indents .closer (ofBlanks (c :: rest)) = false := by
          rw [indents, all_not_isNewline, hn]
          rfl
        rw [hfalse] at hends ⊢
        rw [indents, all_not_isNewline, hends]
        rfl
      | false =>
        -- the indentation itself makes the difference to an empty line
        have htrue : indents .closer (ofBlanks (c :: rest)) = true := by
          rw [indents, all_not_isNewline, hn]
          rfl
        obtain ⟨n, rfl⟩ := Nat.exists_eq_succ_of_ne_zero (hi rfl)
        rw [htrue] at hends ⊢
        rw [indents, all_not_isNewline, hends, hn]
        rfl

/-- **Writing what was written** gives what the source gives. -/
theorem writeGap_writeGap {first : Nat} (second : Nat) {next : Next}
    (hi : next = .closer → first ≠ 0) : ∀ (gap : List Blank) (skipping : Bool),
      writeGap second next skipping (ofBlanks (writeGap first next skipping (ofBlanks gap))) =
        writeGap second next skipping (ofBlanks gap)
  | [], _ => rfl
  | c :: gap, skipping => by
    by_cases hc : c.1 = '\n'
    · have hwrite : ∀ (indent : Nat) (rest : List Blank),
          writeGap indent next skipping (ofBlanks (c :: rest)) =
            .newline :: ((if indents next (ofBlanks rest) then List.replicate indent .space
              else []) ++ writeGap indent next true (ofBlanks rest)) := fun _ _ => if_pos hc
      have hspaces : ∀ (n : Nat) (rest : List Blank),
          writeGap second next true (ofBlanks (List.replicate n .space ++ rest)) =
            writeGap second next true (ofBlanks rest) := by
        intro n rest
        induction n with
        | zero => rfl
        | succ n ih => exact ih
      have hskip : writeGap second next true (ofBlanks ((if indents next (ofBlanks gap) then
            List.replicate first .space else []) ++ writeGap first next true (ofBlanks gap))) =
          writeGap second next true (ofBlanks gap) := by
        rw [← writeGap_writeGap second hi gap true]
        split
        · exact hspaces first _
        · rfl
      have hc' : Blank.newline = c := Subtype.ext hc.symm
      rw [hwrite first, hc', hwrite, hwrite, indents_writeGap hi, hskip]
    · have hkept : ∀ (indent : Nat) (rest : List Blank),
          writeGap indent next skipping (ofBlanks (c :: rest)) =
            if skipping && !(Mark.blank c).isNewline then writeGap indent next true (ofBlanks rest)
            else c :: writeGap indent next false (ofBlanks rest) := fun _ _ => if_neg hc
      rw [hkept first]
      split
      next hskip =>
        rw [hkept, if_pos hskip]
        rw [Bool.and_eq_true] at hskip
        rw [hskip.1]
        exact writeGap_writeGap second hi gap true
      next hskip => rw [hkept, hkept, if_neg hskip, if_neg hskip, writeGap_writeGap second hi gap]

/-- The writer keeps the neighbours of a gap apart. -/
theorem keepsApart_writeGap {xs ys : List Lexeme} (h : KeepsApart false xs ys) (indent : Nat)
    (next : Next) (gap : List Blank) :
    KeepsApart false (spaces gap ++ xs)
      (spaces (writeGap indent next false (ofBlanks gap)) ++ ys) := by
  intro p _ hchain
  cases gap with
  | nil => exact h p (fun hf => by cases hf) hchain
  | cons c gap =>
    have hxs := isChain_of_spaces_append hchain
    have hp := List.rel_of_isChain_cons_cons hchain
    obtain ⟨d, blanks, hwrite, hcd⟩ : ∃ d blanks,
        writeGap indent next false (ofBlanks (c :: gap)) = d :: blanks ∧
          (c.1 = '\n' → d.1 = '\n') := by
      by_cases hc : c.1 = '\n'
      · exact ⟨.newline, _, if_pos hc, fun _ => rfl⟩
      · exact ⟨c, _, if_neg hc, fun hn => absurd hn hc⟩
    rw [hwrite]
    exact List.isChain_cons_cons.mpr
      ⟨mayPrecede_space_of_space hcd hp, isChain_spaces_append h hxs blanks trivial⟩

/-! ## Rows with other gaps -/

/-- Whether some blanks can stand for others in front of lexemes that are related. -/
def StandsFor (R : List Lexeme → List Lexeme → Prop) (first second : List Blank) : Prop :=
  ∀ xs ys, R xs ys → R (spaces first ++ xs) (spaces second ++ ys)

section
variable {R : List Lexeme → List Lexeme → Prop} {first second : γ → List Blank}

mutual

/-- A form with other gaps is related to the form if its gaps stand for one another. -/
theorem Form.lexemes_related
    (hcons : ∀ x xs ys, x.isSpace = false → R xs ys → R (x :: xs) (x :: ys)) :
    ∀ f : Form γ, (f.All fun gap => StandsFor R (first gap) (second gap)) → ∀ xs ys, R xs ys →
      R (f.lexemes first ++ xs) (f.lexemes second ++ ys)
  | .word _, _, xs, ys, h | .stray _, _, xs, ys, h => hcons _ xs ys rfl h
  | .str .., _, xs, ys, h | .comment _, _, xs, ys, h => hcons _ xs ys rfl h
  | .group b row closed, hall, xs, ys, h => by
    have hcloser : R ((if closed then [.closing b] else []) ++ xs)
        ((if closed then [.closing b] else []) ++ ys) := by
      cases closed with
      | false => exact h
      | true => exact hcons _ xs ys rfl h
    have hrow := row.lexemes_related hcons hall _ _ hcloser
    simp only [Form.lexemes, List.cons_append, List.append_assoc]
    exact hcons _ _ _ rfl hrow
  | .quoted gap form, hall, xs, ys, h => by
    have hform := form.lexemes_related hcons hall.2 xs ys h
    simp only [Form.lexemes, List.cons_append, List.append_assoc]
    exact hcons _ _ _ rfl (hall.1 _ _ hform)
  | .bareQuote gap, hall, xs, ys, h => hcons _ _ _ rfl (hall xs ys h)

/-- So is a row with other gaps. -/
theorem Row.lexemes_related
    (hcons : ∀ x xs ys, x.isSpace = false → R xs ys → R (x :: xs) (x :: ys)) :
    ∀ row : Row γ, (row.All fun gap => StandsFor R (first gap) (second gap)) → ∀ xs ys, R xs ys →
      R (row.lexemes first ++ xs) (row.lexemes second ++ ys)
  | .last _, hall, xs, ys, h => hall xs ys h
  | .item gap form rest, hall, xs, ys, h => by
    have hrest := rest.lexemes_related hcons hall.2.2 xs ys h
    have hform := form.lexemes_related hcons hall.2.1 _ _ hrest
    simp only [Row.lexemes, List.append_assoc]
    exact hall.1 _ _ hform

end

end

mutual

/-- A form with more empty gaps is still grouped as in a text. -/
theorem Form.Regular.mono {first second : γ → Prop} : ∀ f : Form γ,
    (f.All fun gap => first gap → second gap) → f.Regular first → f.Regular second
  | .word _, _, _ | .stray _, _, _ | .str .., _, _ | .comment _, _, _ => trivial
  | .bareQuote _, _, _ => trivial
  | .group _ row _, hall, h => Row.Regular.mono row hall h
  | .quoted _ form, hall, h => ⟨h.1, Form.Regular.mono form hall.2 h.2⟩

/-- So is a row with more empty gaps. -/
theorem Row.Regular.mono {first second : γ → Prop} {own : Option Bracket} {atEnd : Bool} :
    ∀ row : Row γ, (row.All fun gap => first gap → second gap) → row.Regular first own atEnd →
      row.Regular second own atEnd
  | .last _, _, _ => trivial
  | .item _ form rest, hall, h => by
    obtain ⟨hform, hstray, hopen, hbare, hrest⟩ := h
    have hvoid : rest.IsVoid first → rest.IsVoid second := by
      cases rest with
      | last => exact hall.2.2
      | item => exact id
    have hfollows : rest.FollowsBare first → rest.FollowsBare second := by
      cases rest with
      | last => exact hall.2.2
      | item => exact fun h => ⟨hall.2.2.1 h.1, h.2⟩
    exact ⟨Form.Regular.mono form hall.2.1 hform, hstray,
      fun ho => ⟨(hopen ho).1, hvoid (hopen ho).2⟩, fun he => hfollows (hbare he),
      Row.Regular.mono rest hall.2.2 hrest⟩

end

mutual

/-- A form with more empty gaps nests no deeper. -/
theorem Form.fits_mono {first second : γ → List Blank} : ∀ (f : Form γ) (level : Nat),
    (f.All fun gap => first gap = [] → second gap = []) → (f.map first).fits level = true →
      (f.map second).fits level = true
  | .word _, _, _, h | .stray _, _, _, h | .str .., _, _, h | .comment _, _, _, h => h
  | .bareQuote _, _, _, h => h
  | .group _ row _, level, hall, h => by
    rw [Form.map, Form.fits, Bool.and_eq_true] at h ⊢
    exact ⟨h.1, row.fits_mono (level + 1) hall h.2⟩
  | .quoted _ form, level, hall, h => by
    rw [Form.map, Form.fits, Bool.and_eq_true] at h ⊢
    exact ⟨h.1, form.fits_mono (level + 1) hall.2 h.2⟩

/-- So does a row with more empty gaps. -/
theorem Row.fits_mono {first second : γ → List Blank} : ∀ (row : Row γ) (level : Nat),
    (row.All fun gap => first gap = [] → second gap = []) → (row.map first).fits level = true →
      (row.map second).fits level = true
  | .last gap, level, hall, h => by
    rw [Row.map, Row.fits, Bool.or_eq_true, List.isEmpty_iff] at h ⊢
    exact h.imp_left hall
  | .item _ form rest, level, hall, h => by
    rw [Row.map, Row.fits, Bool.and_eq_true] at h ⊢
    exact ⟨form.fits_mono level hall.2.1 h.1, rest.fits_mono level hall.2.2 h.2⟩

end

/-! ## Re-indented rows -/

/-- A gap of a source with its place and with what is written for it. -/
abbrev Indented := (Spot × List Blank) × List Blank

namespace Indented

/-- The place of the gap. -/
def spot (p : Indented) : Spot := p.1.1

/-- The gap of the source. -/
def source (p : Indented) : List Blank := p.1.2

/-- What is written for it. -/
def blanks (p : Indented) : List Blank := p.2

/-- What holds of everything that the writer writes on its own. -/
structure Valid (p : Indented) : Prop where
  proper : p.spot.Proper
  blanks : ∃ indent, p.spot.Indents indent ∧
    p.blanks = writeGap indent p.spot.next false (ofBlanks p.source)

namespace Valid

variable {p : Indented}

theorem blanks_of_empty (hv : p.Valid) (h : p.source = []) : p.blanks = [] := by
  obtain ⟨indent, -, hb⟩ := hv.blanks
  rw [hb, h]
  rfl

theorem standsFor_sameUnindented (hv : p.Valid) :
    StandsFor SameUnindented p.source p.blanks := by
  obtain ⟨indent, -, hb⟩ := hv.blanks
  intro xs ys h skipping
  rw [hb]
  exact unindent_writeGap h indent p.spot.next p.source false skipping fun hf => by cases hf

theorem standsFor_keepsApart (hv : p.Valid) :
    StandsFor (KeepsApart false) p.source p.blanks := by
  obtain ⟨indent, -, hb⟩ := hv.blanks
  intro xs ys h
  rw [hb]
  exact keepsApart_writeGap h indent p.spot.next p.source

/-- Within a line nothing changes. -/
theorem standsFor_within_line (hv : p.Valid) :
    StandsFor (fun xs ys => .space '\n' ∉ xs → xs = ys) p.source p.blanks := by
  obtain ⟨indent, -, hb⟩ := hv.blanks
  intro xs ys h hn
  rw [List.mem_append, not_or] at hn
  have hgap : ∀ c ∈ p.source, c.1 ≠ '\n' := by
    intro c hc hnewline
    exact hn.1 (List.mem_map.mpr ⟨c, hc, congrArg Lexeme.space hnewline⟩)
  rw [hb, writeGap_within_line indent p.spot.next hgap, h hn.2]

end Valid

end Indented

/-- The row of a source with what the writer makes of every gap. -/
def Row.indented (row : Row (List Blank)) : Row Indented :=
  (row.annotate (fun _ => false) (.start .root false row)).render (ofBlanks ∘ Prod.snd) .root 0 0

/-- The row that is written. -/
def Row.reindented (row : Row (List Blank)) : Row (List Blank) := row.indented.map Indented.blanks

namespace Row

theorem map_fst_indented (row : Row (List Blank)) :
    row.indented.map Prod.fst = row.annotate (fun _ => false) (.start .root false row) :=
  map_fst_render ..

theorem map_source_indented (row : Row (List Blank)) : row.indented.map Indented.source = row := by
  have hsnd := row.map_snd_annotate (fun _ => false) (.start .root false row)
  rw [← map_fst_indented, map_map] at hsnd
  exact hsnd

theorem placed_indented (row : Row (List Blank)) :
    row.indented.Placed Indented.spot (fun _ => false) (.start .root false row) := by
  have hplaced := row.placed_annotate (fun _ => false) (.start .root false row)
  rw [← map_fst_indented] at hplaced
  exact (row.indented.placed_map Prod.fst Prod.fst _ _).mp hplaced

theorem valid_indented (row : Row (List Blank)) : row.indented.All Indented.Valid := by
  have hproper := row.indented.all_proper _ (Reach.proper_start _ _ _) (placed_indented row)
  have hblanks := (row.annotate (fun _ => false) (.start .root false row)).all_render
    (ofBlanks ∘ Prod.snd) (.start .root false row) .root 0 0 rfl (by simp)
    (row.placed_annotate (fun _ => false) (.start .root false row))
  exact All.mono (fun _ h => ⟨h.1, h.2⟩) _ (All.and _ hproper hblanks)

theorem lexemes_source_indented (row : Row (List Blank)) :
    row.indented.lexemes Indented.source = row.lexemes id := by
  have hmap := row.indented.lexemes_map Indented.source id
  rw [map_source_indented] at hmap
  exact hmap.symm

theorem lexemes_reindented (row : Row (List Blank)) :
    row.reindented.lexemes id = row.indented.lexemes Indented.blanks := lexemes_map ..

theorem sameUnindented_reindented (row : Row (List Blank)) :
    SameUnindented (row.lexemes id) (row.reindented.lexemes id) := by
  have hcons : ∀ x xs ys, x.isSpace = false → SameUnindented xs ys →
      SameUnindented (x :: xs) (x :: ys) := by
    intro x xs ys hx h skipping
    rw [unindent_cons hx, unindent_cons hx, h]
  have hrow := row.indented.lexemes_related hcons
    (All.mono (fun _ hv => hv.standsFor_sameUnindented) _ (valid_indented row)) [] [] fun _ => rfl
  rwa [List.append_nil, List.append_nil, lexemes_source_indented, ← lexemes_reindented] at hrow

/-- A row without line breaks is left as it is. -/
theorem lexemes_reindented_within_line {row : Row (List Blank)}
    (h : .space '\n' ∉ row.lexemes id) : row.reindented.lexemes id = row.lexemes id := by
  have hcons : ∀ (x : Lexeme) (xs ys : List Lexeme), x.isSpace = false →
      (.space '\n' ∉ xs → xs = ys) → .space '\n' ∉ x :: xs → x :: xs = x :: ys := by
    intro x xs ys _ hxs hn
    rw [hxs fun hmem => hn (List.mem_cons_of_mem x hmem)]
  have hrow := row.indented.lexemes_related hcons
    (All.mono (fun _ hv => hv.standsFor_within_line) _ (valid_indented row)) [] [] fun _ => rfl
  rw [List.append_nil, List.append_nil, lexemes_source_indented, ← lexemes_reindented] at hrow
  exact (hrow h).symm

theorem filter_lexemes_reindented (row : Row (List Blank)) :
    (row.reindented.lexemes id).filter (fun x => !x.isSpace) =
      (row.lexemes id).filter fun x => !x.isSpace := by
  rw [lexemes_reindented, row.indented.filter_lexemes Indented.blanks id Indented.source,
    map_source_indented]

theorem canonical_reindented {row : Row (List Blank)}
    (h : Lexeme.Canonical .source (row.lexemes id)) :
    Lexeme.Canonical .source (row.reindented.lexemes id) where
  spelled := wellSpelled_of_filter h.spelled (filter_lexemes_reindented row)
  apart := by
    have hrow := row.indented.lexemes_related (R := KeepsApart false)
      (fun x _ _ _ h => h.cons x)
      (All.mono (fun _ hv => hv.standsFor_keepsApart) _ (valid_indented row)) [] [] .nil
    rw [List.append_nil, List.append_nil, lexemes_source_indented, ← lexemes_reindented] at hrow
    exact List.isChain_of_isChain_cons
      (hrow .quote (fun hf => by cases hf) (isChain_cons_of_free (p := .quote) trivial h.apart))

theorem regular_reindented {row : Row (List Blank)} (h : row.Regular IsEmpty none true) :
    row.reindented.Regular IsEmpty none true := by
  have hsource : row.indented.Regular (IsEmpty ∘ Indented.source) none true := by
    rw [← map_source_indented row] at h
    exact (row.indented.regular_map Indented.source IsEmpty none true).mp h
  exact (row.indented.regular_map Indented.blanks IsEmpty none true).mpr
    (Regular.mono _ (All.mono (fun _ hv => hv.blanks_of_empty) _ (valid_indented row)) hsource)

theorem fits_reindented {row : Row (List Blank)} (h : row.fits 0 = true) :
    row.reindented.fits 0 = true := by
  rw [← map_source_indented row] at h
  exact row.indented.fits_mono 0
    (All.mono (fun _ hv => hv.blanks_of_empty) _ (valid_indented row)) h

/-- **Writing a re-indented row** gives the same text again. -/
theorem text_reindented (row : Row (List Blank)) :
    row.reindented.indented.text = row.indented.text := by
  let again : Indented → Spot × List Blank := fun p => (p.spot, p.blanks)
  have hstart : Reach.start .root false row.reindented = .start .root false row := by
    rw [reindented, Reach.start_map, ← Reach.start_map .root false Indented.source,
      map_source_indented]
  have hannotate : row.reindented.annotate (fun _ => false) (.start .root false row.reindented) =
      row.indented.map again := by
    have hplaced := row.indented.annotate_of_placed _ (placed_indented row)
    have hfalse : (fun _ => false) ∘ Indented.blanks = fun _ => false := rfl
    rw [hstart, reindented, annotate_map, hfalse, hplaced, map_map]
    rfl
  have hwrites : row.indented.All fun p => ∀ indent, p.spot.Indents indent →
      writeGap indent p.spot.next false (ofBlanks p.blanks) =
        writeGap indent p.spot.next false (ofBlanks p.source) := by
    refine All.mono (fun p hv => ?_) _ (valid_indented row)
    obtain ⟨first, hi, hb⟩ := hv.blanks
    intro second _
    rw [hb]
    exact writeGap_writeGap second (hv.proper.indent_ne_zero hi) p.source false
  have hsecond : row.reindented.indented =
      (row.indented.render ((ofBlanks ∘ Prod.snd) ∘ again) .root 0 0).map (Prod.map again id) := by
    rw [← render_map, ← hannotate]
    rfl
  have hfirst : row.indented =
      (row.indented.render ((ofBlanks ∘ Prod.snd) ∘ Prod.fst) .root 0 0).map
        (Prod.map Prod.fst id) := by
    rw [← render_map, map_fst_indented]
    rfl
  have hcongr := row.indented.render_congr (.start .root false row) .root 0 0 rfl (by simp)
    (placed_indented row) hwrites
  have hsame : row.indented.render ((ofBlanks ∘ Prod.snd) ∘ again) .root 0 0 =
      row.indented.render ((ofBlanks ∘ Prod.snd) ∘ Prod.fst) .root 0 0 := hcongr
  rw [hsecond, text_map, hsame]
  conv_rhs => rw [hfirst, text_map]

end Row

/-! ## Formatting without passes -/

/-- A text formatted without passes is that of the re-indented row, unless it nests too deeply. -/
theorem formatWith_nil_eq {text : String} {row : Row (List Blank)}
    (hr : row.Regular Row.IsEmpty none true) (hs : Lexeme.scan .source text = row.lexemes id) :
    formatWith [] text = if row.fits 0 then String.ofList row.indented.text else text := by
  have hgaps : (row.annotate (fun _ => false) (.start .root false row)).map
      (ofBlanks ∘ Prod.snd) = row.source := by
    rw [← Row.map_map, Row.map_snd_annotate]
  have hm : (row.annotate (fun _ => false) (.start .root false row)).Matched none := by
    refine (Row.matched_map (ofBlanks ∘ Prod.snd) _ none).mp ?_
    rw [hgaps]
    exact (row.matched_map ofBlanks none).mpr (row.matched_of_regular none true hr)
  rw [formatWith, treeWith, Token.ofText_of_scan hr hs]
  cases row.fits 0 with
  | true =>
    have hwrite := Row.write_tree (ofBlanks ∘ Prod.snd) hm
    rw [hgaps] at hwrite
    exact hwrite
  | false => rfl

theorem scan_formatWith_nil {text : String} {row : Row (List Blank)}
    (hr : row.Regular Row.IsEmpty none true) (hs : Lexeme.scan .source text = row.lexemes id)
    (hf : row.fits 0 = true) :
    Lexeme.scan .source (formatWith [] text) = row.reindented.lexemes id := by
  have hcanonical : Lexeme.Canonical .source (row.lexemes id) :=
    hs ▸ Lexeme.canonical_scan .source text
  have htext : row.indented.text = (row.reindented.lexemes id).flatMap Lexeme.spelling := by
    rw [Row.lexemes_reindented]
    rfl
  rw [formatWith_nil_eq hr hs, if_pos hf, htext]
  exact Lexeme.scan_ofList (Row.canonical_reindented hcanonical)

/--
**Without passes formatting only re-indents.** Without their indentation the formatted
text and the text are the same; a text that has line breaks in strings only is left as
it is; and formatting twice is formatting once.
-/
theorem formatWith_nil_reindents (text : String) :
    unindented (formatWith [] text) = unindented text ∧
      (.space '\n' ∉ Lexeme.scan .source text → formatWith [] text = text) ∧
      formatWith [] (formatWith [] text) = formatWith [] text := by
  let row := Row.ofLexemes (Lexeme.scan .source text)
  have hr : row.Regular Row.IsEmpty none true := Row.regular_ofLexemes _
  have hs : Lexeme.scan .source text = row.lexemes id := scan_eq_lexemes_ofLexemes text
  have hformat := formatWith_nil_eq hr hs
  cases hf : row.fits 0 with
  | false =>
    -- a text that nests too deeply is left as it is
    rw [hf] at hformat
    have hself : formatWith [] text = text := hformat
    rw [hself]
    exact ⟨rfl, fun _ => rfl, hself⟩
  | true =>
    have hscan := scan_formatWith_nil hr hs hf
    refine ⟨?_, fun hn => ?_, ?_⟩
    · rw [unindented, unindented, hscan, hs, Row.sameUnindented_reindented row]
    · rw [hs] at hn
      rw [Row.lexemes_reindented_within_line hn, ← hs] at hscan
      have hspelling := Lexeme.spelling_scan .source (formatWith [] text)
      rw [hscan, Lexeme.spelling_scan] at hspelling
      exact String.toList_injective hspelling.symm
    · rw [formatWith_nil_eq (Row.regular_reindented hr) hscan,
        if_pos (Row.fits_reindented hf), Row.text_reindented, hformat, hf]
      rfl

/-- A text whose only line break is in a string, with more space than the passes leave. -/
theorem formatWith_nil_reindents_str :
    .space '\n' ∉ Lexeme.scan .source "(print  \"a\n b\"  '( c ; d" ∧
      formatWith [] "(print  \"a\n b\"  '( c ; d" = "(print  \"a\n b\"  '( c ; d" :=
  ⟨by decide, (formatWith_nil_reindents "(print  \"a\n b\"  '( c ; d").2.1 (by decide)⟩

end ExactLisp.Layout
