import ExactLisp.Proofs.Layout.Idempotent

/-!
# Quote marks with nothing to quote

The blanks after a bare quote mark belong to it, and so do those that a first formatting
puts between it and what follows. A space there is dropped again by the second formatting,
as nothing but line breaks is written after a bare quote mark
(`countBreaks_finished_bareQuote`). A line break is not: the quote mark keeps it.

So if every bare quote mark is read again with the line breaks that it had, and there is no
carriage return, all gaps are settled (`Row.settled_reread`). This can be told from the
lexemes before and after formatting (`Row.keepsBreaks_iff`).
-/

namespace ExactLisp.Layout

variable {γ δ : Type}

/-! ## The blanks after bare quote marks -/

/-- The characters of the white space that some lexemes start with. -/
def leadingBlanks (xs : List Lexeme) : List Char :=
  (xs.takeWhile Lexeme.isSpace).flatMap Lexeme.spelling

/-- The white space after each quote mark that is followed by nothing it can quote. -/
def bareBlanks : List Lexeme → List (List Char)
  | [] => []
  | .quote :: rest =>
    if startsForm rest then bareBlanks rest else leadingBlanks rest :: bareBlanks rest
  | _ :: rest => bareBlanks rest

mutual

/-- The gaps of the bare quote marks in a form. -/
def Form.bareGaps : Form γ → List γ
  | .group _ row _ => row.bareGaps
  | .quoted _ form => form.bareGaps
  | .bareQuote gap => [gap]
  | _ => []

/-- The gaps of the bare quote marks in a row. -/
def Row.bareGaps : Row γ → List γ
  | .last _ => []
  | .item _ form rest => form.bareGaps ++ rest.bareGaps

end

mutual

theorem Form.bareGaps_map (φ : γ → δ) : ∀ f : Form γ, (f.map φ).bareGaps = f.bareGaps.map φ
  | .word _ | .stray _ | .str .. | .comment _ | .bareQuote _ => rfl
  | .group _ row _ => row.bareGaps_map φ
  | .quoted _ form => form.bareGaps_map φ

theorem Row.bareGaps_map (φ : γ → δ) : ∀ row : Row γ, (row.map φ).bareGaps = row.bareGaps.map φ
  | .last _ => rfl
  | .item _ form rest => by
    rw [Row.map, Row.bareGaps, Row.bareGaps, form.bareGaps_map φ, rest.bareGaps_map φ,
      List.map_append]

end

/-- Whether some lexemes start, without white space, with what a quote mark cannot quote. -/
def refusesQuote : List Lexeme → Bool
  | [] | .closing _ :: _ | .comment _ :: _ => true
  | _ => false

theorem startsForm_spaces_append (blanks : List Blank) (xs : List Lexeme) :
    startsForm (spaces blanks ++ xs) = startsForm xs := by
  rw [startsForm, startsForm, dropWhile_spaces_append]

theorem bareBlanks_spaces_append (blanks : List Blank) (xs : List Lexeme) :
    bareBlanks (spaces blanks ++ xs) = bareBlanks xs := by
  induction blanks with
  | nil => rfl
  | cons c rest ih => exact ih

theorem leadingBlanks_spaces_append (blanks : List Blank) {xs : List Lexeme}
    (h : refusesQuote xs = true) : leadingBlanks (spaces blanks ++ xs) = characters blanks := by
  induction blanks with
  | nil =>
    rcases xs with _ | ⟨_ | _ | _ | _ | _ | _ | _, rest⟩
    all_goals first | rfl | cases h
  | cons c rest ih =>
    have hcons : leadingBlanks (spaces (c :: rest) ++ xs) = c.1 :: leadingBlanks (spaces rest ++ xs) :=
      rfl
    rw [hcons, ih]
    rfl

theorem startsForm_of_refusesQuote {xs : List Lexeme} (h : refusesQuote xs = true) :
    startsForm xs = false := by
  rcases xs with _ | ⟨_ | _ | _ | _ | _ | _ | _, rest⟩
  all_goals first | rfl | cases h

/-- What a quote mark can quote, it takes. -/
theorem startsForm_form {f : Form γ} (h : f.isQuotable = true) (blanks : γ → List Blank)
    (xs : List Lexeme) : startsForm (f.lexemes blanks ++ xs) = true := by
  cases f with
  | stray | comment => cases h
  | word | str | group | quoted | bareQuote => rfl

mutual

/-- The bare quote marks among the lexemes of a form are those of the form. -/
theorem Form.bareBlanks_lexemes (blanks : γ → List Blank) : ∀ (f : Form γ) (xs : List Lexeme),
    (f.Regular fun gap => blanks gap = []) →
      ((f.endsBare || f.isOpen) = true → refusesQuote xs = true) →
        bareBlanks (f.lexemes blanks ++ xs) =
          (f.bareGaps.map fun gap => characters (blanks gap)) ++ bareBlanks xs
  | .word _, _, _, _ | .stray _, _, _, _ | .str .., _, _, _ | .comment _, _, _, _ => rfl
  | .group b row closed, xs, hr, hx => by
    cases closed with
    | true =>
      have hrow := row.bareBlanks_lexemes blanks (some b) false (.closing b :: xs) hr rfl
      have hcons : (Form.group b row true).lexemes blanks ++ xs =
          .opening b :: (row.lexemes blanks ++ .closing b :: xs) := by simp [Form.lexemes]
      rw [hcons]
      exact hrow
    | false =>
      have hrow := row.bareBlanks_lexemes blanks (some b) true xs hr (hx rfl)
      have hcons : (Form.group b row false).lexemes blanks ++ xs =
          .opening b :: (row.lexemes blanks ++ xs) := by simp [Form.lexemes]
      rw [hcons]
      exact hrow
  | .quoted gap form, xs, hr, hx => by
    have hform := form.bareBlanks_lexemes blanks xs hr.2 hx
    have hcons : (Form.quoted gap form).lexemes blanks ++ xs =
        .quote :: (spaces (blanks gap) ++ (form.lexemes blanks ++ xs)) := by simp [Form.lexemes]
    rw [hcons, bareBlanks, startsForm_spaces_append, startsForm_form hr.1, if_pos rfl,
      bareBlanks_spaces_append, hform, Form.bareGaps]
  | .bareQuote gap, xs, _, hx => by
    have hx := hx rfl
    have hcons : (Form.bareQuote gap).lexemes blanks ++ xs =
        .quote :: (spaces (blanks gap) ++ xs) := rfl
    rw [hcons, bareBlanks, startsForm_spaces_append, startsForm_of_refusesQuote hx,
      if_neg Bool.false_ne_true, leadingBlanks_spaces_append _ hx, bareBlanks_spaces_append]
    rfl

theorem Row.bareBlanks_lexemes (blanks : γ → List Blank) : ∀ (row : Row γ)
    (own : Option Bracket) (atEnd : Bool) (xs : List Lexeme),
    row.Regular (fun gap => blanks gap = []) own atEnd → refusesQuote xs = true →
      bareBlanks (row.lexemes blanks ++ xs) =
        (row.bareGaps.map fun gap => characters (blanks gap)) ++ bareBlanks xs
  | .last gap, _, _, xs, _, _ => bareBlanks_spaces_append ..
  | .item gap form rest, own, atEnd, xs, hr, hx => by
    obtain ⟨hform, -, hopen, hbare, hrest⟩ := hr
    -- after a bare quote mark, or what lacks its end, there is nothing to quote
    have hnext : (form.endsBare || form.isOpen) = true →
        refusesQuote (rest.lexemes blanks ++ xs) = true := by
      intro h
      rw [Bool.or_eq_true] at h
      cases rest with
      | last other =>
        have hempty : blanks other = [] := h.elim (fun he => hbare he) fun ho => (hopen ho).2
        rw [Row.lexemes, hempty]
        exact hx
      | item other next others =>
        have hfollows := h.elim (fun he => hbare he) fun ho => absurd (hopen ho).2 id
        rw [Row.lexemes, show blanks other = [] from hfollows.1]
        cases next with
        | stray | comment => rfl
        | word | str | group | quoted | bareQuote => cases hfollows.2
    have hf := form.bareBlanks_lexemes blanks (rest.lexemes blanks ++ xs) hform hnext
    have hr := rest.bareBlanks_lexemes blanks own atEnd xs hrest hx
    have hassoc : (Row.item gap form rest).lexemes blanks ++ xs =
        spaces (blanks gap) ++ (form.lexemes blanks ++ (rest.lexemes blanks ++ xs)) := by
      simp [Row.lexemes]
    rw [hassoc, bareBlanks_spaces_append, hf, hr, Row.bareGaps, List.map_append,
      List.append_assoc]

end

/-! ## What is written after a bare quote mark -/

/-- Some line breaks. -/
def lineBreaks (n : Nat) : List Blank := List.replicate n .newline

/-- The number of line breaks among some blanks. -/
def countBreaks (blanks : List Blank) : Nat := (characters blanks).count '\n'

theorem countBreaks_cons (c : Blank) (rest : List Blank) :
    countBreaks (c :: rest) = countBreaks rest + if c.1 = '\n' then 1 else 0 := by
  rw [countBreaks, characters, List.map_cons, List.count_cons]
  simp [countBreaks, characters]

theorem countBreaks_append (first second : List Blank) :
    countBreaks (first ++ second) = countBreaks first + countBreaks second := by
  rw [countBreaks, characters, List.map_append, List.count_append]
  rfl

theorem countBreaks_lineBreaks (n : Nat) : countBreaks (lineBreaks n) = n := by
  induction n with
  | zero => rfl
  | succ n ih =>
    have hcons : lineBreaks (n + 1) = .newline :: lineBreaks n := rfl
    rw [hcons, countBreaks_cons, ih]
    rfl

/-- Whether no carriage return is among some blanks. -/
def NoReturn (blanks : List Blank) : Prop := '\r' ∉ characters blanks

theorem NoReturn.of_cons {c : Blank} {rest : List Blank} (h : NoReturn (c :: rest)) :
    NoReturn rest := fun hr => h (List.mem_cons_of_mem _ hr)

theorem NoReturn.append {first second : List Blank} (h : NoReturn first) (h' : NoReturn second) :
    NoReturn (first ++ second) := by
  intro hr
  rw [characters, List.map_append, List.mem_append] at hr
  exact hr.elim h h'

theorem noReturn_lineBreaks (n : Nat) : NoReturn (lineBreaks n) := by
  intro hr
  obtain ⟨c, hc, hreturn⟩ := List.mem_map.mp hr
  rw [List.eq_of_mem_replicate hc] at hreturn
  cases hreturn

/-- Without carriage returns, only line breaks end a line. -/
theorem NoReturn.isNewline_head {c : Blank} {rest : List Blank} (h : NoReturn (c :: rest)) :
    (Mark.blank c).isNewline = true ↔ c = .newline := by
  have hc : c.1 ≠ '\r' := fun hr => h (hr ▸ List.mem_cons_self)
  rw [Subtype.ext_iff]
  simp [Mark.isNewline, Blank.newline, hc]

theorem collapse_blank {c : Blank} (hc : ¬ (Mark.blank c).isNewline = true) (afterSpace : Bool)
    (rest : List Blank) :
    collapse afterSpace (ofBlanks (c :: rest)) =
      if afterSpace then collapse true (ofBlanks rest) else .space :: collapse true (ofBlanks rest) :=
  if_neg hc

/-- At the end of an aggregate line breaks are not indented. -/
theorem writeGap_newline (indent : Nat) (skipping : Bool) (gap : Gap) :
    writeGap indent .nothing skipping (.blank .newline :: gap) =
      .newline :: writeGap indent .nothing true gap := by
  have hindents : indents .nothing gap = false := Bool.and_false _
  have hwrite : writeGap indent .nothing skipping (.blank .newline :: gap) =
      .newline :: ((if indents .nothing gap then List.replicate indent .space else []) ++
        writeGap indent .nothing true gap) := if_pos rfl
  rw [hwrite, hindents, if_neg Bool.false_ne_true, List.nil_append]

/-- At the end of an aggregate all line breaks of a gap are written, and no others. -/
theorem countBreaks_writeGap (indent : Nat) (blanks : List Blank) (skipping afterSpace : Bool) :
    countBreaks (writeGap indent .nothing skipping (collapse afterSpace (ofBlanks blanks))) =
      countBreaks blanks := by
  induction blanks generalizing skipping afterSpace with
  | nil => rfl
  | cons c rest ih =>
    by_cases hc : c = .newline
    · subst hc
      have hcollapse : collapse afterSpace (ofBlanks (.newline :: rest)) =
          .blank .newline :: collapse false (ofBlanks rest) := rfl
      rw [hcollapse, writeGap_newline, countBreaks_cons, countBreaks_cons, ih]
    have hne : c.1 ≠ '\n' := fun he => hc (Subtype.ext he)
    rw [countBreaks_cons, if_neg hne, Nat.add_zero]
    by_cases hm : (Mark.blank c).isNewline = true
    · -- a carriage return is written as it is
      have hcollapse : collapse afterSpace (ofBlanks (c :: rest)) =
          .blank c :: collapse false (ofBlanks rest) := if_pos hm
      rw [hcollapse, writeGap, if_neg hne, hm, Bool.not_true, Bool.and_false,
        if_neg Bool.false_ne_true, countBreaks_cons, if_neg hne, Nat.add_zero, ih]
    · rw [collapse_blank hm]
      cases afterSpace with
      | true => exact ih skipping true
      | false =>
        cases skipping with
        | true => exact ih true true
        | false =>
          have hspace : writeGap indent .nothing false (.space :: collapse true (ofBlanks rest)) =
              .space :: writeGap indent .nothing false (collapse true (ofBlanks rest)) := rfl
          rw [if_neg Bool.false_ne_true, hspace, countBreaks_cons, ih]
          rfl

theorem countBreaks_writeGap_dropSpace (indent : Nat) (gap : Gap) :
    countBreaks (writeGap indent .nothing false (dropSpace gap)) =
      countBreaks (writeGap indent .nothing false gap) := by
  cases gap with
  | nil => rfl
  | cons m rest =>
    rw [dropSpace]
    split
    next hm =>
      cases m with
      | lineBreak => cases hm
      | blank c =>
        have hc : c.1 = ' ' := by
          simpa [Mark.token, Token.char, Token.plain, Token.atomText?] using hm
        have hne : c.1 ≠ '\n' := by
          rw [hc]
          decide
        rw [writeGap, if_neg hne, Bool.false_and, if_neg Bool.false_ne_true, countBreaks_cons,
          if_neg hne, Nat.add_zero]
    · rfl

/-- **After a bare quote mark** all line breaks stay, and no others are written. -/
theorem countBreaks_finished_bareQuote (indent : Nat) (blanks : List Blank) :
    countBreaks (writeGap indent .nothing false (finished (.afterQuote false) (ofBlanks blanks))) =
      countBreaks blanks := by
  rw [finished_bareQuote, countBreaks_writeGap_dropSpace, countBreaks_writeGap]

/--
At the end of an aggregate only the line breaks of a gap are written, if the spaces at its
start are dropped: after a line break by the writer, and after a space by collapsing.
-/
theorem writeGap_collapse (indent : Nat) {blanks : List Blank} (h : NoReturn blanks)
    {skipping afterSpace : Bool} (hs : (skipping || afterSpace) = true) :
    writeGap indent .nothing skipping (collapse afterSpace (ofBlanks blanks)) =
      lineBreaks (countBreaks blanks) := by
  induction blanks generalizing skipping afterSpace with
  | nil => rfl
  | cons c rest ih =>
    have ih := @ih h.of_cons
    by_cases hc : c = .newline
    · subst hc
      have hcollapse : collapse afterSpace (ofBlanks (.newline :: rest)) =
          .blank .newline :: collapse false (ofBlanks rest) := rfl
      rw [hcollapse, writeGap_newline, ih rfl, countBreaks_cons]
      rfl
    · have hcount : countBreaks (c :: rest) = countBreaks rest := by
        have hne : c.1 ≠ '\n' := fun he => hc (Subtype.ext he)
        rw [countBreaks_cons, if_neg hne, Nat.add_zero]
      rw [collapse_blank (mt h.isNewline_head.mp hc), hcount]
      cases afterSpace with
      | true => exact ih (Bool.or_true _)
      | false =>
        -- the writer is after a line break, and drops the space
        rw [Bool.or_false] at hs
        subst hs
        exact ih rfl

/-- Without carriage returns nothing but these line breaks is written there. -/
theorem writeGap_finished_bareQuote (indent : Nat) {blanks : List Blank} (h : NoReturn blanks) :
    writeGap indent .nothing false (finished (.afterQuote false) (ofBlanks blanks)) =
      lineBreaks (countBreaks blanks) := by
  rw [finished_bareQuote]
  cases blanks with
  | nil => rfl
  | cons c rest =>
    by_cases hc : c = .newline
    · subst hc
      have hdrop : dropSpace (collapse false (ofBlanks (.newline :: rest))) =
          .blank .newline :: collapse false (ofBlanks rest) := rfl
      rw [hdrop, writeGap_newline, writeGap_collapse indent h.of_cons rfl, countBreaks_cons]
      rfl
    · -- the space at the start is dropped with the ones that follow it
      have hline := mt h.isNewline_head.mp hc
      have hdrop : dropSpace (collapse false (ofBlanks (c :: rest))) =
          collapse true (ofBlanks (c :: rest)) := by
        rw [collapse_blank hline, collapse_blank hline, if_neg Bool.false_ne_true, if_pos rfl]
        rfl
      rw [hdrop, writeGap_collapse indent h rfl]

/-! ## Bare quote marks that keep their lines -/

/-- Whether some blanks are what separates two forms within a line. -/
def WithinLine (blanks : List Blank) : Prop := blanks = [] ∨ blanks = [.space]

theorem WithinLine.endsLine {blanks : List Blank} (h : WithinLine blanks) :
    endsLine (ofBlanks blanks) = false := by
  rcases h with rfl | rfl <;> rfl

theorem WithinLine.countBreaks {blanks : List Blank} (h : WithinLine blanks) :
    countBreaks blanks = 0 := by
  rcases h with rfl | rfl <;> rfl

theorem WithinLine.noReturn {blanks : List Blank} (h : WithinLine blanks) : NoReturn blanks := by
  rcases h with rfl | rfl
  · exact List.not_mem_nil
  · unfold NoReturn
    decide

/-- Where a gap was empty a line break is written if the line is broken there. -/
theorem countBreaks_written_pos {r : Reach} {next : Next} {extra : Nat}
    (h : (mark r next).or (Breaker.continuations r next []) = some extra) (indent : Nat) :
    0 < countBreaks (written (.inRow r next) indent []) := by
  have hfinished := finished_inRow plain_nil r next
  rw [h] at hfinished
  rw [written, hfinished]
  exact Nat.lt_of_lt_of_eq (Nat.succ_pos _) (countBreaks_cons .newline _).symm

/-- Otherwise nothing is written, or a space. -/
theorem withinLine_written {r : Reach} {next : Next}
    (h : (mark r next).or (Breaker.continuations r next []) = none) (indent : Nat) :
    WithinLine (written (.inRow r next) indent []) := by
  have hfinished := finished_inRow plain_nil r next
  rw [h] at hfinished
  have hspaced : spaced (.inRow r next) [] = [] ∨ spaced (.inRow r next) [] = [.space] := by
    have htidy := tidy_spaced plain_nil r next
    have hline : endsLine (spaced (.inRow r next) []) = false :=
      endsLine_spaced (fun h => by cases h) []
    exact htidy.of_endsLine_false hline
  have hwritten : written (.inRow r next) indent [] =
      writeGap indent next false (spaced (.inRow r next) []) := by
    rw [written, hfinished]
    rfl
  rw [hwritten]
  rcases hspaced with h | h
  · left
    rw [h]
    rfl
  · right
    rw [h]
    rfl

theorem written_empty (r : Reach) (next : Next) (indent : Nat) :
    0 < countBreaks (written (.inRow r next) indent []) ∨
      WithinLine (written (.inRow r next) indent []) := by
  cases hbreak : (mark r next).or (Breaker.continuations r next []) with
  | some extra => exact Or.inl (countBreaks_written_pos hbreak indent)
  | none => exact Or.inr (withinLine_written hbreak indent)

namespace Laid.Valid

variable {p : Laid}

/-- A gap whose blanks are taken away is settled if it was empty and stays within its line. -/
theorem settled_taken (hv : p.Valid) (hs : p.source = []) (hw : WithinLine p.blanks) :
    Reread.Settled (p, []) where
  valid := hv
  long := by
    obtain ⟨indent, -, hb⟩ := hv.blanks
    have hfinal : p.isFinal = false := by
      rw [isFinal, ← endsLine_writeGap indent p.spot.next _ false]
      rw [hb, written] at hw
      exact hw.endsLine
    have hlong : Reread.isLong (p, []) = p.isLong := by
      rw [isLong, hs]
      rfl
    have hfinished := endsLine_finished p.spot p.source hv.plain
    rw [← hv.arranged_eq] at hfinished
    have hor : (p.isLong || _) = false := hfinished.symm.trans hfinal
    rw [hlong, hfinal]
    exact (Bool.or_eq_false_iff.mp hor).1
  writes indent := by
    rw [hv.final_again, hv.final_first, hs]
    rfl

theorem source_eq (hv : p.Valid) : p.source = ofBlanks (blanksOf p.source) := by
  obtain ⟨source, hsource⟩ := hv.source
  rw [hsource, blanksOf_ofBlanks]

/-- Only line breaks are written after a bare quote mark. -/
theorem blanks_of_bareQuote (hv : p.Valid) (hs : p.spot = .afterQuote false)
    (hr : NoReturn (blanksOf p.source)) :
    p.blanks = lineBreaks (countBreaks (blanksOf p.source)) := by
  obtain ⟨indent, -, hb⟩ := hv.blanks
  rw [hs, hv.source_eq] at hb
  rw [hb]
  exact writeGap_finished_bareQuote indent hr

/-- A bare quote mark is settled if what it takes stays within its line. -/
theorem settled_bareQuote (hv : p.Valid) (hs : p.spot = .afterQuote false)
    (hr : NoReturn (blanksOf p.source)) {after : List Blank} (hw : WithinLine after) :
    Reread.Settled (p, p.blanks ++ after) where
  valid := hv
  long := by
    obtain ⟨indent, -, hb⟩ := hv.blanks
    have happend : ofBlanks (p.blanks ++ after) = ofBlanks p.blanks ++ ofBlanks after :=
      List.map_append
    have hspaced := endsLine_spaced (s := .afterQuote false) (fun h => by cases h)
      (ofBlanks (p.blanks ++ after))
    show endsLine (Layout.arranged p.1.2.1 (ofBlanks (p.blanks ++ after))) = _
    rw [hv.arranged_eq, hs, arranged_afterQuote, hspaced, happend, endsLine_append, hw.endsLine,
      Bool.or_false, hb, written, endsLine_writeGap]
    rfl
  writes indent := by
    have hblanks := hv.blanks_of_bareQuote hs hr
    have hreturn : NoReturn (p.blanks ++ after) := by
      rw [hblanks]
      exact (noReturn_lineBreaks _).append hw.noReturn
    have hcount : countBreaks (p.blanks ++ after) = countBreaks (blanksOf p.source) := by
      rw [countBreaks_append, hw.countBreaks, hblanks, countBreaks_lineBreaks, Nat.add_zero]
    have hfirst := writeGap_finished_bareQuote indent hr
    have hagain := writeGap_finished_bareQuote indent hreturn
    rw [hcount, ← hfirst, ← hv.source_eq] at hagain
    rw [hv.final_again, hv.final_first, hs]
    exact hagain

end Laid.Valid

/-- Whether the gap of a bare quote mark is read again with as many line breaks. -/
def Reread.KeepsBreaks (q : Reread) : Prop := countBreaks q.2 = countBreaks (blanksOf q.1.source)

/-- A bare quote mark keeps its line breaks if no other was put after it. -/
theorem Laid.Valid.keepsBreaks_iff {p : Laid} (hv : p.Valid) (hs : p.spot = .afterQuote false)
    (after : List Blank) : Reread.KeepsBreaks (p, p.blanks ++ after) ↔ countBreaks after = 0 := by
  have hcount : countBreaks p.blanks = countBreaks (blanksOf p.source) := by
    obtain ⟨indent, -, hb⟩ := hv.blanks
    rw [hs, hv.source_eq] at hb
    rw [hb]
    exact countBreaks_finished_bareQuote indent _
  have happend := countBreaks_append p.blanks after
  show countBreaks (p.blanks ++ after) = countBreaks (blanksOf p.source) ↔ _
  omega

/-- If a form keeps the line breaks of the bare quote mark at its end, no other was put there. -/
theorem Form.countBreaks_after : ∀ (f : Form Laid) (isBindings : Bool) (after : List Blank),
    f.Placed Laid.spot Laid.isLong isBindings → f.All Laid.Valid → f.endsBare = true →
      (∀ q ∈ (f.reread Laid.blanks after).bareGaps, Reread.KeepsBreaks q) → countBreaks after = 0
  | .quoted _ form, _, after, hp, hv, he, hk =>
    form.countBreaks_after false after hp.2 hv.2 he hk
  | .bareQuote p, _, after, hp, hv, _, hk =>
    (Laid.Valid.keepsBreaks_iff hv hp after).mp (hk (p, p.blanks ++ after) List.mem_cons_self)

theorem Row.firstGap_of_all {P : γ → Prop} {row : Row γ} (h : row.All P) : P row.firstGap := by
  cases row with
  | last => exact h
  | item => exact h.1

theorem Row.spot_firstGap {spot : γ → Spot} {breaks : γ → Bool} {row : Row γ} {r : Reach}
    (h : row.Placed spot breaks r) : ∃ next, spot row.firstGap = .inRow r next := by
  cases row with
  | last => exact ⟨_, h⟩
  | item => exact ⟨_, h.1⟩

theorem Row.empty_firstGap {empty : γ → Prop} {row : Row γ} (h : row.FollowsBare empty) :
    empty row.firstGap := by
  cases row with
  | last => exact h
  | item => exact h.1

theorem Laid.Valid.settled_gap {p : Laid} (hv : p.Valid) {taken : Bool}
    (ht : taken = true → p.IsEmpty ∧ WithinLine p.blanks) :
    Reread.Settled (p, if taken then [] else p.blanks) := by
  cases taken with
  | false => exact hv.settled
  | true => exact hv.settled_taken (ht rfl).1 (ht rfl).2

mutual

/-- In a form whose bare quote marks keep their line breaks all gaps are settled. -/
theorem Form.settled_reread : ∀ (f : Form Laid) (isBindings : Bool) (after : List Blank),
    f.Placed Laid.spot Laid.isLong isBindings → f.All Laid.Valid → f.Regular Laid.IsEmpty →
      (∀ q ∈ (f.reread Laid.blanks after).bareGaps,
        NoReturn (blanksOf q.1.source) ∧ Reread.KeepsBreaks q) →
        (f.endsBare = true → WithinLine after) →
          (f.reread Laid.blanks after).All Reread.Settled
  | .word _, _, _, _, _, _, _, _ => trivial
  | .stray _, _, _, _, _, _, _, _ => trivial
  | .str .., _, _, _, _, _, _, _ => trivial
  | .comment _, _, _, _, _, _, _, _ => trivial
  | .bareQuote p, _, after, hp, hv, _, hk, hw =>
    have hkeeps := hk (p, p.blanks ++ after) List.mem_cons_self
    Laid.Valid.settled_bareQuote hv hp hkeeps.1 (hw rfl)
  | .group b row closed, isBindings, _, hp, hv, hr, hk, _ =>
    row.settled_reread (.start (.group b closed) isBindings row) (some b) (!closed) false hp hv hr
      hk fun h => by cases h
  | .quoted gap form, _, after, hp, hv, hr, hk, hw =>
    ⟨Laid.Valid.settled hv.1, form.settled_reread false after hp.2 hv.2 hr.2 hk hw⟩

/-- In a row whose bare quote marks keep their line breaks all gaps are settled. -/
theorem Row.settled_reread : ∀ (row : Row Laid) (r : Reach) (own : Option Bracket)
    (atEnd taken : Bool), row.Placed Laid.spot Laid.isLong r → row.All Laid.Valid →
      row.Regular Laid.IsEmpty own atEnd →
        (∀ q ∈ (row.reread Laid.blanks taken).bareGaps,
          NoReturn (blanksOf q.1.source) ∧ Reread.KeepsBreaks q) →
          (taken = true → row.firstGap.IsEmpty ∧ WithinLine row.firstGap.blanks) →
            (row.reread Laid.blanks taken).All Reread.Settled
  | .last _, _, _, _, _, _, hv, _, _, ht => Laid.Valid.settled_gap hv ht
  | .item p form rest, r, own, atEnd, taken, hp, hv, hr, hk, ht => by
    obtain ⟨-, hpForm, hpRest⟩ := hp
    obtain ⟨hv, hvForm, hvRest⟩ := hv
    obtain ⟨hrForm, -, -, hbare, hrRest⟩ := hr
    have hkForm := fun q hq => hk q (List.mem_append_left _ hq)
    have hkRest := fun q hq => hk q (List.mem_append_right _ hq)
    -- the blanks that a bare quote mark takes are within its line
    have htaken : form.endsBare = true →
        rest.firstGap.IsEmpty ∧ WithinLine rest.firstGap.blanks := by
      intro he
      have hempty := Row.empty_firstGap (hbare he)
      have hcount := form.countBreaks_after _ _ hpForm hvForm he fun q hq => (hkForm q hq).2
      obtain ⟨next, hs⟩ := Row.spot_firstGap hpRest
      obtain ⟨indent, -, hb⟩ := (Row.firstGap_of_all hvRest).blanks
      rw [hs, show rest.firstGap.source = [] from hempty] at hb
      refine ⟨hempty, ?_⟩
      rw [hb] at hcount ⊢
      exact (written_empty _ next indent).resolve_left (by omega)
    exact ⟨hv.settled_gap ht,
      form.settled_reread _ _ hpForm hvForm hrForm hkForm fun he => (htaken he).2,
      rest.settled_reread _ own atEnd _ hpRest hvRest hrRest hkRest htaken⟩

end

/-! ## Formatting twice -/

theorem Row.bareBlanks_of_regular {row : Row (List Blank)} (hr : row.Regular IsEmpty none true) :
    bareBlanks (row.lexemes id) = row.bareGaps.map characters := by
  have hlexemes := row.bareBlanks_lexemes id none true [] hr rfl
  rw [List.append_nil] at hlexemes
  exact hlexemes.trans (List.append_nil _)

theorem Row.bareGaps_reread (row : Row (List Blank)) :
    row.bareGaps =
      (row.laid.reread Laid.blanks false).bareGaps.map fun q => blanksOf q.1.source := by
  have hmap := (row.laid.reread Laid.blanks false).map_map Prod.fst fun p => blanksOf p.source
  rw [map_fst_reread, map_blanksOf_laid] at hmap
  exact (congrArg bareGaps hmap).trans (bareGaps_map ..)

/-- What is read after the bare quote marks of a formatted text. -/
theorem Row.keepsBreaks_iff {row : Row (List Blank)} (hr : row.Regular IsEmpty none true) :
    (∀ q ∈ (row.laid.reread Laid.blanks false).bareGaps, Reread.KeepsBreaks q) ↔
      (bareBlanks (row.formatted.lexemes id)).map (List.count '\n') =
        (bareBlanks (row.lexemes id)).map (List.count '\n') := by
  let gaps := (row.laid.reread Laid.blanks false).bareGaps
  have hsource : row.bareGaps = gaps.map fun q => blanksOf q.1.source := bareGaps_reread row
  have hformatted : row.formatted.bareGaps = gaps.map Prod.snd := Row.bareGaps_map ..
  rw [bareBlanks_of_regular hr, bareBlanks_of_regular (regular_formatted hr), hsource, hformatted,
    List.map_map, List.map_map, List.map_map, List.map_map, List.map_inj_left]
  exact Iff.rfl

end ExactLisp.Layout
