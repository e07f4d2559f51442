import ExactLisp.Proofs.Layout.Formatted

/-!
# What becomes of one gap

A gap goes through the passes and the writer, and when the text is formatted again
what was written for it goes through them once more. The second time changes nothing:
the spaces that the writer puts after a line break are collapsed by the spacing pass,
and the writer drops what is left of them before it puts them there again
(`writeGap_respaced`).
-/

namespace ExactLisp.Layout

/-! ## Line breaks in a gap -/

/-- A gap in which no pass has inserted a line break. -/
def Plain (gap : Gap) : Prop := gap.any Mark.isInserted = false

theorem plain_nil : Plain [] := rfl

theorem plain_ofBlanks (blanks : List Blank) : Plain (ofBlanks blanks) := by
  rw [Plain, ofBlanks, List.any_map, List.any_eq_false]
  intro c _
  exact Bool.false_ne_true

theorem plain_collapse {gap : Gap} (h : Plain gap) (afterSpace : Bool) :
    Plain (collapse afterSpace gap) := by
  induction gap generalizing afterSpace with
  | nil => rfl
  | cons m rest ih =>
    rw [Plain, List.any_cons, Bool.or_eq_false_iff] at h
    have ih := ih h.2
    rw [collapse]
    split
    · rw [Plain, List.any_cons, h.1, Bool.false_or]
      exact ih false
    · split
      · exact ih true
      · exact ih true

theorem plain_dropSpace {gap : Gap} (h : Plain gap) : Plain (dropSpace gap) := by
  cases gap with
  | nil => rfl
  | cons m rest =>
    rw [dropSpace]
    split
    · rw [Plain, List.any_cons, Bool.or_eq_false_iff] at h
      exact h.2
    · exact h

theorem plain_separate {gap : Gap} (h : Plain gap) : Plain (separate gap) := by
  cases gap with
  | nil => rfl
  | cons => exact h

theorem plain_spaced {gap : Gap} (h : Plain gap) (s : Spot) : Plain (spaced s gap) := by
  have hcollapsed : Plain (collapsed s gap) := by
    rcases s with _ | ⟨_ | _⟩
    · exact plain_collapse h false
    · exact plain_collapse h false
    · rfl
  have htrimmed : Plain (trimmed s (collapsed s gap)) := by
    rcases s with ⟨r, next⟩ | quotes
    · rw [trimmed]
      split
      · exact plain_dropSpace hcollapsed
      · exact hcollapsed
    · exact plain_dropSpace hcollapsed
  rcases s with ⟨r, _ | _ | _⟩ | quotes
  · rw [spaced, separated]
    split
    · exact htrimmed
    · exact plain_separate htrimmed
  · exact htrimmed
  · exact htrimmed
  · exact htrimmed

theorem endsLine_cons (m : Mark) (gap : Gap) : endsLine (m :: gap) = (m.isNewline || endsLine gap) :=
  rfl

theorem endsLine_append (first second : Gap) :
    endsLine (first ++ second) = (endsLine first || endsLine second) := List.any_append

theorem all_not_isNewline (gap : Gap) : (gap.all fun m => !m.isNewline) = !endsLine gap := by
  induction gap with
  | nil => rfl
  | cons m rest ih => rw [List.all_cons, ih, endsLine_cons, Bool.not_or]

theorem endsLine_collapse (gap : Gap) (afterSpace : Bool) :
    endsLine (collapse afterSpace gap) = endsLine gap := by
  induction gap generalizing afterSpace with
  | nil => rfl
  | cons m rest ih =>
    rw [collapse, endsLine_cons]
    cases hm : m.isNewline with
    | true => rw [if_pos rfl, endsLine_cons, hm, ih]
    | false =>
      rw [if_neg Bool.false_ne_true, Bool.false_or]
      split
      · exact ih true
      · exact ih true

theorem endsLine_dropSpace (gap : Gap) : endsLine (dropSpace gap) = endsLine gap := by
  cases gap with
  | nil => rfl
  | cons m rest =>
    rw [dropSpace]
    split
    next hm =>
      have hspace : m.isNewline = false := by
        rw [← isNewline_markToken]
        cases m with
        | blank c =>
          have hc : c.1 = ' ' := by
            simpa [Mark.token, Token.char, Token.plain, Token.atomText?] using hm
          simp [Mark.token, Token.char, Token.plain, Token.isNewline, hasNewline, hc]
        | lineBreak => cases hm
      rw [endsLine_cons, hspace, Bool.false_or]
    · rfl

theorem endsLine_separate (gap : Gap) : endsLine (separate gap) = endsLine gap := by
  cases gap <;> rfl

/-- Spacing keeps line breaks, except between a quote mark and what it quotes. -/
theorem endsLine_spaced {s : Spot} (h : s ≠ .afterQuote true) (gap : Gap) :
    endsLine (spaced s gap) = endsLine gap := by
  have hcollapsed : endsLine (collapsed s gap) = endsLine gap := by
    rcases s with _ | ⟨_ | _⟩
    · exact endsLine_collapse gap false
    · exact endsLine_collapse gap false
    · exact absurd rfl h
  have htrimmed : endsLine (trimmed s (collapsed s gap)) = endsLine gap := by
    rcases s with ⟨r, next⟩ | quotes
    · rw [trimmed]
      split
      · rw [endsLine_dropSpace, hcollapsed]
      · exact hcollapsed
    · rw [trimmed, endsLine_dropSpace, hcollapsed]
  rcases s with ⟨r, _ | _ | _⟩ | quotes
  · rw [spaced, separated]
    split
    · exact htrimmed
    · rw [endsLine_separate, htrimmed]
  · exact htrimmed
  · exact htrimmed
  · exact htrimmed

/-- The writer keeps line breaks. -/
theorem endsLine_writeGap (indent : Nat) (next : Next) (gap : Gap) (skipping : Bool) :
    endsLine (ofBlanks (writeGap indent next skipping gap)) = endsLine gap := by
  fun_induction writeGap indent next skipping gap with
  | case1 => rfl
  | case2 => rfl
  | case3 skipping c rest hc =>
    have hm : (Mark.blank c).isNewline = true := by simp [Mark.isNewline, hc]
    rw [endsLine_cons, hm]
    rfl
  | case4 skipping c rest hc hskip ih =>
    rw [Bool.and_eq_true, Bool.not_eq_true'] at hskip
    rw [endsLine_cons, hskip.2, Bool.false_or, ih]
  | case5 skipping c rest hc hskip ih =>
    rw [endsLine_cons, ← ih]
    rfl

/-! ## Collapsed gaps -/

/-- Whether a gap is as collapsing leaves it, after a space or not. -/
def Tidy : Bool → Gap → Prop
  | _, [] => True
  | afterSpace, m :: rest =>
    if m.isNewline then m.isInserted = false ∧ Tidy false rest
    else afterSpace = false ∧ m = .space ∧ Tidy true rest

theorem tidy_collapse {gap : Gap} (h : Plain gap) (afterSpace : Bool) :
    Tidy afterSpace (collapse afterSpace gap) := by
  induction gap generalizing afterSpace with
  | nil => trivial
  | cons m rest ih =>
    rw [Plain, List.any_cons, Bool.or_eq_false_iff] at h
    have ih := ih h.2
    rw [collapse]
    split
    next hm =>
      rw [Tidy, if_pos hm]
      exact ⟨h.1, ih false⟩
    · cases afterSpace with
      | true => exact ih true
      | false => exact ⟨rfl, rfl, ih true⟩

theorem Tidy.of_cons {m : Mark} {rest : Gap} {afterSpace : Bool}
    (h : Tidy afterSpace (m :: rest)) :
    (m = .space ∧ afterSpace = false ∧ Tidy true rest) ∨
      ∃ c : Blank, m = .blank c ∧ m.isNewline = true ∧ Tidy false rest := by
  rw [Tidy] at h
  split at h
  next hm =>
    right
    cases m with
    | blank c => exact ⟨c, rfl, hm, h.2⟩
    | lineBreak => cases h.1
  · exact Or.inl ⟨h.2.1, h.1, h.2.2⟩

/-- A collapsed gap within a line is at most one space. -/
theorem Tidy.of_endsLine_false {gap : Gap} {afterSpace : Bool} (h : Tidy afterSpace gap)
    (hn : endsLine gap = false) : gap = [] ∨ gap = [.space] := by
  cases gap with
  | nil => exact Or.inl rfl
  | cons m rest =>
    rw [endsLine_cons, Bool.or_eq_false_iff] at hn
    rcases h.of_cons with ⟨rfl, -, hrest⟩ | ⟨c, -, hm, -⟩
    · cases rest with
      | nil => exact Or.inr rfl
      | cons m' rest =>
        rw [endsLine_cons, Bool.or_eq_false_iff] at hn
        rcases hrest.of_cons with ⟨-, hfalse, -⟩ | ⟨c, -, hm, -⟩
        · cases hfalse
        · rw [hn.2.1] at hm
          cases hm
    · rw [hn.1] at hm
      cases hm

/-! ## Writing twice -/

theorem collapse_ofBlanks_spaces (n : Nat) (blanks : List Blank) :
    collapse false (ofBlanks (List.replicate (n + 1) .space ++ blanks)) =
      .space :: collapse true (ofBlanks blanks) := by
  have hrest : ∀ n, collapse true (ofBlanks (List.replicate n .space ++ blanks)) =
      collapse true (ofBlanks blanks) := by
    intro n
    induction n with
    | zero => rfl
    | succ n ih => exact ih
  exact congrArg (Mark.space :: ·) (hrest n)

/-- Indentation that was written after a line break comes back as at most one space. -/
theorem collapse_indented (indented : Bool) (indent : Nat) (blanks : List Blank) :
    ∃ afterSpace, collapse false
        (ofBlanks ((if indented then List.replicate indent .space else []) ++ blanks)) =
      (if indented && indent != 0 then [.space] else []) ++
        collapse afterSpace (ofBlanks blanks) := by
  cases indented with
  | false => exact ⟨false, rfl⟩
  | true =>
    cases indent with
    | zero => exact ⟨false, rfl⟩
    | succ n => exact ⟨true, collapse_ofBlanks_spaces n blanks⟩

/--
A line break is followed by indentation the second time if it was the first time.
Before a closing bracket this needs that there was something to write.
-/
theorem indents_respaced {indent : Nat} {next : Next} (hi : next = .closer → indent ≠ 0)
    {rest : Gap} (h : Tidy false rest) (afterSpace : Bool) :
    indents next ((if indents next rest && indent != 0 then [.space] else []) ++
        collapse afterSpace (ofBlanks (writeGap indent next true rest))) =
      indents next rest := by
  -- whether the line ends there is left as it was by both writing and spacing
  have hends : endsLine ((if indents next rest && indent != 0 then [.space] else []) ++
      collapse afterSpace (ofBlanks (writeGap indent next true rest))) = endsLine rest := by
    rw [endsLine_append, endsLine_collapse, endsLine_writeGap]
    split <;> rfl
  cases hn : endsLine rest with
  | true =>
    rw [hn] at hends
    unfold indents
    rw [all_not_isNewline, all_not_isNewline, hn]
    unfold indents at hends
    rw [all_not_isNewline, hn] at hends
    rw [hends]
    rfl
  | false =>
    rw [hn] at hends
    cases next with
    | form =>
      simp only [indents, all_not_isNewline, hn] at hends ⊢
      rw [hends]
    | nothing => simp [indents]
    | closer =>
      have hne : (indent != 0) = true := by simpa using hi rfl
      rcases h.of_endsLine_false hn with rfl | rfl
      · cases afterSpace <;> rfl
      · rw [hne]
        cases afterSpace <;> rfl

/--
**Writing a gap, spacing it and writing it again** gives what was written the first
time. The writer may be after a line break, and the spacing pass after a space: where
neither has dropped the space before, neither does now.
-/
theorem writeGap_respaced {first : Nat} (second : Nat) {next : Next}
    (hi : next = .closer → first ≠ 0) : ∀ (gap : Gap) (afterSpace skipping collapsing : Bool),
      Tidy afterSpace gap → (skipping = false → afterSpace = false → collapsing = false) →
        writeGap second next skipping
            (collapse collapsing (ofBlanks (writeGap first next skipping gap))) =
          writeGap second next skipping gap
  | [], _, _, _, _, _ => rfl
  | m :: rest, afterSpace, skipping, collapsing, h, hflags => by
    rcases h.of_cons with ⟨rfl, rfl, hrest⟩ | ⟨c, rfl, hm, hrest⟩
    · cases skipping with
      | true =>
        -- the space is dropped by the writer both times
        exact writeGap_respaced second hi rest true true collapsing hrest (fun h => by cases h)
      | false =>
        have hc : collapsing = false := hflags rfl rfl
        subst hc
        have ih := writeGap_respaced second hi rest true false true hrest (fun _ h => by cases h)
        exact congrArg (Blank.space :: ·) ih
    · by_cases hc : c.1 = '\n'
      · have hnewline : Mark.blank c = .blank .newline := congrArg Mark.blank (Subtype.ext hc)
        rw [hnewline]
        obtain ⟨after, hafter⟩ := collapse_indented (indents next rest) first
          (writeGap first next true rest)
        have hwrite : ∀ (indent : Nat) (flag : Bool) (gap : Gap),
            writeGap indent next flag (.blank .newline :: gap) =
              .newline :: ((if indents next gap then List.replicate indent .space else []) ++
                writeGap indent next true gap) := fun _ _ _ => if_pos rfl
        have hcollapse : ∀ blanks : List Blank,
            collapse collapsing (ofBlanks (.newline :: blanks)) =
              .blank .newline :: collapse false (ofBlanks blanks) := fun _ => rfl
        have hspace : ∀ (flag : Bool) (gap : Gap), writeGap second next true
            ((if flag then [.space] else []) ++ gap) = writeGap second next true gap := by
          intro flag gap
          cases flag <;> rfl
        have ih := writeGap_respaced second hi rest false true after hrest (fun h => by cases h)
        rw [hwrite, hcollapse, hafter, hwrite, hwrite, indents_respaced hi hrest, hspace, ih]
      · -- a carriage return ends a line for the spacing pass only
        have hwrite : ∀ (indent : Nat) (gap : Gap), writeGap indent next skipping (.blank c :: gap) =
            c :: writeGap indent next false gap := by
          intro indent gap
          rw [writeGap, if_neg hc, hm, Bool.not_true, Bool.and_false, if_neg Bool.false_ne_true]
        have hcollapse : ∀ blanks : List Blank,
            collapse collapsing (ofBlanks (c :: blanks)) =
              .blank c :: collapse false (ofBlanks blanks) := fun _ => if_pos hm
        have ih := writeGap_respaced second hi rest false false false hrest (fun _ _ => rfl)
        rw [hwrite, hcollapse, hwrite, hwrite, ih]

end ExactLisp.Layout
