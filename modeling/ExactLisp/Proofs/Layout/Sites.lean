import ExactLisp.Proofs.Layout.Gaps

/-!
# What becomes of a gap at its place

Here the rules of the passes are brought together for one gap. Where one of the first
six passes breaks the line, it does so whatever the gap was (`arranged_inRow`);
elsewhere the gap is only spaced. So what was written for a gap comes back as itself
when the text is formatted again (`writeGap_again`).
-/

namespace ExactLisp.Layout

variable {γ : Type}

/-! ## Where lines are broken -/

/-- Where one of the first six passes breaks the line. -/
def mark (r : Reach) (next : Next) : Option Nat :=
  (Breaker.comments r next []).or <| (Breaker.lambdas r next []).or <|
    (Breaker.sequences r next []).or <| (Breaker.conditionals r next []).or <|
      (Breaker.letBody r next []).or (Breaker.bindings r next [])

/-- A breaker that does not look at the gap, after others of that kind. -/
theorem Breaker.rule_or {σ : Breaker} (h : ∀ r next gap, σ r next gap = σ r next [])
    (r : Reach) (next : Next) (others : Option Nat) (gap : Gap) :
    σ.rule (.inRow r next) ((others.map broken).getD gap) =
      (((σ r next []).or others).map broken).getD gap := by
  rw [Breaker.rule, h]
  cases σ r next [] <;> rfl

theorem Breaker.counting_gap (atElement atCloser : Nat → Option Nat) (r : Reach) (next : Next)
    (gap : Gap) : counting atElement atCloser r next gap = counting atElement atCloser r next [] := by
  rcases next with ⟨_ | _, _⟩ | _ | _ <;> rfl

theorem Breaker.given_gap {σ : Breaker} (h : ∀ r next gap, σ r next gap = σ r next [])
    (cond : Reach → Bool) (r : Reach) (next : Next) (gap : Gap) :
    σ.given cond r next gap = σ.given cond r next [] := by
  rw [given, given, h]

theorem Breaker.comments_gap (r : Reach) (next : Next) (gap : Gap) :
    comments r next gap = comments r next [] := by
  rcases next with ⟨_, _ | _⟩ | _ | _ <;> rfl

/-- In a row, the line is broken or the gap is spaced. -/
theorem arranged_inRow (r : Reach) (next : Next) (gap : Gap) :
    arranged (.inRow r next) gap =
      ((mark r next).map broken).getD (spaced (.inRow r next) gap) := by
  have hcounting : ∀ (n : Nat) (r : Reach) (next : Next) (gap : Gap),
      Breaker.fromElement n r next gap = Breaker.fromElement n r next [] :=
    fun n => Breaker.counting_gap _ _
  -- before the first breaker nothing is broken
  show Breaker.comments.rule _ (Breaker.lambdas.rule _ (Breaker.sequences.rule _
    (Breaker.conditionals.rule _ (Breaker.letBody.rule _ (Breaker.bindings.rule _
      (((none : Option Nat).map broken).getD (spaced (.inRow r next) gap))))))) = _
  rw [Breaker.bindings, Breaker.rule_or (Breaker.given_gap (hcounting 1) _),
    Breaker.letBody, Breaker.rule_or (Breaker.given_gap (hcounting 2) _),
    Breaker.conditionals, Breaker.conditional, Breaker.headed,
    Breaker.rule_or (Breaker.given_gap (Breaker.counting_gap _ _) _),
    Breaker.sequences, Breaker.headed, Breaker.rule_or (Breaker.given_gap (hcounting 1) _),
    Breaker.lambdas, Breaker.headed, Breaker.rule_or (Breaker.given_gap (hcounting 2) _),
    Breaker.rule_or Breaker.comments_gap, Option.or_none]
  rfl

theorem arranged_afterQuote (quotes : Bool) (gap : Gap) :
    arranged (.afterQuote quotes) gap = spaced (.afterQuote quotes) gap := rfl

theorem mark_nothing (r : Reach) : mark r .nothing = none := by
  simp [mark, Breaker.comments, Breaker.lambdas, Breaker.sequences, Breaker.conditionals,
    Breaker.letBody, Breaker.bindings, Breaker.headed, Breaker.given, Breaker.fromElement,
    Breaker.conditional, Breaker.counting]

/-! ## Places that exist -/

/-- What holds of every place of a row. -/
def Reach.Proper (r : Reach) : Prop := r.opens = true → r.seen = 0 ∧ r.afterLong = false

/-- What holds of the place of every gap. -/
def Spot.Proper : Spot → Prop
  | inRow r next => r.Proper ∧ (next = .closer → r.shell ≠ .root)
  | afterQuote _ => True

theorem mark_of_opens {r : Reach} (hr : r.Proper) (ho : r.opens = true) (next : Next) :
    mark r next = none := by
  have hseen := (hr ho).1
  rcases next with ⟨_ | _, _ | _⟩ | _ | _ <;>
    simp [mark, Breaker.comments, Breaker.lambdas, Breaker.sequences, Breaker.conditionals,
      Breaker.letBody, Breaker.bindings, Breaker.headed, Breaker.given, Breaker.fromElement,
      Breaker.conditional, Breaker.counting, ho, hseen]

theorem Reach.proper_start (shell : Shell) (isBindings : Bool) (row : Row γ) :
    (Reach.start shell isBindings row).Proper := fun _ => ⟨rfl, rfl⟩

theorem Reach.proper_after (r : Reach) (isElement long : Bool) :
    (r.after isElement long).Proper := by
  intro h
  cases h

theorem Shell.next_ne_closer {shell : Shell} (h : shell.next = .closer) : shell ≠ .root := by
  rintro rfl
  cases h

mutual

theorem Form.all_proper {spot : γ → Spot} {breaks : γ → Bool} :
    ∀ (f : Form γ) (isBindings : Bool), f.Placed spot breaks isBindings →
      f.All fun gap => (spot gap).Proper
  | .word _, _, _ | .stray _, _, _ | .str .., _, _ | .comment _, _, _ => trivial
  | .bareQuote gap, _, h => by
    have hs : spot gap = .afterQuote false := h
    show (spot gap).Proper
    rw [hs]
    trivial
  | .group b row closed, isBindings, h =>
    row.all_proper (.start (.group b closed) isBindings row) (Reach.proper_start _ _ _) h
  | .quoted gap form, _, h => by
    have hgap : (spot gap).Proper := by
      rw [h.1]
      trivial
    exact ⟨hgap, form.all_proper false h.2⟩

theorem Row.all_proper {spot : γ → Spot} {breaks : γ → Bool} :
    ∀ (row : Row γ) (r : Reach), r.Proper → row.Placed spot breaks r →
      row.All fun gap => (spot gap).Proper
  | .last gap, r, hr, h => by
    have hs : spot gap = .inRow r r.shell.next := h
    show (spot gap).Proper
    rw [hs]
    exact ⟨hr, Shell.next_ne_closer⟩
  | .item gap form rest, r, hr, h => by
    obtain ⟨hs, hform, hrest⟩ := h
    have hgap : (spot gap).Proper := by
      rw [hs]
      exact ⟨hr, fun hn => by cases hn⟩
    exact ⟨hgap, form.all_proper _ hform,
      rest.all_proper (r.after form.isElement (form.spans breaks)) (Reach.proper_after _ _ _)
        hrest⟩

end

/-! ## Places up to long elements -/

/-- A place without the knowledge whether the element before takes several lines. -/
def Reach.forget (r : Reach) : Reach := { r with afterLong := false }

/-- The place of a gap without that knowledge. -/
def Spot.forget : Spot → Spot
  | inRow r next => inRow r.forget next
  | afterQuote quotes => afterQuote quotes

/-- Only the last pass asks for long elements. -/
theorem arranged_forget (s : Spot) (gap : Gap) : arranged s.forget gap = arranged s gap := by
  rcases s with ⟨r, ⟨_ | _, _ | _⟩ | _ | _⟩ | quotes <;> rfl

mutual

theorem Form.all_forget {spot other : γ → Spot} {breaks otherBreaks : γ → Bool} :
    ∀ (f : Form γ) (isBindings : Bool), f.Placed spot breaks isBindings →
      f.Placed other otherBreaks isBindings →
        f.All fun gap => (spot gap).forget = (other gap).forget
  | .word _, _, _, _ | .stray _, _, _, _ | .str .., _, _, _ | .comment _, _, _, _ => trivial
  | .bareQuote gap, _, h1, h2 => by
    have hs1 : spot gap = .afterQuote false := h1
    have hs2 : other gap = .afterQuote false := h2
    show (spot gap).forget = (other gap).forget
    rw [hs1, hs2]
  | .group b row closed, isBindings, h1, h2 => row.all_forget _ _ rfl h1 h2
  | .quoted gap form, _, h1, h2 => by
    have hgap : (spot gap).forget = (other gap).forget := by rw [h1.1, h2.1]
    exact ⟨hgap, form.all_forget false h1.2 h2.2⟩

theorem Row.all_forget {spot other : γ → Spot} {breaks otherBreaks : γ → Bool} :
    ∀ (row : Row γ) (r r' : Reach), r.forget = r'.forget → row.Placed spot breaks r →
      row.Placed other otherBreaks r' → row.All fun gap => (spot gap).forget = (other gap).forget
  | .last gap, r, r', hr, h1, h2 => by
    have hs1 : spot gap = .inRow r r.shell.next := h1
    have hs2 : other gap = .inRow r' r'.shell.next := h2
    have hshell : r.shell = r'.shell := by
      have hforget : r.forget.shell = r'.forget.shell := by rw [hr]
      exact hforget
    show (spot gap).forget = (other gap).forget
    rw [hs1, hs2, Spot.forget, Spot.forget, hr, hshell]
  | .item gap form rest, r, r', hr, h1, h2 => by
    obtain ⟨hs1, hform1, hrest1⟩ := h1
    obtain ⟨hs2, hform2, hrest2⟩ := h2
    have hat : r'.atBindings = r.atBindings := by
      have hforget : r'.forget.atBindings = r.forget.atBindings := by rw [hr]
      exact hforget
    have hafter : (r.after form.isElement (form.spans breaks)).forget =
        (r'.after form.isElement (form.spans otherBreaks)).forget := by
      have hstep := congrArg (fun r => (Reach.after r form.isElement false).forget) hr
      exact hstep
    have hgap : (spot gap).forget = (other gap).forget := by
      rw [hs1, hs2, Spot.forget, Spot.forget, hr]
    rw [hat] at hform2
    exact ⟨hgap, form.all_forget _ hform1 hform2, rest.all_forget _ _ hafter hrest1 hrest2⟩

end

/-! ## What is written at a place -/

/-- What all passes make of a gap. -/
def finished (s : Spot) (gap : Gap) : Gap := Breaker.continuations.rule s (arranged s gap)

/-- What is written for a gap of the source. -/
def written (s : Spot) (indent : Nat) (gap : Gap) : List Blank :=
  writeGap indent s.next false (finished s gap)

theorem continuations_of_plain {gap : Gap} (h : Plain gap) (r : Reach) (next : Next) :
    Breaker.continuations r next gap = Breaker.continuations r next [] := by
  rcases next with ⟨_ | _, _⟩ | _ | _
  · rfl
  · simp only [Breaker.continuations, show gap.any Mark.isInserted = false from h]
    rfl
  · rfl
  · rfl

theorem continuations_broken (r : Reach) (next : Next) (extra : Nat) :
    Breaker.continuations r next (broken extra) = none := by
  rcases next with ⟨_ | _, _⟩ | _ | _
  · rfl
  · have hinserted : (broken extra).any Mark.isInserted = true := rfl
    rw [Breaker.continuations, hinserted, Bool.not_true, Bool.and_false]
    rfl
  · rfl
  · rfl

/-- In a row, a gap of the source is only spaced unless the line is broken. -/
theorem finished_inRow {gap : Gap} (h : Plain gap) (r : Reach) (next : Next) :
    finished (.inRow r next) gap =
      (((mark r next).or (Breaker.continuations r next [])).map broken).getD
        (spaced (.inRow r next) gap) := by
  rw [finished, arranged_inRow]
  cases mark r next with
  | some extra =>
    show ((Breaker.continuations r next (broken extra)).map broken).getD (broken extra) = _
    rw [continuations_broken]
    rfl
  | none =>
    show ((Breaker.continuations r next (spaced (.inRow r next) gap)).map broken).getD _ = _
    rw [continuations_of_plain (plain_spaced h _), Option.none_or]
    rfl

theorem finished_bareQuote (gap : Gap) :
    finished (.afterQuote false) gap = dropSpace (collapse false gap) := rfl

/-! ## Written again -/

/-- Whether a gap does not start with a space. -/
def StartsLine (gap : Gap) : Prop := ∀ m ∈ gap.head?, m.isNewline = true

theorem startsLine_nil : StartsLine [] := by
  intro m h
  cases h

theorem startsLine_cons {m : Mark} (h : m.isNewline = true) (rest : Gap) :
    StartsLine (m :: rest) := by
  intro m' hm
  cases hm
  exact h

theorem dropSpace_of_startsLine {gap : Gap} (h : StartsLine gap) : dropSpace gap = gap := by
  cases gap with
  | nil => rfl
  | cons m rest =>
    rw [dropSpace, if_neg]
    intro hm
    have hends := endsLine_dropSpace [m]
    have hnewline : m.isNewline = true := h m rfl
    rw [dropSpace, if_pos hm, endsLine_cons, hnewline] at hends
    cases hends

theorem tidy_dropSpace {gap : Gap} (h : Tidy false gap) :
    StartsLine (dropSpace gap) ∧ Tidy false (dropSpace gap) := by
  cases gap with
  | nil => exact ⟨startsLine_nil, trivial⟩
  | cons m rest =>
    rcases h.of_cons with ⟨rfl, -, hrest⟩ | ⟨c, -, hm, -⟩
    · have hdrop : dropSpace (.space :: rest) = rest := rfl
      rw [hdrop]
      cases rest with
      | nil => exact ⟨startsLine_nil, trivial⟩
      | cons m rest =>
        rcases hrest.of_cons with ⟨-, hfalse, -⟩ | ⟨c, rfl, hm, hrest⟩
        · cases hfalse
        · refine ⟨startsLine_cons hm _, ?_⟩
          rw [Tidy, if_pos hm]
          exact ⟨rfl, hrest⟩
    · have hstart : StartsLine (m :: rest) := startsLine_cons hm rest
      rw [dropSpace_of_startsLine hstart]
      exact ⟨hstart, h⟩

/-- What does not start with a space does not after writing it, either. -/
theorem startsLine_respaced {indent : Nat} {next : Next} {gap : Gap} (ht : Tidy false gap)
    (h : StartsLine gap) :
    StartsLine (collapse false (ofBlanks (writeGap indent next false gap))) := by
  cases gap with
  | nil => exact h
  | cons m rest =>
    rcases ht.of_cons with ⟨rfl, -, -⟩ | ⟨c, rfl, hm, -⟩
    · have hspace : Mark.space.isNewline = true := h .space rfl
      cases hspace
    · have hfirst : ∃ blanks, writeGap indent next false (.blank c :: rest) = c :: blanks := by
        rw [writeGap]
        split
        next hc => exact ⟨_, congrArg (· :: _) (Subtype.ext hc.symm)⟩
        · exact ⟨_, rfl⟩
      obtain ⟨blanks, hblanks⟩ := hfirst
      have hcollapse : collapse false (ofBlanks (c :: blanks)) =
          .blank c :: collapse false (ofBlanks blanks) := if_pos hm
      rw [hblanks, hcollapse]
      exact startsLine_cons hm _

theorem tidy_spaced {gap : Gap} (h : Plain gap) (r : Reach) (next : Next) :
    Tidy false (spaced (.inRow r next) gap) := by
  have hcollapsed : Tidy false (collapsed (.inRow r next) gap) := tidy_collapse h false
  have htrimmed : Tidy false (trimmed (.inRow r next) (collapsed (.inRow r next) gap)) := by
    rw [trimmed]
    split
    · exact (tidy_dropSpace hcollapsed).2
    · exact hcollapsed
  rcases next with _ | _ | _
  · rw [spaced, separated]
    split
    · exact htrimmed
    · rw [separate]
      split
      · exact ⟨rfl, rfl, trivial⟩
      · exact htrimmed
  · exact htrimmed
  · exact htrimmed

theorem writeGap_ne_nil {gap : Gap} (h : gap ≠ []) (indent : Nat) (next : Next) :
    writeGap indent next false gap ≠ [] := by
  cases gap with
  | nil => exact absurd rfl h
  | cons m rest =>
    cases m with
    | lineBreak => exact List.cons_ne_nil _ _
    | blank c =>
      rw [writeGap]
      split
      · exact List.cons_ne_nil _ _
      · exact List.cons_ne_nil _ _

theorem collapse_ne_nil {gap : Gap} (h : gap ≠ []) : collapse false gap ≠ [] := by
  cases gap with
  | nil => exact absurd rfl h
  | cons m rest =>
    rw [collapse]
    split
    · exact List.cons_ne_nil _ _
    · exact List.cons_ne_nil _ _

theorem ofBlanks_ne_nil {blanks : List Blank} (h : blanks ≠ []) : ofBlanks blanks ≠ [] := by
  cases blanks with
  | nil => exact absurd rfl h
  | cons => exact List.cons_ne_nil _ _

theorem separated_of_opens {r : Reach} (ho : r.opens = true) (next : Next) (gap : Gap) :
    separated (.inRow r next) gap = gap := by
  cases next <;> simp [separated, ho]

/-- The first gap of a group does not start with a space. -/
theorem startsLine_spaced {gap : Gap} (h : Plain gap) {r : Reach}
    (ho : (r.opens && r.shell != .root) = true) (next : Next) :
    StartsLine (spaced (.inRow r next) gap) := by
  have hopens : r.opens = true := (Bool.and_eq_true _ _ ▸ ho).1
  rw [spaced, separated_of_opens hopens, trimmed, if_pos ho]
  exact (tidy_dropSpace (tidy_collapse h false)).1

/-- Something separates the forms of a group. -/
theorem spaced_ne_nil {r : Reach} (hs : (r.opens || r.shell == .root) = false)
    (isElement isLineComment : Bool) (gap : Gap) :
    spaced (.inRow r (.form isElement isLineComment)) gap ≠ [] := by
  rw [spaced, separated, hs, if_neg Bool.false_ne_true, separate]
  split
  · exact List.cons_ne_nil _ _
  next he => simpa using he

/-- Spacing what was written for a spaced gap only collapses it. -/
theorem spaced_written {gap : Gap} (h : Plain gap) (r : Reach) (next : Next) (indent : Nat) :
    spaced (.inRow r next)
        (ofBlanks (writeGap indent next false (spaced (.inRow r next) gap))) =
      collapse false (ofBlanks (writeGap indent next false (spaced (.inRow r next) gap))) := by
  have hcollapsed : ∀ other, collapsed (.inRow r next) other = collapse false other :=
    fun _ => rfl
  have htidy := tidy_spaced h r next
  by_cases ho : (r.opens && r.shell != .root) = true
  · have hopens : r.opens = true := (Bool.and_eq_true _ _ ▸ ho).1
    have hagain := @startsLine_respaced indent next _ htidy (startsLine_spaced h ho next)
    generalize spaced (.inRow r next) gap = written at hagain ⊢
    rw [spaced, separated_of_opens hopens, trimmed, if_pos ho, hcollapsed,
      dropSpace_of_startsLine hagain]
  · have htrimmed : ∀ other, trimmed (.inRow r next) other = other := by
      intro other
      rw [trimmed, if_neg ho]
    cases next with
    | closer => rw [spaced, htrimmed]; rfl
    | nothing => rw [spaced, htrimmed]; rfl
    | form isElement isLineComment =>
      by_cases hs : (r.opens || r.shell == .root) = true
      · rw [spaced, htrimmed, separated, if_pos hs, hcollapsed]
      · -- what separates two forms is there the second time, too
        have hne := spaced_ne_nil (Bool.not_eq_true _ ▸ hs) isElement isLineComment gap
        have hagain := collapse_ne_nil
          (ofBlanks_ne_nil (writeGap_ne_nil hne indent (.form isElement isLineComment)))
        generalize spaced (.inRow r (.form isElement isLineComment)) gap = other at hagain ⊢
        rw [spaced, htrimmed, separated, if_neg hs, hcollapsed, separate, if_neg]
        simpa using hagain

/-- Before a closing bracket there is indentation. -/
theorem Spot.Proper.indent_ne_zero {s : Spot} (h : s.Proper) {indent : Nat}
    (hi : s.Indents indent) (hn : s.next = .closer) : indent ≠ 0 := by
  rcases s with ⟨r, next⟩ | ⟨_ | _⟩
  · intro hzero
    exact h.2 hn ((Spot.indents_inRow.mp hi).mp hzero)
  · cases hn
  · cases hn

/-- **What was written for a gap comes back as itself** when the text is formatted again. -/
theorem writeGap_again {s : Spot} (hs : s.Proper) {gap : Gap} (hg : Plain gap) {first : Nat}
    (hi : s.Indents first) (second : Nat) :
    written s second (ofBlanks (written s first gap)) = written s second gap := by
  have hcloser : s.next = .closer → first ≠ 0 := hs.indent_ne_zero hi
  have hplain := plain_ofBlanks (written s first gap)
  rcases s with ⟨r, next⟩ | ⟨_ | _⟩
  · have hone := finished_inRow hg r next
    have htwo := finished_inRow hplain r next
    cases hbreak : (mark r next).or (Breaker.continuations r next []) with
    | some extra =>
      rw [hbreak] at hone htwo
      have htwo' := congrArg (writeGap second next false) htwo
      have hone' := congrArg (writeGap second next false) hone
      exact htwo'.trans hone'.symm
    | none =>
      rw [hbreak] at hone htwo
      have hspaced : spaced (.inRow r next) (ofBlanks (written (.inRow r next) first gap)) =
          collapse false (ofBlanks (writeGap first next false (spaced (.inRow r next) gap))) := by
        rw [written, hone]
        exact spaced_written hg r next first
      have htwo' := congrArg (writeGap second next false) (htwo.trans hspaced)
      have hone' := congrArg (writeGap second next false) hone
      refine htwo'.trans (Eq.trans ?_ hone'.symm)
      exact writeGap_respaced second hcloser _ false false false (tidy_spaced hg r next)
        fun _ _ => rfl
  · have htidy := tidy_dropSpace (tidy_collapse hg false)
    have hstart := @startsLine_respaced first .nothing _ htidy.2 htidy.1
    have hagain := writeGap_respaced second hcloser _ false false false htidy.2 fun _ _ => rfl
    rw [written, finished_bareQuote, written, finished_bareQuote, written, finished_bareQuote]
    refine (congrArg (writeGap second .nothing false) ?_).trans hagain
    exact dropSpace_of_startsLine hstart
  · rfl

/-- What was written for a gap takes several lines after the first passes if the gap did in the end. -/
theorem endsLine_arranged_written (s : Spot) (gap : Gap) (hg : Plain gap) (indent : Nat) :
    endsLine (arranged s (ofBlanks (written s indent gap))) = endsLine (finished s gap) := by
  have hwrite := endsLine_writeGap indent s.next (finished s gap) false
  rcases s with ⟨r, next⟩ | ⟨_ | _⟩
  · rw [arranged_inRow]
    cases hm : mark r next with
    | some extra =>
      rw [finished_inRow hg, hm]
      rfl
    | none =>
      refine (endsLine_spaced (fun h => by cases h) _).trans ?_
      exact hwrite
  · rw [arranged_afterQuote]
    refine (endsLine_spaced (fun h => by cases h) _).trans ?_
    exact hwrite
  · rfl

/-- The last pass only adds line breaks. -/
theorem endsLine_finished (s : Spot) (gap : Gap) (hg : Plain gap) :
    endsLine (finished s gap) =
      (endsLine (arranged s gap) ||
        match s with
        | .inRow r next => (Breaker.continuations r next []).isSome
        | .afterQuote _ => false) := by
  rcases s with ⟨r, next⟩ | quotes
  · rw [finished_inRow hg, arranged_inRow]
    cases hm : mark r next with
    | some extra => rfl
    | none =>
      cases hc : Breaker.continuations r next [] with
      | some extra => simp [hc, broken, endsLine_cons, Mark.isNewline]
      | none => simp [hc]
  · exact (Bool.or_false _).symm

/-! ## Laid out rows -/

/-- A site with what is written there. -/
abbrev Laid := Site × List Blank

namespace Laid

/-- The place of the gap. -/
def spot (p : Laid) : Spot := p.1.1

/-- The gap of the source. -/
def source (p : Laid) : Gap := p.1.2.2

/-- What is written for it. -/
def blanks (p : Laid) : List Blank := p.2

/-- Whether the gap takes several lines after the first six passes. -/
def isLong (p : Laid) : Bool := endsLine (Layout.arranged p.1.2.1 p.source)

/-- What holds of everything that is written. -/
structure Valid (p : Laid) : Prop where
  proper : p.spot.Proper
  forget : p.spot.forget = p.1.2.1.forget
  source : ∃ blanks, p.source = ofBlanks blanks
  blanks : ∃ indent, p.spot.Indents indent ∧ p.blanks = written p.spot indent p.source

end Laid

/-- The row of a source with what is written for every gap. -/
def Row.laid (row : Row (List Blank)) : Row Laid :=
  row.source.sites.render Site.final .root 0 0

namespace Row

theorem map_fst_laid (row : Row (List Blank)) : row.laid.map Prod.fst = row.source.sites :=
  map_fst_render ..

theorem map_source_laid (row : Row (List Blank)) : row.laid.map Laid.source = row.source := by
  have hfst := map_fst_laid row
  have hgap := map_gap_sites row.source
  rw [← hfst, map_map] at hgap
  exact hgap

/-- The places of a laid out row are where the gaps are. -/
theorem placed_laid (row : Row (List Blank)) :
    row.laid.Placed Laid.spot Laid.isLong (.start .root false row) := by
  have hsites := placed_annotate (fun p => endsLine (arranged p.1 p.2))
    (row.source.annotate never (.start .root false row.source)) (.start .root false row.source)
  have hfst := map_fst_laid row
  rw [← sites, ← hfst] at hsites
  rw [source, Reach.start_map] at hsites
  exact (row.laid.placed_map Prod.fst Prod.fst _ _).mp hsites

/-- So are the places it was laid out with first, as far as the first passes look. -/
theorem placed_first_laid (row : Row (List Blank)) :
    row.laid.Placed (fun p => p.1.2.1) (fun _ => false) (.start .root false row) := by
  have hfirst := placed_annotate never row.source (.start .root false row.source)
  have hsnd : row.source.sites.map Prod.snd =
      row.source.annotate never (.start .root false row.source) := map_snd_annotate ..
  have hfst := map_fst_laid row
  rw [← hsnd, ← hfst, map_map] at hfirst
  rw [source, Reach.start_map] at hfirst
  exact (row.laid.placed_map (Prod.snd ∘ Prod.fst) Prod.fst _ _).mp hfirst

/-- **What is known of everything that is written.** -/
theorem valid_laid (row : Row (List Blank)) : row.laid.All Laid.Valid := by
  have hplaced := placed_laid row
  have hproper := row.laid.all_proper _ (Reach.proper_start _ _ _) hplaced
  have hforget := row.laid.all_forget _ _ rfl hplaced (placed_first_laid row)
  have hsource : row.laid.All fun p => ∃ blanks, p.source = ofBlanks blanks := by
    have hall : row.source.All fun gap => ∃ blanks, gap = ofBlanks blanks :=
      (row.all_map ofBlanks _).mpr (row.all_of_forall fun blanks => ⟨blanks, rfl⟩)
    rw [← map_source_laid] at hall
    exact (row.laid.all_map Laid.source _).mp hall
  have hblanks : row.laid.All fun p => ∃ indent, p.spot.Indents indent ∧
      p.blanks = writeGap indent p.spot.next false p.1.final := by
    have hsites := placed_annotate (fun p => endsLine (arranged p.1 p.2))
      (row.source.annotate never (.start .root false row.source)) (.start .root false row.source)
    exact row.source.sites.all_render Site.final _ .root 0 0 rfl (by simp) hsites
  have hall := All.and _ (All.and _ hproper hforget) (All.and _ hsource hblanks)
  refine All.mono (fun p h => ?_) _ hall
  obtain ⟨⟨hp, hf⟩, hs, indent, hi, hb⟩ := h
  refine ⟨hp, hf, hs, indent, hi, ?_⟩
  -- the place with the knowledge about long elements is as good as the one without
  have harranged : arranged p.1.2.1 p.source = arranged p.spot p.source := by
    rw [← arranged_forget, ← hf, arranged_forget]
  rw [hb, written, finished, ← harranged]
  rfl

end Row

/-- **A formatted text** is that of the laid out row of the source, unless it nests too deeply. -/
theorem format_eq_laid {text : String} {row : Row (List Blank)}
    (hr : row.Regular Row.IsEmpty none true) (hs : Lexeme.scan .source text = row.lexemes id) :
    format text = if row.fits 0 then String.ofList row.laid.text else text :=
  format_of_scan hr hs

end ExactLisp.Layout
