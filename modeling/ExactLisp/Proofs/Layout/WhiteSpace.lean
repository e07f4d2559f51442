import ExactLisp.Proofs.Layout.Idempotent
import ExactLisp.Proofs.Layout.Lines

/-!
# The white space of a formatted text

In a formatted text white space has a normal form, if every quote mark has something to
quote: there are spaces, line breaks and carriage returns only, more than one space only as
indentation, no space after an opening bracket and no white space after a quote mark, and
the forms of a group are separated (`normalSpacing_format`).

What may come next is a matter of what the text ends in so far. `Trail.run` follows that
along some lexemes, and stops where the normal form is left. It does not stop in what is
written for a gap (`Laid.Valid.exists_run_blanks`), as the spacing pass has left the gap
tidy and what the later passes and the writer add is line breaks and indentation.
-/

namespace ExactLisp.Layout

open Token (allCharacters)

/-! ## What may come next -/

/-- What some lexemes end in, as far as it decides about the white space after them. -/
inductive Trail where
  /-- Code, a comment, or a carriage return. -/
  | code
  /-- A line break and the spaces after it. -/
  | indentation
  /-- A space within a line. -/
  | space
  | opener
  | quoteMark
  deriving DecidableEq

namespace Trail

/-- Whether another space may follow. -/
def TakesSpace (t : Trail) : Prop := t = code ∨ t = indentation

/-- What lexemes end in after another space. -/
def afterSpace : Trail → Option Trail
  | code => some space
  | indentation => some indentation
  | space | opener | quoteMark => none

/-- What lexemes end in after another white space. -/
def afterBlank (t : Trail) (c : Char) : Option Trail :=
  if t = quoteMark then none
  else if c = '\n' then some indentation
  else if c = '\r' then some code
  else if c = ' ' then t.afterSpace
  else none

/-- What lexemes end in after another one, if that may follow. -/
def step (t : Trail) : Lexeme → Option Trail
  | .space c => t.afterBlank c
  | .opening _ => some opener
  | .quote => some quoteMark
  | .closing _ | .word _ | .str .. | .comment _ => some code

/-- What lexemes end in after some others, if those may follow. -/
def run (t : Trail) : List Lexeme → Option Trail
  | [] => some t
  | x :: xs => (t.step x).bind fun u => u.run xs

theorem run_cons {t u : Trail} {x : Lexeme} (h : t.step x = some u) (xs : List Lexeme) :
    t.run (x :: xs) = u.run xs := by
  rw [run, h, Option.bind_some]

theorem run_append (t : Trail) (xs ys : List Lexeme) :
    t.run (xs ++ ys) = (t.run xs).bind fun u => u.run ys := by
  induction xs generalizing t with
  | nil => rfl
  | cons x xs ih =>
    rw [List.cons_append, run, run]
    cases t.step x with
    | none => rfl
    | some u => exact ih u

theorem exists_of_run_append {t last : Trail} {xs ys : List Lexeme}
    (h : t.run (xs ++ ys) = some last) : ∃ u, t.run xs = some u ∧ u.run ys = some last := by
  rw [run_append] at h
  exact Option.bind_eq_some_iff.mp h

theorem exists_of_run_cons {t last : Trail} {x : Lexeme} {xs : List Lexeme}
    (h : t.run (x :: xs) = some last) : ∃ u, t.step x = some u ∧ u.run xs = some last :=
  Option.bind_eq_some_iff.mp h

end Trail

/-- Whether the white space between some lexemes is in normal form. -/
structure NormalSpacing (xs : List Lexeme) : Prop where
  /-- There are only spaces, line breaks and carriage returns. -/
  kinds : ∀ c, .space c ∈ xs → c = ' ' ∨ c = '\n' ∨ c = '\r'
  /-- Two spaces next to each other are part of the indentation after a line break. -/
  doubled : ∀ front rest, xs = front ++ .space ' ' :: .space ' ' :: rest →
    ∃ lead n, front = lead ++ .space '\n' :: List.replicate n (.space ' ')
  /-- No space directly follows an opening bracket. -/
  opened : ∀ front b rest, xs ≠ front ++ .opening b :: .space ' ' :: rest
  /-- No white space directly follows a quote mark. -/
  quoted : ∀ front c rest, xs ≠ front ++ .quote :: .space c :: rest

namespace Trail

/-- Only a line break begins an indentation, and only spaces carry one on. -/
theorem eq_indentation_of_afterBlank {t : Trail} {c : Char}
    (h : t.afterBlank c = some indentation) (hc : c ≠ '\n') : t = indentation ∧ c = ' ' := by
  rw [afterBlank, if_neg hc] at h
  split at h
  · cases h
  · split at h
    · cases h
    · split at h
      next hspace =>
        refine ⟨?_, hspace⟩
        cases t with
        | indentation => rfl
        | code | space | opener | quoteMark => cases h
      next => cases h

/-- What ends in indentation ends in a line break and spaces. -/
theorem exists_indentation {xs : List Lexeme} (h : code.run xs = some indentation) :
    ∃ lead n, xs = lead ++ .space '\n' :: List.replicate n (.space ' ') := by
  induction xs using List.reverseRecOn with
  | nil => cases h
  | append_singleton xs x ih =>
    obtain ⟨u, hu, hx⟩ := exists_of_run_append h
    obtain ⟨v, hv, hend⟩ := exists_of_run_cons hx
    obtain rfl : v = indentation := Option.some.inj hend
    cases x with
    | space c =>
      have hblank : u.afterBlank c = some indentation := hv
      by_cases hc : c = '\n'
      · exact ⟨xs, 0, by rw [hc]; rfl⟩
      · obtain ⟨rfl, rfl⟩ := eq_indentation_of_afterBlank hblank hc
        obtain ⟨lead, n, rfl⟩ := ih hu
        refine ⟨lead, n + 1, ?_⟩
        rw [List.replicate_succ', List.append_assoc, List.cons_append]
    | opening | closing | quote | word | str | comment => cases hv

/-- **What can be run through is in normal form.** -/
theorem normalSpacing_of_run {xs : List Lexeme} {last : Trail} (h : code.run xs = some last) :
    NormalSpacing xs where
  kinds c hc := by
    obtain ⟨front, rest, rfl⟩ := List.append_of_mem hc
    obtain ⟨t, -, hrest⟩ := exists_of_run_append h
    obtain ⟨u, hu, -⟩ := exists_of_run_cons hrest
    have hblank : t.afterBlank c = some u := hu
    unfold afterBlank at hblank
    grind
  doubled front rest he := by
    subst he
    obtain ⟨t, ht, hrest⟩ := exists_of_run_append h
    obtain ⟨u, hu, hrest⟩ := exists_of_run_cons hrest
    obtain ⟨v, hv, -⟩ := exists_of_run_cons hrest
    cases t with
    | indentation => exact exists_indentation ht
    | code =>
      cases hu
      cases hv
    | space | opener | quoteMark => cases hu
  opened front b rest he := by
    subst he
    obtain ⟨t, -, hrest⟩ := exists_of_run_append h
    obtain ⟨u, hu, hrest⟩ := exists_of_run_cons hrest
    obtain ⟨v, hv, -⟩ := exists_of_run_cons hrest
    cases hu
    cases hv
  quoted front c rest he := by
    subst he
    obtain ⟨t, -, hrest⟩ := exists_of_run_append h
    obtain ⟨u, hu, hrest⟩ := exists_of_run_cons hrest
    obtain ⟨v, hv, -⟩ := exists_of_run_cons hrest
    cases hu
    cases hv

end Trail

/-! ## What is written for a gap -/

namespace Trail

theorem run_indentation (n : Nat) :
    indentation.run (spaces (List.replicate n .space)) = some indentation := by
  induction n with
  | zero => rfl
  | succ n ih => exact ih

/-- After anything but a quote mark a line may be broken. -/
theorem run_newline {t : Trail} (ht : t ≠ quoteMark) (blanks : List Blank) :
    t.run (spaces (.newline :: blanks)) = indentation.run (spaces blanks) := by
  have hstep : t.step (.space '\n') = some indentation := by
    rw [step, afterBlank, if_neg ht, if_pos rfl]
  exact run_cons hstep _

theorem run_return {t : Trail} (ht : t ≠ quoteMark) {c : Blank} (hc : c.1 = '\r')
    (blanks : List Blank) : t.run (spaces (c :: blanks)) = code.run (spaces blanks) := by
  have hstep : t.step (.space c.1) = some code := by
    rw [step, afterBlank, if_neg ht, hc]
    rfl
  exact run_cons hstep _

theorem TakesSpace.exists_run_space {t : Trail} (ht : t.TakesSpace) (blanks : List Blank) :
    ∃ u, u ≠ quoteMark ∧ t.run (spaces (.space :: blanks)) = u.run (spaces blanks) := by
  rcases ht with rfl | rfl
  · exact ⟨space, by decide, rfl⟩
  · exact ⟨indentation, by decide, rfl⟩

/--
**A tidy gap is written in normal form** after anything but a quote mark. If the gap starts
with a space and the writer does not drop that, a space must be able to follow.
-/
theorem exists_run_writeGap (indent : Nat) (next : Next) : ∀ (gap : Gap)
    (afterSpace skipping : Bool) (t : Trail), Tidy afterSpace gap → t ≠ quoteMark →
      (skipping = false → afterSpace = false → t.TakesSpace ∨ StartsLine gap) →
        ∃ u, t.run (spaces (writeGap indent next skipping gap)) = some u
  | [], _, _, t, _, _, _ => ⟨t, rfl⟩
  | m :: rest, afterSpace, skipping, t, h, ht, hspace => by
    rcases h.of_cons with ⟨rfl, rfl, hrest⟩ | ⟨c, rfl, hm, hrest⟩
    · cases skipping with
      | true => exact exists_run_writeGap indent next rest true true t hrest ht fun h => by cases h
      | false =>
        -- the gap starts with this space, so no line break is at its front
        have htakes : t.TakesSpace := by
          rcases hspace rfl rfl with htakes | hstart
          · exact htakes
          · have hfalse : Mark.space.isNewline = true := hstart .space rfl
            cases hfalse
        obtain ⟨u, hu, hrun⟩ := htakes.exists_run_space (writeGap indent next false rest)
        obtain ⟨v, hv⟩ := exists_run_writeGap indent next rest true false u hrest hu
          fun _ h => by cases h
        exact ⟨v, hrun.trans hv⟩
    · by_cases hc : c.1 = '\n'
      · -- the writer puts the indentation, and drops the spaces that follow
        obtain ⟨u, hu⟩ := exists_run_writeGap indent next rest false true indentation hrest
          (by decide) fun h => by cases h
        refine ⟨u, ?_⟩
        rw [writeGap, if_pos hc, run_newline ht, spaces_append, run_append]
        split
        · rw [run_indentation]
          exact hu
        · exact hu
      · have hreturn : c.1 = '\r' := by simpa [Mark.isNewline, hc] using hm
        obtain ⟨u, hu⟩ := exists_run_writeGap indent next rest false false code hrest
          (by decide) fun _ _ => Or.inl (Or.inl rfl)
        refine ⟨u, ?_⟩
        rw [writeGap, if_neg hc, hm, Bool.not_true, Bool.and_false, if_neg Bool.false_ne_true,
          run_return ht hreturn]
        exact hu

/-- What can stand before a gap. -/
def Before (t : Trail) (r : Reach) : Prop :=
  t = code ∨ t = opener ∧ (r.opens && r.shell != .root) = true

end Trail

theorem Laid.Valid.finished_of_not_breaksLine {p : Laid} (hv : p.Valid) {r : Reach} {next : Next}
    (hb : breaksLine r next = false) :
    finished (.inRow r next) p.source = spaced (.inRow r next) p.source := by
  have hnone : (mark r next).or (Breaker.continuations r next []) = none :=
    Option.not_isSome_iff_eq_none.mp (Bool.not_eq_true _ ▸ hb)
  rw [finished_inRow hv.plain, hnone]
  rfl

/-- **What is written for a gap** is in normal form. -/
theorem Laid.Valid.exists_run_blanks {p : Laid} (hv : p.Valid) {r : Reach} {next : Next}
    (hs : p.spot = .inRow r next) {t : Trail} (ht : t.Before r) :
    ∃ u, t.run (spaces p.blanks) = some u := by
  have hquote : t ≠ .quoteMark := by
    rcases ht with rfl | ⟨rfl, -⟩ <;> decide
  cases hb : breaksLine r next with
  | true =>
    obtain ⟨n, hblanks⟩ := hv.blanks_of_breaksLine hs hb
    rw [hblanks, Trail.run_newline hquote]
    exact ⟨_, Trail.run_indentation n⟩
  | false =>
    obtain ⟨indent, -, hblanks⟩ := hv.blanks
    rw [hs, written, hv.finished_of_not_breaksLine hb] at hblanks
    rw [hblanks]
    refine Trail.exists_run_writeGap indent next _ false false t (tidy_spaced hv.plain r next)
      hquote fun _ _ => ?_
    rcases ht with rfl | ⟨rfl, hopens⟩
    · exact Or.inl (Or.inl rfl)
    · exact Or.inr (startsLine_spaced hv.plain hopens next)

/-- Nothing is written between a quote mark and what it quotes. -/
theorem Laid.Valid.blanks_of_quotes {p : Laid} (hv : p.Valid) (hs : p.spot = .afterQuote true) :
    p.blanks = [] := by
  obtain ⟨indent, -, hblanks⟩ := hv.blanks
  rw [hblanks, hs]
  rfl

/-! ## Forms and rows -/

mutual

/-- A form is written in normal form, and white space may follow if it does not lack its end. -/
theorem Form.exists_run_lexemes : ∀ (f : Form Laid) (isBindings : Bool) (t : Trail),
    f.Placed Laid.spot Laid.isLong isBindings → f.All Laid.Valid → f.NoBare →
      f.Regular Laid.IsEmpty →
        ∃ u, t.run (f.lexemes Laid.blanks) = some u ∧ (f.isOpen = false → u = .code)
  | .word _, _, _, _, _, _, _ => ⟨.code, rfl, fun _ => rfl⟩
  | .stray _, _, _, _, _, _, _ => ⟨.code, rfl, fun _ => rfl⟩
  | .str .., _, _, _, _, _, _ => ⟨.code, rfl, fun _ => rfl⟩
  | .comment _, _, _, _, _, _, _ => ⟨.code, rfl, fun _ => rfl⟩
  | .bareQuote _, _, _, _, _, hn, _ => absurd hn id
  | .group b row closed, isBindings, t, hp, hv, hn, hr => by
    obtain ⟨u, hu⟩ := row.exists_run_lexemes (.start (.group b closed) isBindings row) (some b)
      (!closed) .opener hp hv hn (fun h => by simpa [Reach.start, Shell.closes] using h) hr
      (Or.inr ⟨rfl, by simp [Reach.start]⟩)
    cases closed with
    | false =>
      refine ⟨u, ?_, fun h => by cases h⟩
      rw [Form.lexemes, if_neg Bool.false_ne_true, List.append_nil]
      exact hu
    | true =>
      refine ⟨.code, ?_, fun _ => rfl⟩
      rw [Form.lexemes, if_pos rfl, Trail.run_cons rfl, Trail.run_append, hu]
      rfl
  | .quoted p form, _, t, hp, hv, hn, hr => by
    obtain ⟨u, hu, hcode⟩ := form.exists_run_lexemes false .quoteMark hp.2 hv.2 hn hr.2
    refine ⟨u, ?_, hcode⟩
    rw [Form.lexemes, hv.1.blanks_of_quotes hp.1]
    exact hu

theorem Row.exists_run_lexemes : ∀ (row : Row Laid) (r : Reach) (own : Option Bracket)
    (atEnd : Bool) (t : Trail), row.Placed Laid.spot Laid.isLong r → row.All Laid.Valid →
      row.NoBare → (atEnd = true → r.shell.closes = false) →
        row.Regular Laid.IsEmpty own atEnd → t.Before r →
          ∃ u, t.run (row.lexemes Laid.blanks) = some u
  | .last p, r, _, _, t, hp, hv, _, _, _, ht => Laid.Valid.exists_run_blanks hv hp ht
  | .item p form rest, r, own, atEnd, t, hp, hv, hn, hend, hr, ht => by
    obtain ⟨hs, hpForm, hpRest⟩ := hp
    obtain ⟨hv, hvForm, hvRest⟩ := hv
    obtain ⟨hform, -, hopen, -, hrest⟩ := hr
    obtain ⟨u, hu⟩ := hv.exists_run_blanks hs ht
    obtain ⟨v, hw, hcode⟩ := form.exists_run_lexemes r.atBindings u hpForm hvForm hn.1 hform
    have hfront : t.run (spaces p.blanks ++ form.lexemes Laid.blanks) = some v := by
      rw [Trail.run_append, hu]
      exact hw
    rw [Row.lexemes, Trail.run_append, hfront]
    cases ho : form.isOpen with
    | false =>
      obtain rfl : v = .code := hcode ho
      exact rest.exists_run_lexemes (r.after form.isElement (form.spans Laid.isLong)) own atEnd
        .code hpRest hvRest hn.2 hend hrest (Or.inl rfl)
    | true =>
      -- what lacks its end is the last thing in the text
      obtain ⟨hatEnd, hvoid⟩ := hopen ho
      obtain ⟨q, rfl, hblanks⟩ := Row.exists_last_of_isVoid hpRest hvRest (hend hatEnd) hvoid
      refine ⟨v, ?_⟩
      rw [Row.lexemes, hblanks]
      rfl

end

/-! ## Forms of a group -/

/-- Between the forms of a group something is written. -/
theorem Laid.Valid.blanks_ne_nil {p : Laid} (hv : p.Valid) {r : Reach}
    {isElement isLineComment : Bool} (hs : p.spot = .inRow r (.form isElement isLineComment))
    (hr : (r.opens || r.shell == .root) = false) : p.blanks ≠ [] := by
  cases hb : breaksLine r (.form isElement isLineComment) with
  | true =>
    obtain ⟨n, hblanks⟩ := hv.blanks_of_breaksLine hs hb
    rw [hblanks]
    exact List.cons_ne_nil _ _
  | false =>
    obtain ⟨indent, -, hblanks⟩ := hv.blanks
    rw [hs, written, hv.finished_of_not_breaksLine hb] at hblanks
    rw [hblanks]
    exact writeGap_ne_nil (spaced_ne_nil hr isElement isLineComment p.source) indent _

/-- Whether a node of the source has white space directly before it in a formatted text. -/
def SetOff (formatted : String) (before : List Char) (c : Token) : Prop :=
  ∃ blanks, blanks ≠ [] ∧ (∀ x ∈ blanks, isBlank x = true) ∧ PrecededBy formatted before c blanks

/-- The children between the delimiters that are not white space. -/
def formPlaces (kind : Kind) (children : List Token) : List Nat :=
  innerPlaces kind children fun t => !t.isWhitespace

/-- Every form of a group but the first has white space before it. -/
theorem Inside.setOff {text : String} {whole : Row (List Blank)} {before : List Char}
    {shell : Shell} {isBindings : Bool} {row : Row Laid}
    (hs : Lexeme.scan .source text = whole.lexemes id)
    (hformat : format text = String.ofList whole.laid.text)
    (hi : Inside whole.laid.pieces before shell isBindings row) (hroot : shell ≠ .root) {i : Nat}
    (hmem : i ∈ (formPlaces shell.kind (shell.children row)).drop 1) {c : Token}
    (hc : (shell.children row)[i]? = some c) :
    SetOff (format text) (before ++ allCharacters ((shell.children row).take i)) c := by
  obtain ⟨n, hn⟩ := List.mem_iff_getElem?.mp hmem
  rw [List.getElem?_drop] at hn
  obtain ⟨front, p, form, rest, hrow, -, hcount, hplace⟩ :=
    hi.exists_behind_form Laid.source (fun t ht => by rw [ht]; rfl) hn
  obtain ⟨hplaced, ⟨hv, -⟩, -⟩ := hi.of_behind hrow
  have hfront : front ≠ [] := by
    rintro rfl
    rw [List.countP_nil] at hcount
    omega
  have hplace' : (((Reach.start shell isBindings row).pass Laid.isLong front).opens ||
      ((Reach.start shell isBindings row).pass Laid.isLong front).shell == .root) = false := by
    rw [Reach.opens_pass _ _ _ hfront, Reach.shell_pass, Bool.false_or]
    exact beq_eq_false_iff_ne.mpr hroot
  refine ⟨characters p.blanks, ?_, ?_, hi.precededBy_form hs hformat hrow hplace hc⟩
  · rw [characters, Ne, List.map_eq_nil_iff]
    exact hv.blanks_ne_nil hplaced.1 hplace'
  · intro x hx
    obtain ⟨d, -, rfl⟩ := List.mem_map.mp hx
    exact d.2

/--
**The white space of a formatted text is in normal form**, if every quote mark has
something to quote: it is in normal form between the lexemes, and every form of a list or
an array but the first has white space before it.
-/
theorem normalSpacing_format {text : String} {t : Token} (ht : Token.ofText text = .ok t)
    (hq : quotesHaveForms (Lexeme.scan .source text) = true) :
    NormalSpacing (Lexeme.scan .source (format text)) ∧
      ∀ (kind : Kind) (children : List Token) (before : List Char) (i : Nat) (c : Token),
        kind = .list ∨ kind = .array → Occurs (.aggregate kind children) before t →
          i ∈ (formPlaces kind children).drop 1 → children[i]? = some c →
            SetOff (format text) (before ++ allCharacters (children.take i)) c := by
  let whole := Row.ofLexemes (Lexeme.scan .source text)
  have hr : whole.Regular Row.IsEmpty none true := Row.regular_ofLexemes _
  have hs : Lexeme.scan .source text = whole.lexemes id := scan_eq_lexemes_ofLexemes text
  have hformat := format_eq_laid hr hs
  have htree := Token.ofText_of_scan hr hs
  rw [ht] at htree
  cases hf : whole.fits 0 with
  | false => simp [hf] at htree
  | true =>
    rw [hf, if_pos rfl] at hformat htree
    cases htree
    constructor
    · have hnoBare : whole.laid.NoBare := by
        have hb := Row.noBare_ofLexemes (Lexeme.canonical_scan .source text).spelled hq
        have hlaid := (whole.laid.noBare_map fun p => blanksOf p.source).mp
        rw [Row.map_blanksOf_laid] at hlaid
        exact hlaid hb
      obtain ⟨last, hrun⟩ := whole.laid.exists_run_lexemes (.start .root false whole) none true
        .code (Row.placed_laid whole) (Row.valid_laid whole) hnoBare (fun _ => rfl)
        (Row.regular_source_laid hr) (Or.inl rfl)
      rw [scan_format_of_fits hr hs hf]
      exact Trail.normalSpacing_of_run hrun
    · intro kind children before i c hk ho hi hc
      obtain ⟨shell, isBindings, row, hinside, rfl, rfl⟩ :=
        isRow_of_occurs (whole.matched_of_regular none true hr) (Or.inr hk) ho
      have hroot : shell ≠ .root := by
        rintro rfl
        simp [Shell.kind] at hk
      exact hinside.setOff hs hformat hroot hi hc

/-- A text with tabs, a quote mark before a blank, and forms that touch. -/
theorem normalSpacing_format_array :
    quotesHaveForms (Lexeme.scan .source "(a[b\"c\"] \t' d)") = true ∧
      NormalSpacing (Lexeme.scan .source (format "(a[b\"c\"] \t' d)")) ∧
        ∃ c, c.characters = "[b\"c\"]".toList ∧
          SetOff (format "(a[b\"c\"] \t' d)") "(a".toList c := by
  let array : Token := .aggregate .array [.char '[', .plain ['b'],
    .aggregate .str [.char '"', .plain ['c'], .char '"'], .char ']']
  let list : Token := .aggregate .list [.char '(', .plain ['a'], array, .space, .char '\t',
    .aggregate .quote [.char '\'', .space, .plain ['d']], .char ')']
  have ht : Token.ofText "(a[b\"c\"] \t' d)" = .ok (.aggregate .root [list]) := rfl
  have hq : quotesHaveForms (Lexeme.scan .source "(a[b\"c\"] \t' d)") = true := by decide
  obtain ⟨hnormal, hset⟩ := normalSpacing_format ht hq
  refine ⟨hq, hnormal, array, rfl, ?_⟩
  exact hset .list _ [] 2 array (Or.inl rfl) (.inside (.first .here)) (by decide) rfl

end ExactLisp.Layout
