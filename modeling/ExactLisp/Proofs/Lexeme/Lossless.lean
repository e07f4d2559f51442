import ExactLisp.Lexeme.Spelling
import ExactLisp.Proofs.Lexeme.Canonical

/-!
# Taking lexemes off a text

A text can also be cut up by taking one lexeme after the other off its front. Each kind of lexeme
has a taker of its own, which may find that the text does not start with one of its kind. The
takers are tried in order, the first that succeeds decides, and where none does the rest of the
text is left over.

Nothing is ever left over, and the lexemes are those of the scanner (`takeAll_toList`): a canonical
list is taken off one by one, because what comes after a lexeme ends it (`take?_spelling_append`).

Whether semicolons open comments makes no difference exactly if they all stand inside strings
(`scan_source_eq_iff`). Both scanners run through the same states as long as they do, and the first
one that does not gives a comment, which the evaluator never sees.
-/

namespace ExactLisp.Lexeme

/-! ## Taking one lexeme -/

/-- A lexeme that has been taken off a text, and the rest of the text. -/
abbrev Taken := Option (Lexeme × List Char)

/-- Take one character that is a lexeme of its own. -/
def takeChar? (lexeme? : Char → Option Lexeme) : List Char → Taken
  | [] => none
  | c :: rest => (lexeme? c).map fun x => (x, rest)

/-- The brackets and the quote mark. -/
def delimiters : List Char := ['(', '[', ')', ']', quoteMark]

/-- What a delimiter is as a lexeme. -/
def ofDelimiter? (c : Char) : Option Lexeme :=
  if c = '(' then some (opening .round)
  else if c = '[' then some (opening .square)
  else if c = ')' then some (closing .round)
  else if c = ']' then some (closing .square)
  else if c = quoteMark then some quote
  else none

/-- What a blank is as a lexeme. -/
def ofBlank? (c : Char) : Option Lexeme := if isBlank c then some (space c) else none

/--
The byte offset of the mark that closes a string, if there is one, where the first of some
characters is at an offset. A backslash takes the character after it along, if there is one.
-/
def closingOffset? (offset : Nat) : List Char → Option Nat
  | [] => none
  | c :: rest =>
    if c = quotationMark then some offset
    else if c = backslash then
      match rest with
      | [] => none
      | d :: rest => closingOffset? (offset + c.utf8Size + d.utf8Size) rest
    else closingOffset? (offset + c.utf8Size) rest

/-- Cut a text at a byte offset, unless that is within a character or past the end. -/
def cutAt? (offset : Nat) : List Char → Option (List Char × List Char)
  | [] => if offset = 0 then some ([], []) else none
  | c :: rest =>
    if offset = 0 then some ([], c :: rest)
    else if offset < c.utf8Size then none
    else (cutAt? (offset - c.utf8Size) rest).map fun p => (c :: p.1, p.2)

/-- Take a string, which the end of the text ends if nothing closes it. -/
def takeString? : List Char → Taken
  | [] => none
  | c :: rest =>
    if c = quotationMark then
      match closingOffset? 0 rest with
      | none => some (str rest false, [])
      | some offset => do
        let (raw, _) ← cutAt? offset rest
        let (_, left) ← cutAt? (offset + 1) rest
        some (str raw true, left)
    else none

/-- Take a comment up to the end of its line. -/
def takeComment? : List Char → Taken
  | [] => none
  | c :: rest =>
    if c = commentMark then
      some (comment (rest.takeWhile fun d => d != '\n'), rest.dropWhile fun d => d != '\n')
    else none

/-- Take a word of at least one character. -/
def takeWord? (mode : Mode) (cs : List Char) : Taken :=
  if (cs.takeWhile (isWordChar mode)).isEmpty then none
  else some (word (cs.takeWhile (isWordChar mode)), cs.dropWhile (isWordChar mode))

/-- The takers, in the order in which they are tried. -/
def takers : Mode → List (List Char → Taken)
  | .engine =>
    [takeChar? ofDelimiter?, takeString?, takeChar? ofBlank?, takeWord? .engine]
  | .source =>
    [takeChar? ofDelimiter?, takeString?, takeComment?, takeChar? ofBlank?, takeWord? .source]

/-- Take the first lexeme of a text. -/
def take? (mode : Mode) (cs : List Char) : Taken := (takers mode).findSome? fun taker => taker cs

/-! ## Taking all lexemes -/

section Shorter

variable {mode : Mode} {cs rest : List Char} {x : Lexeme}

theorem length_lt_of_takeChar? {lexeme? : Char → Option Lexeme}
    (h : takeChar? lexeme? cs = some (x, rest)) : rest.length < cs.length := by
  cases cs with
  | nil => cases h
  | cons c cs =>
    obtain ⟨y, -, hy⟩ := Option.map_eq_some_iff.mp h
    cases hy
    exact Nat.lt_succ_self _

theorem append_of_cutAt? {offset : Nat} {as bs : List Char}
    (h : cutAt? offset cs = some (as, bs)) : as ++ bs = cs := by
  induction cs generalizing offset as with
  | nil =>
    rw [cutAt?] at h
    split at h
    · cases h
      rfl
    · cases h
  | cons c cs ih =>
    rw [cutAt?] at h
    split at h
    · cases h
      rfl
    · split at h
      · cases h
      · obtain ⟨⟨as, bs⟩, hrest, heq⟩ := Option.map_eq_some_iff.mp h
        cases heq
        rw [List.cons_append, ih hrest]

theorem length_lt_of_takeString? (h : takeString? cs = some (x, rest)) :
    rest.length < cs.length := by
  cases cs with
  | nil => cases h
  | cons c cs =>
    rw [takeString?] at h
    split at h
    · split at h
      · cases h
        exact Nat.zero_lt_succ _
      · simp only [Option.bind_eq_bind, Option.bind_eq_some_iff] at h
        -- the second cut gives the rest, which is part of what comes after the opening mark
        obtain ⟨⟨raw, _⟩, -, ⟨before, left⟩, hcut, heq⟩ := h
        cases heq
        rw [List.length_cons, ← append_of_cutAt? hcut, List.length_append]
        exact Nat.lt_succ_of_le (Nat.le_add_left _ _)
    · cases h

theorem length_lt_of_takeComment? (h : takeComment? cs = some (x, rest)) :
    rest.length < cs.length := by
  cases cs with
  | nil => cases h
  | cons c cs =>
    rw [takeComment?] at h
    split at h
    · cases h
      exact Nat.lt_succ_of_le (List.dropWhile_suffix _).length_le
    · cases h

theorem length_lt_of_takeWord? (h : takeWord? mode cs = some (x, rest)) :
    rest.length < cs.length := by
  rw [takeWord?] at h
  split at h
  · cases h
  next hne =>
    cases h
    have hsplit := congrArg List.length
      (List.takeWhile_append_dropWhile (p := isWordChar mode) (l := cs))
    have hpos := List.length_pos_iff.mpr (mt List.isEmpty_iff.mpr hne)
    rw [List.length_append] at hsplit
    omega

/-- Whatever is taken off a text, less of it is left. -/
theorem length_lt_of_take? (h : take? mode cs = some (x, rest)) : rest.length < cs.length := by
  obtain ⟨taker, hmem, htaken⟩ := List.exists_of_findSome?_eq_some h
  have hcases : taker = takeChar? ofDelimiter? ∨ taker = takeString? ∨ taker = takeComment? ∨
      taker = takeChar? ofBlank? ∨ taker = takeWord? mode := by
    cases mode <;> simp only [takers, List.mem_cons, List.not_mem_nil, or_false] at hmem <;> tauto
  rcases hcases with rfl | rfl | rfl | rfl | rfl
  · exact length_lt_of_takeChar? htaken
  · exact length_lt_of_takeString? htaken
  · exact length_lt_of_takeComment? htaken
  · exact length_lt_of_takeChar? htaken
  · exact length_lt_of_takeWord? htaken

end Shorter

/-- Take lexemes off a text for as long as it starts with one: the lexemes, and what is left. -/
def takeAll (mode : Mode) (cs : List Char) : List Lexeme × List Char :=
  match _ : take? mode cs with
  | none => ([], cs)
  | some (x, rest) =>
    let later := takeAll mode rest
    (x :: later.1, later.2)
termination_by cs.length
decreasing_by exact length_lt_of_take? ‹_›

theorem takeAll_of_none {mode : Mode} {cs : List Char} (h : take? mode cs = none) :
    takeAll mode cs = ([], cs) := by
  rw [takeAll]
  split
  · rfl
  next hsome => rw [h] at hsome; cases hsome

theorem takeAll_of_some {mode : Mode} {cs rest : List Char} {x : Lexeme}
    (h : take? mode cs = some (x, rest)) :
    takeAll mode cs = (x :: (takeAll mode rest).1, (takeAll mode rest).2) := by
  rw [takeAll]
  split
  next hnone => rw [h] at hnone; cases hnone
  next hsome => rw [h] at hsome; cases hsome; rfl

/-! ## Nothing is left -/

/-- The number of bytes that some characters take up. -/
def byteCount : List Char → Nat
  | [] => 0
  | c :: rest => c.utf8Size + byteCount rest

theorem byteCount_append (as bs : List Char) :
    byteCount (as ++ bs) = byteCount as + byteCount bs := by
  induction as with
  | nil => rw [List.nil_append, byteCount, Nat.zero_add]
  | cons a as ih => rw [List.cons_append, byteCount, byteCount, ih, Nat.add_assoc]

theorem cutAt?_byteCount (as bs : List Char) :
    cutAt? (byteCount as) (as ++ bs) = some (as, bs) := by
  induction as with
  | nil => cases bs <;> rfl
  | cons a as ih =>
    have hpos := a.utf8Size_pos
    rw [List.cons_append, cutAt?, byteCount, if_neg (by omega), if_neg (by omega),
      Nat.add_sub_cancel_left, ih]
    rfl

theorem closingOffset?_mark (offset : Nat) (rest : List Char) :
    closingOffset? offset (quotationMark :: rest) = some offset := by
  cases rest <;> simp [closingOffset?]

theorem closingOffset?_backslash (offset : Nat) (d : Char) (rest : List Char) :
    closingOffset? offset (backslash :: d :: rest) =
      closingOffset? (offset + byteCount [backslash, d]) rest := by
  simp [closingOffset?, byteCount, backslash, quotationMark, Nat.add_assoc]

theorem closingOffset?_other {c : Char} (hmark : c ≠ quotationMark) (hescape : c ≠ backslash)
    (offset : Nat) (rest : List Char) :
    closingOffset? offset (c :: rest) = closingOffset? (offset + byteCount [c]) rest := by
  cases rest <;> simp [closingOffset?, byteCount, hmark, hescape]

theorem closingOffset?_of_closed : ∀ {raw : List Char}, stringState false raw = some false →
    ∀ (offset : Nat) (rest : List Char),
      closingOffset? offset (raw ++ quotationMark :: rest) = some (offset + byteCount raw)
  | [], _, offset, rest => closingOffset?_mark offset rest
  | c :: raw, h, offset, rest => by
    rw [stringState] at h
    split at h
    · cases h
    next hmark =>
      by_cases hc : c = backslash
      · subst hc
        cases raw with
        | nil => cases h
        | cons d raw =>
          -- the character after the backslash goes with it, whatever it is
          have hraw : stringState false raw = some false := h
          rw [List.cons_append, List.cons_append, closingOffset?_backslash,
            closingOffset?_of_closed hraw, Nat.add_assoc]
          simp [byteCount, Nat.add_assoc]
      · rw [decide_eq_false hc] at h
        rw [List.cons_append, closingOffset?_other hmark hc, closingOffset?_of_closed h,
          Nat.add_assoc]
        simp [byteCount]

theorem closingOffset?_eq_none : ∀ {raw : List Char}, (stringState false raw).isSome →
    ∀ offset : Nat, closingOffset? offset raw = none
  | [], _, _ => rfl
  | c :: raw, h, offset => by
    rw [stringState] at h
    split at h
    · cases h
    next hmark =>
      by_cases hc : c = backslash
      · subst hc
        cases raw with
        | nil => rfl
        | cons d raw =>
          have hraw : (stringState false raw).isSome := h
          rw [closingOffset?_backslash, closingOffset?_eq_none hraw]
      · rw [decide_eq_false hc] at h
        rw [closingOffset?_other hmark hc, closingOffset?_eq_none h]

/-- Delimiters end words, and none of them is a blank. -/
theorem of_mem_delimiters {d : Char} (h : d ∈ delimiters) :
    isBreaking d = true ∧ isBlank d = false := by
  simp only [delimiters, List.mem_cons, List.not_mem_nil, or_false] at h
  rcases h with rfl | rfl | rfl | rfl | rfl <;> exact ⟨rfl, rfl⟩

theorem ofDelimiter?_eq_none {c : Char} (h : c ∉ delimiters) : ofDelimiter? c = none := by
  simp only [delimiters, List.mem_cons, List.not_mem_nil, or_false, not_or] at h
  obtain ⟨h1, h2, h3, h4, h5⟩ := h
  rw [ofDelimiter?, if_neg h1, if_neg h2, if_neg h3, if_neg h4, if_neg h5]

/-- Characters told apart by a test differ. -/
theorem ne_of_test {p : Char → Bool} {c d : Char} (hc : p c = true) (hd : p d = false) :
    c ≠ d := by
  rintro rfl
  rw [hc] at hd
  cases hd

/-- A run is taken up to where it ends. -/
theorem span_of_head? {p : Char → Bool} {cs rest : List Char} (hcs : ∀ c ∈ cs, p c = true)
    (hrest : ∀ c ∈ rest.head?, p c = false) :
    (cs ++ rest).takeWhile p = cs ∧ (cs ++ rest).dropWhile p = rest := by
  rw [List.takeWhile_append_of_pos hcs, List.dropWhile_append_of_pos hcs]
  cases rest with
  | nil => simp
  | cons c rest => simp [hrest c rfl]

section Takers

variable {mode : Mode} {rest : List Char}

/-- What is neither a delimiter nor the start of a string or comment is a blank or in a word. -/
theorem take?_of_ne {c : Char} (hdelimiter : c ∉ delimiters)
    (hmark : c ≠ quotationMark) (hcomment : mode = .source → c ≠ commentMark) :
    take? mode (c :: rest) = (takeChar? ofBlank? (c :: rest)).or (takeWord? mode (c :: rest)) := by
  have hchar : takeChar? ofDelimiter? (c :: rest) = none := by
    rw [takeChar?, ofDelimiter?_eq_none hdelimiter, Option.map_none]
  have hstring : takeString? (c :: rest) = none := by rw [takeString?, if_neg hmark]
  cases mode with
  | engine => cases h : takeChar? ofBlank? (c :: rest) <;> simp [take?, takers, hchar, hstring, h]
  | source =>
    have hno : takeComment? (c :: rest) = none := by rw [takeComment?, if_neg (hcomment rfl)]
    cases h : takeChar? ofBlank? (c :: rest) <;> simp [take?, takers, hchar, hstring, hno, h]

theorem take?_space {c : Char} (hc : isBlank c = true) :
    take? mode (c :: rest) = some (space c, rest) := by
  have hdelimiter : c ∉ delimiters := fun h =>
    ne_of_test hc (of_mem_delimiters h).2 rfl
  rw [take?_of_ne hdelimiter (ne_of_test hc rfl) fun _ => ne_of_test hc rfl]
  simp [takeChar?, ofBlank?, hc]

theorem take?_word {text : List Char} (hne : text ≠ [])
    (htext : ∀ c ∈ text, isWordChar mode c = true)
    (hrest : ∀ c ∈ rest.head?, isWordChar mode c = false) :
    take? mode (text ++ rest) = some (word text, rest) := by
  obtain ⟨htake, hdrop⟩ := span_of_head? htext hrest
  obtain ⟨c, cs, rfl⟩ := List.exists_cons_of_ne_nil hne
  have hc := htext c List.mem_cons_self
  have hbreaking : isBreaking c = false := by
    rw [isWordChar, Bool.and_eq_true, Bool.not_eq_true'] at hc
    exact hc.1
  have hdelimiter : c ∉ delimiters := fun h => by
    rw [(of_mem_delimiters h).1] at hbreaking
    cases hbreaking
  have hblank : isBlank c = false := by
    cases h : isBlank c with
    | false => rfl
    | true => simp [isBreaking, h] at hbreaking
  have hmark : c ≠ quotationMark := ne_of_test hc (by cases mode <;> rfl)
  rw [List.cons_append] at htake hdrop ⊢
  rw [take?_of_ne hdelimiter hmark fun hmode => ne_of_test hc (by rw [hmode]; rfl)]
  simp [takeChar?, ofBlank?, hblank, takeWord?, htake, hdrop]

/-- A quotation mark starts a string. -/
theorem take?_mark {x : Lexeme} {left : List Char}
    (h : takeString? (quotationMark :: rest) = some (x, left)) :
    take? mode (quotationMark :: rest) = some (x, left) := by
  have hchar : takeChar? ofDelimiter? (quotationMark :: rest) = none := rfl
  cases mode <;> simp [take?, takers, hchar, h]

/-- The mark that closes a string takes up one byte, so both cuts are between characters. -/
theorem take?_closed {raw : List Char} (h : stringState false raw = some false) :
    take? mode (quotationMark :: (raw ++ quotationMark :: rest)) = some (str raw true, rest) := by
  have hoffset := closingOffset?_of_closed h 0 rest
  have hbefore := cutAt?_byteCount raw (quotationMark :: rest)
  have hafter := cutAt?_byteCount (raw ++ [quotationMark]) rest
  have hmark : byteCount [quotationMark] = 1 := rfl
  rw [byteCount_append, hmark, List.append_assoc, List.singleton_append] at hafter
  rw [Nat.zero_add] at hoffset
  exact take?_mark (by simp [takeString?, hoffset, hbefore, hafter])

theorem take?_unclosed {raw : List Char} (h : (stringState false raw).isSome) :
    take? mode (quotationMark :: raw) = some (str raw false, []) :=
  take?_mark (by simp [takeString?, closingOffset?_eq_none h])

theorem take?_comment {text : List Char} (htext : '\n' ∉ text)
    (hrest : ∀ c ∈ rest.head?, c = '\n') :
    take? .source (commentMark :: (text ++ rest)) = some (comment text, rest) := by
  have hchar : takeChar? ofDelimiter? (commentMark :: (text ++ rest)) = none := rfl
  have hstring : takeString? (commentMark :: (text ++ rest)) = none := rfl
  have hline : ∀ c ∈ text, (c != '\n') = true := fun c hc =>
    bne_iff_ne.mpr fun heq => htext (heq ▸ hc)
  have hend : ∀ c ∈ rest.head?, (c != '\n') = false := fun c hc => by simp [hrest c hc]
  obtain ⟨htake, hdrop⟩ := span_of_head? (p := fun c => c != '\n') hline hend
  simp [take?, takers, hchar, hstring, takeComment?, htake, hdrop]

end Takers

/-- What comes after a lexeme ends it, so exactly that lexeme is taken. -/
theorem take?_spelling_append {mode : Mode} {x : Lexeme} {rest : List Char}
    (hx : x.WellSpelled mode) (hrest : x.EndsBefore mode rest) :
    take? mode (x.spelling ++ rest) = some (x, rest) := by
  cases x with
  | opening b => cases b <;> cases mode <;> rfl
  | closing b => cases b <;> cases mode <;> rfl
  | quote => cases mode <;> rfl
  | word text => exact take?_word hx.1 hx.2 hrest
  | space c => exact take?_space hx
  | str raw closed =>
    cases closed with
    | true =>
      rw [spelling, if_pos rfl, List.cons_append, List.append_assoc, List.singleton_append]
      exact take?_closed hx
    | false =>
      have hnil : rest = [] := hrest
      rw [hnil, spelling, if_neg Bool.false_ne_true, List.append_nil, List.append_nil]
      exact take?_unclosed hx
  | comment text =>
    obtain ⟨rfl, htext⟩ := hx
    exact take?_comment htext hrest

theorem takeAll_flatMap_spelling {mode : Mode} {xs : List Lexeme} (h : Canonical mode xs) :
    takeAll mode (xs.flatMap spelling) = (xs, []) := by
  induction xs with
  | nil => exact takeAll_of_none (by cases mode <;> rfl)
  | cons x rest ih =>
    have hx := take?_spelling_append (h.spelled x List.mem_cons_self) h.endsBefore
    rw [List.flatMap_cons, takeAll_of_some hx, ih h.tail]

/-- **Nothing is left over** when lexemes are taken off a text, and they are those of the text. -/
theorem takeAll_toList (mode : Mode) (text : String) :
    takeAll mode text.toList = (scan mode text, []) := by
  rw [← spelling_scan mode text, takeAll_flatMap_spelling (canonical_scan mode text)]

/-! ## With and without comments -/

/--
The string that is open after a character, given the one that is open before it. There is none, or
one whose last character is a backslash that waits for its partner, or is not.
-/
def openString : Option Bool → Char → Option Bool
  | none, c => if c = quotationMark then some false else none
  | some true, _ => some false
  | some false, c => if c = quotationMark then none else some (c = backslash)

/-- Whether all semicolons among some characters are inside strings, one of which may be open. -/
def semicolonsQuoted : Option Bool → List Char → Bool
  | _, [] => true
  | string, c :: rest =>
    (string.isSome || c != commentMark) && semicolonsQuoted (openString string c) rest

/-- The string that is open while a lexeme is pending. -/
def Pending.string : Pending → Option Bool
  | .str _ escaped => some escaped
  | .idle | .word _ | .comment _ => none

theorem start_source {c : Char} (h : c ≠ commentMark) : start .source c = start .engine c := by
  simp [start, h]

theorem string_start (c : Char) :
    (start .engine c).2.string = if c = quotationMark then some false else none := by
  by_cases h : c = quotationMark
  · subst h
    rfl
  · rw [if_neg h]
    unfold start
    repeat' split
    all_goals simp_all [Pending.string]

/-- Where a semicolon would not open a comment, both scanners do the same. -/
theorem step_source {p : Pending} (hp : p.WellSpelled .engine) {c : Char}
    (h : (p.string.isSome || c != commentMark) = true) : step .source p c = step .engine p c := by
  cases p with
  | idle => exact start_source (by simpa [Pending.string] using h)
  | word reversed =>
    have hc : c ≠ commentMark := by simpa [Pending.string] using h
    have hword : isWordChar .source c = isWordChar .engine c := by
      rw [isWordChar, isWordChar, beq_eq_false_iff_ne.mpr hc, Bool.and_false, Bool.and_false]
    rw [step, step, hword, endWith, endWith, start_source hc]
  | str reversed escaped => cases escaped <;> rfl
  | comment reversed => cases hp.1

theorem string_step {p : Pending} (hp : p.WellSpelled .engine) (c : Char) :
    (step .engine p c).2.string = openString p.string c := by
  cases p with
  | idle => exact string_start c
  | word reversed =>
    rw [step]
    split
    next hc =>
      have hmark : c ≠ quotationMark := ne_of_test hc rfl
      simp [Pending.string, openString, hmark]
    · exact string_start c
  | str reversed escaped =>
    cases escaped with
    | true => rfl
    | false =>
      rw [step, Pending.string, openString]
      split <;> rfl
  | comment reversed => cases hp.1

theorem exists_comment_mem_scanFrom (mode : Mode) (reversed cs : List Char) :
    ∃ text, comment text ∈ scanFrom mode (.comment reversed) cs := by
  induction cs generalizing reversed with
  | nil => exact ⟨_, List.mem_cons_self⟩
  | cons c cs ih =>
    rw [scanFrom, step]
    split
    · exact ⟨_, List.mem_append_left _ List.mem_cons_self⟩
    · exact ih (c :: reversed)

/-- A semicolon that does open a comment gives one. -/
theorem exists_comment_of_bare {p : Pending} (hp : p.WellSpelled .engine)
    (h : p.string = none) (rest : List Char) :
    ∃ text, comment text ∈ scanFrom .source p (commentMark :: rest) := by
  cases p with
  | idle => exact exists_comment_mem_scanFrom .source [] rest
  | word reversed =>
    obtain ⟨text, htext⟩ := exists_comment_mem_scanFrom .source [] rest
    exact ⟨text, List.mem_cons_of_mem _ htext⟩
  | str reversed escaped => cases h
  | comment reversed => cases hp.1

/-- The scanners give the same lexemes as long as all semicolons are inside strings. -/
theorem scanFrom_source_eq_iff {p : Pending} (hp : p.WellSpelled .engine) (cs : List Char) :
    scanFrom .source p cs = scanFrom .engine p cs ↔ semicolonsQuoted p.string cs = true := by
  induction cs generalizing p with
  | nil => exact ⟨fun _ => rfl, fun _ => rfl⟩
  | cons c rest ih =>
    cases h : p.string.isSome || c != commentMark with
    | true =>
      -- the step is the same, and the string that is open after it decides about the rest
      rw [scanFrom, scanFrom, step_source hp h, List.append_cancel_left_eq,
        ih (wellSpelled_step hp c).2, string_step hp, semicolonsQuoted, h, Bool.true_and]
    | false =>
      obtain ⟨hstring, hc⟩ := Bool.or_eq_false_iff.mp h
      rw [bne_eq_false_iff_eq] at hc
      refine ⟨fun heq => ?_, fun hquoted => ?_⟩
      · -- the evaluator never sees a comment
        obtain ⟨text, htext⟩ := exists_comment_of_bare hp (by simpa using hstring) rest
        rw [← hc, heq] at htext
        cases (wellSpelled_scanFrom hp _ _ htext).1
      · rw [semicolonsQuoted, h] at hquoted
        cases hquoted

/-- **Comments make a difference** exactly if there is a semicolon outside of all strings. -/
theorem scan_source_eq_iff (text : String) :
    scan .source text = scan .engine text ↔ semicolonsQuoted none text.toList = true :=
  scanFrom_source_eq_iff (p := .idle) trivial text.toList

/-! ## Scanning -/

/--
**Scanning loses nothing.** In both modes, lexemes can be taken off a text to its end, they are
those of the scanner, and spelled out they are the text. No word follows a word, no word has a
character in it that ends words, and both modes give the same lexemes exactly if all semicolons
are inside strings.
-/
theorem scan_lossless (mode : Mode) (text : String) :
    takeAll mode text.toList = (scan mode text, []) ∧
      (scan mode text).flatMap spelling = text.toList ∧
      (∀ before after v w, scan mode text ≠ before ++ word v :: word w :: after) ∧
      (∀ w c, word w ∈ scan mode text → c ∈ w →
        isBreaking c = false ∧ (mode = .source → c ≠ commentMark)) ∧
      (scan .source text = scan .engine text ↔ semicolonsQuoted none text.toList = true) := by
  have hcanonical := canonical_scan mode text
  refine ⟨takeAll_toList mode text, spelling_scan mode text, ?apart, ?words,
    scan_source_eq_iff text⟩
  case apart =>
    intro before after v w hscan
    have hchain := hcanonical.apart
    rw [hscan] at hchain
    exact List.rel_of_isChain_cons_cons (List.isChain_append.mp hchain).2.1
  case words =>
    intro w c hw hc
    have hwordChar : isWordChar mode c = true := (hcanonical.spelled _ hw).2 c hc
    simp only [isWordChar, Bool.and_eq_true, Bool.not_eq_true'] at hwordChar
    obtain ⟨hbreaking, hcomment⟩ := hwordChar
    refine ⟨hbreaking, fun hmode heq => ?_⟩
    rw [hmode, heq] at hcomment
    cases hcomment

/-- For instance a word right before a comment, and a letter of two bytes and a mark in a string. -/
theorem scan_lossless_commented :
    takeAll .source "(ab;c\n\"é\\\";\"".toList =
        ([opening .round, word ['a', 'b'], comment ['c'], space '\n',
          str ['é', backslash, quotationMark, ';'] true], []) ∧
      word ['a', 'b'] ∈ scan .source "(ab;c\n\"é\\\";\"" ∧ 'b' ∈ ['a', 'b'] ∧
      isBreaking 'b' = false ∧ 'b' ≠ commentMark := by
  have hword : word ['a', 'b'] ∈ scan .source "(ab;c\n\"é\\\";\"" := by decide
  have hmem : 'b' ∈ ['a', 'b'] := by decide
  obtain ⟨htaken, -, -, hwords, -⟩ := scan_lossless .source "(ab;c\n\"é\\\";\""
  obtain ⟨hbreaking, hcomment⟩ := hwords ['a', 'b'] 'b' hword hmem
  exact ⟨htaken.trans rfl, hword, hmem, hbreaking, hcomment rfl⟩

end ExactLisp.Lexeme
