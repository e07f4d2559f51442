import ExactLisp.Lexeme
import Mathlib.Data.List.Chain

/-!
# Lexemes that read back

Not every list of lexemes is what some text is cut into: two words next to each
other would be read as one, and a comment swallows whatever follows it on its line.
A list is *canonical* when every lexeme in it is spelled as the scanner spells it,
and every two neighbours keep apart when they are put together.

The canonical lists are exactly the ones that scanning gives:

* a text is cut into a canonical list (`canonical_scan`);
* a canonical list, spelled out and scanned, is itself again
  (`scanFrom_flatMap_spelling`).

So to know what a text that was put together from lexemes is cut into, it is enough
to look at each pair of neighbours.
-/

namespace ExactLisp.Lexeme

/-! ## Spelling one lexeme -/

/--
Where the characters of a string leave off, when started after a backslash or not:
whether the last one is a backslash that waits for its partner. There is no answer
if the string ended before.
-/
def stringState : Bool → List Char → Option Bool
  | escaped, [] => some escaped
  | true, _ :: rest => stringState false rest
  | false, c :: rest => if c = quotationMark then none else stringState (c = backslash) rest

/-- Whether a lexeme is spelled as the scanner spells it. -/
def WellSpelled (mode : Mode) : Lexeme → Prop
  | word text => text ≠ [] ∧ ∀ c ∈ text, isWordChar mode c = true
  | space c => isBlank c = true
  | str raw true => stringState false raw = some false
  | str raw false => (stringState false raw).isSome
  | comment text => mode = .source ∧ '\n' ∉ text
  | opening _ | closing _ | quote => True

/-- Whether a lexeme ends where another one is put after it. -/
def MayPrecede : Lexeme → Lexeme → Prop
  | word _, word _ => False
  | str _ false, _ => False
  | comment _, next => next = space '\n'
  | _, _ => True

/-- What scanning can give. -/
structure Canonical (mode : Mode) (xs : List Lexeme) : Prop where
  /-- Every lexeme is spelled as the scanner spells it. -/
  spelled : ∀ x ∈ xs, x.WellSpelled mode
  /-- Neighbours keep apart. -/
  apart : xs.IsChain MayPrecede

theorem stringState_append (escaped : Bool) (xs ys : List Char) :
    stringState escaped (xs ++ ys) =
      (stringState escaped xs).bind fun state => stringState state ys := by
  fun_induction stringState escaped xs with
  | case1 => rfl
  | case2 _ rest ih => exact ih
  | case3 rest => simp [stringState]
  | case4 c rest h ih => simp [stringState, h, ih]

/-! ## Reading a canonical list back -/

theorem start_of_isWordChar {mode : Mode} {c : Char} (h : isWordChar mode c = true) :
    start mode c = ([], .word [c]) := by
  simp only [isWordChar, isBreaking, Bool.and_eq_true, Bool.not_eq_true', Bool.or_eq_false_iff,
    beq_eq_false_iff_ne, Bool.and_eq_false_iff] at h
  obtain ⟨⟨⟨⟨⟨⟨⟨hb, h1⟩, h2⟩, h3⟩, h4⟩, h5⟩, h6⟩, h7⟩ := h
  unfold start
  rw [if_neg h1, if_neg h3, if_neg h2, if_neg h4, if_neg h5, if_neg h6, if_neg, if_neg]
  · simp [hb]
  · rintro ⟨rfl, hc⟩
    rcases h7 with h7 | h7
    · simp at h7
    · exact h7 hc

/-- The characters of a word are added to what is pending. -/
theorem scanFrom_word_append {mode : Mode} {cs : List Char} (reversed rest : List Char)
    (hcs : ∀ c ∈ cs, isWordChar mode c = true) :
    scanFrom mode (.word reversed) (cs ++ rest) =
      scanFrom mode (.word (cs.reverse ++ reversed)) rest := by
  induction cs generalizing reversed with
  | nil => rfl
  | cons c cs ih =>
    have hc : isWordChar mode c = true := hcs c List.mem_cons_self
    rw [List.cons_append, scanFrom, step, if_pos hc, List.nil_append,
      ih (c :: reversed) fun d hd => hcs d (List.mem_cons_of_mem _ hd)]
    simp

theorem scanFrom_idle_word {mode : Mode} {text : List Char} (hne : text ≠ [])
    (htext : ∀ c ∈ text, isWordChar mode c = true) (rest : List Char) :
    scanFrom mode .idle (text ++ rest) = scanFrom mode (.word text.reverse) rest := by
  obtain ⟨c, cs, rfl⟩ := List.exists_cons_of_ne_nil hne
  rw [List.cons_append, scanFrom, step, start_of_isWordChar (htext c List.mem_cons_self),
    List.nil_append, scanFrom_word_append [c] rest fun d hd => htext d (List.mem_cons_of_mem _ hd)]
  simp

/-- A word ends where something else comes. -/
theorem scanFrom_word_of_head? {mode : Mode} (reversed : List Char) {rest : List Char}
    (hrest : ∀ c ∈ rest.head?, isWordChar mode c = false) :
    scanFrom mode (.word reversed) rest =
      .word reversed.reverse :: scanFrom mode .idle rest := by
  cases rest with
  | nil => rfl
  | cons c rest =>
    have hc : isWordChar mode c = false := hrest c rfl
    simp [scanFrom, step, hc, endWith]

theorem scanFrom_str {mode : Mode} {escaped : Bool} {cs : List Char} (rest : List Char)
    (reversed : List Char) (h : stringState escaped cs = some false) :
    scanFrom mode (.str reversed escaped) (cs ++ quotationMark :: rest) =
      .str (reversed.reverse ++ cs) true :: scanFrom mode .idle rest := by
  fun_induction stringState escaped cs generalizing reversed with
  | case1 escaped =>
    cases h
    simp [scanFrom, step]
  | case2 c cs ih =>
    rw [List.cons_append, scanFrom, step, List.nil_append, ih (c :: reversed) h]
    simp
  | case3 => cases h
  | case4 c cs hc ih =>
    rw [List.cons_append, scanFrom, step, if_neg hc, List.nil_append, ih (c :: reversed) h]
    simp

/-- A string that never ends takes the rest of the text. -/
theorem scanFrom_str_unclosed {mode : Mode} {escaped : Bool} {cs : List Char}
    (reversed : List Char) (h : (stringState escaped cs).isSome) :
    scanFrom mode (.str reversed escaped) cs = [.str (reversed.reverse ++ cs) false] := by
  fun_induction stringState escaped cs generalizing reversed with
  | case1 => simp [scanFrom, Pending.flush]
  | case2 c cs ih =>
    rw [scanFrom, step, List.nil_append, ih (c :: reversed) h]
    simp
  | case3 => cases h
  | case4 c cs hc ih =>
    rw [scanFrom, step, if_neg hc, List.nil_append, ih (c :: reversed) h]
    simp

theorem scanFrom_comment {mode : Mode} {cs rest : List Char} (reversed : List Char)
    (hcs : '\n' ∉ cs) (hrest : ∀ c ∈ rest.head?, c = '\n') :
    scanFrom mode (.comment reversed) (cs ++ rest) =
      .comment (reversed.reverse ++ cs) :: scanFrom mode .idle rest := by
  induction cs generalizing reversed with
  | nil =>
    cases rest with
    | nil => simp [scanFrom, Pending.flush]
    | cons c rest =>
      have hc : c = '\n' := hrest c rfl
      simp [scanFrom, step, hc, endWith]
  | cons c cs ih =>
    obtain ⟨hc, hcs⟩ := List.ne_and_not_mem_of_not_mem_cons hcs
    rw [List.cons_append, scanFrom, step, if_neg (Ne.symm hc), List.nil_append,
      ih (c :: reversed) hcs]
    simp

/-- Whether a lexeme ends before some text. -/
def EndsBefore (mode : Mode) (rest : List Char) : Lexeme → Prop
  | word _ => ∀ c ∈ rest.head?, isWordChar mode c = false
  | str _ false => rest = []
  | comment _ => ∀ c ∈ rest.head?, c = '\n'
  | _ => True

/-- The scanner takes a lexeme off a text that goes on with something else. -/
theorem scanFrom_spelling_append {mode : Mode} {x : Lexeme} {rest : List Char}
    (hx : x.WellSpelled mode) (hrest : x.EndsBefore mode rest) :
    scanFrom mode .idle (x.spelling ++ rest) = x :: scanFrom mode .idle rest := by
  cases x with
  | opening b => cases b <;> simp [spelling, Bracket.openChar, scanFrom, step, start]
  | closing b => cases b <;> simp [spelling, Bracket.closeChar, scanFrom, step, start]
  | quote => simp [spelling, scanFrom, step, start, quoteMark]
  | word text =>
    obtain ⟨hne, hall⟩ := hx
    rw [spelling, scanFrom_idle_word hne hall, scanFrom_word_of_head? _ hrest, List.reverse_reverse]
  | space c =>
    -- no branch for a mark applies to a blank
    have hs : start mode c = ([space c], .idle) := by
      have hc : isBlank c = true := hx
      unfold start
      repeat' split
      all_goals simp_all [quoteMark, quotationMark, commentMark]
      all_goals revert hc; decide
    rw [spelling, List.singleton_append, scanFrom, step, hs]
    rfl
  | str raw closed =>
    have hs : start mode quotationMark = ([], .str [] false) := by
      simp [start, quotationMark, quoteMark]
    cases closed with
    | true =>
      simp only [spelling, if_true, List.cons_append, List.append_assoc, List.nil_append]
      rw [scanFrom, step, hs, List.nil_append, scanFrom_str rest [] hx]
      rfl
    | false =>
      have hr : rest = [] := hrest
      subst hr
      have hraw : scanFrom mode (.str [] false) raw = [.str raw false] :=
        scanFrom_str_unclosed [] hx
      simp [spelling, scanFrom, step, hs, hraw, Pending.flush]
  | comment text =>
    obtain ⟨rfl, hn⟩ := hx
    have hs : start .source commentMark = ([], .comment []) := by
      simp [start, commentMark, quotationMark, quoteMark]
    rw [spelling, List.cons_append, scanFrom, step, hs, List.nil_append,
      scanFrom_comment [] hn hrest]
    rfl

/-- What is not a word starts with a character that ends words. -/
theorem head?_spelling_of_not_word {mode : Mode} {x : Lexeme} (hx : x.WellSpelled mode)
    (hw : ∀ text, x ≠ word text) : ∃ c cs, x.spelling = c :: cs ∧ isWordChar mode c = false := by
  cases x with
  | opening b => cases b <;> exact ⟨_, _, rfl, rfl⟩
  | closing b => cases b <;> exact ⟨_, _, rfl, rfl⟩
  | quote => exact ⟨_, _, rfl, rfl⟩
  | word text => exact absurd rfl (hw text)
  | space c =>
    have hc : isBlank c = true := hx
    exact ⟨c, [], rfl, by simp [isWordChar, isBreaking, hc]⟩
  | str raw closed => exact ⟨_, _, rfl, rfl⟩
  | comment text =>
    obtain ⟨rfl, -⟩ := hx
    exact ⟨_, _, rfl, rfl⟩

theorem endsBefore_of_mayPrecede {mode : Mode} {x y : Lexeme} (hy : y.WellSpelled mode)
    (h : x.MayPrecede y) (rest : List Char) : x.EndsBefore mode (y.spelling ++ rest) := by
  cases x with
  | opening | closing | quote | space => trivial
  | word text =>
    have hw : ∀ other, y ≠ word other := by
      rintro other rfl
      exact h
    obtain ⟨c, cs, he, hc⟩ := head?_spelling_of_not_word hy hw
    intro d hd
    rw [he] at hd
    cases hd
    exact hc
  | str raw closed =>
    cases closed with
    | true => trivial
    | false => exact absurd h id
  | comment text =>
    have hy : y = space '\n' := h
    subst hy
    intro d hd
    cases hd
    rfl

theorem Canonical.tail {mode : Mode} {x : Lexeme} {rest : List Lexeme}
    (h : Canonical mode (x :: rest)) : Canonical mode rest where
  spelled y hy := h.spelled y (List.mem_cons_of_mem _ hy)
  apart := List.isChain_of_isChain_cons h.apart

/-- In a canonical list every lexeme ends before the next one. -/
theorem Canonical.endsBefore {mode : Mode} {x : Lexeme} {rest : List Lexeme}
    (h : Canonical mode (x :: rest)) : x.EndsBefore mode (rest.flatMap spelling) := by
  cases rest with
  | nil => cases x with
    | word | comment => simp [EndsBefore]
    | str raw closed => cases closed <;> simp [EndsBefore]
    | opening | closing | quote | space => trivial
  | cons y rest =>
    exact endsBefore_of_mayPrecede (h.spelled y (by simp)) (List.rel_of_isChain_cons_cons h.apart) _

/-- **A canonical list, spelled out and scanned, is itself again.** -/
theorem scanFrom_flatMap_spelling {mode : Mode} {xs : List Lexeme} (h : Canonical mode xs) :
    scanFrom mode .idle (xs.flatMap spelling) = xs := by
  induction xs with
  | nil => rfl
  | cons x rest ih =>
    rw [List.flatMap_cons, scanFrom_spelling_append (h.spelled x List.mem_cons_self) h.endsBefore,
      ih h.tail]

theorem scan_ofList {mode : Mode} {xs : List Lexeme} (h : Canonical mode xs) :
    scan mode (String.ofList (xs.flatMap spelling)) = xs := by
  rw [scan, String.toList_ofList, scanFrom_flatMap_spelling h]

/-! ## Scanning gives canonical lists -/

/-- Whether a pending lexeme is spelled as the scanner spells it, as far as it goes. -/
def Pending.WellSpelled (mode : Mode) : Pending → Prop
  | idle => True
  | word reversed => reversed ≠ [] ∧ ∀ c ∈ reversed, isWordChar mode c = true
  | str reversed escaped => stringState false reversed.reverse = some escaped
  | comment reversed => mode = .source ∧ '\n' ∉ reversed

/-- Whether a lexeme is one character that stands for itself. -/
def IsSingle : Lexeme → Prop
  | opening _ | closing _ | quote | space _ => True
  | _ => False

/-- What the scanner can start on with a character. -/
inductive Started (mode : Mode) (c : Char) : List Lexeme × Pending → Prop
  | single {x : Lexeme} : x.IsSingle → x.WellSpelled mode → Started mode c ([x], .idle)
  | word : isWordChar mode c = true → Started mode c ([], .word [c])
  | str : Started mode c ([], .str [] false)
  | comment : mode = .source → Started mode c ([], .comment [])

theorem started (mode : Mode) (c : Char) : Started mode c (start mode c) := by
  unfold start
  split
  · exact .single trivial trivial
  split
  · exact .single trivial trivial
  split
  · exact .single trivial trivial
  split
  · exact .single trivial trivial
  split
  · exact .single trivial trivial
  split
  · exact .str
  split
  next h => exact .comment h.1
  split
  next h => exact .single trivial h
  next h1 h2 h3 h4 h5 h6 h7 h8 =>
    refine .word ?_
    simp only [Bool.not_eq_true] at h8
    have h7 : (mode == .source && c == commentMark) = false := by
      rw [Bool.eq_false_iff]
      simpa using h7
    simp [isWordChar, isBreaking, h1, h2, h3, h4, h5, h6, h7, h8]

theorem wellSpelled_start (mode : Mode) (c : Char) :
    (∀ x ∈ (start mode c).1, x.WellSpelled mode) ∧ (start mode c).2.WellSpelled mode := by
  have hs := started mode c
  generalize start mode c = result at hs
  cases hs with
  | single _ hx => exact ⟨by simpa using hx, trivial⟩
  | word hc => exact ⟨by simp, by simpa [Pending.WellSpelled] using hc⟩
  | str => exact ⟨by simp, rfl⟩
  | comment hm => exact ⟨by simp, hm, by simp⟩

theorem wellSpelled_endWith {mode : Mode} {done : Lexeme} (hd : done.WellSpelled mode) (c : Char) :
    (∀ x ∈ (endWith mode done c).1, x.WellSpelled mode) ∧
      (endWith mode done c).2.WellSpelled mode :=
  ⟨List.forall_mem_cons.mpr ⟨hd, (wellSpelled_start mode c).1⟩, (wellSpelled_start mode c).2⟩

/-- Reading one character completes lexemes as the scanner spells them, and no others. -/
theorem wellSpelled_step {mode : Mode} {p : Pending} (hp : p.WellSpelled mode) (c : Char) :
    (∀ x ∈ (step mode p c).1, x.WellSpelled mode) ∧ (step mode p c).2.WellSpelled mode := by
  cases p with
  | idle => exact wellSpelled_start mode c
  | word reversed =>
    rw [step]
    split
    next hc =>
      refine ⟨by simp, by simp, fun d hd => ?_⟩
      rcases List.mem_cons.mp hd with rfl | hd
      · exact hc
      · exact hp.2 d hd
    · have hword : (Lexeme.word reversed.reverse).WellSpelled mode :=
        ⟨by simpa using hp.1, fun d hd => hp.2 d (List.mem_reverse.mp hd)⟩
      exact wellSpelled_endWith hword c
  | str reversed escaped =>
    have hr : stringState false reversed.reverse = some escaped := hp
    cases escaped with
    | true => exact ⟨by simp [step], by simp [step, Pending.WellSpelled, stringState_append, hr,
        stringState]⟩
    | false =>
      rw [step]
      split
      · refine ⟨fun x hx => ?_, trivial⟩
        rw [List.mem_singleton.mp hx]
        exact hp
      next hc =>
        exact ⟨by simp, by simp [Pending.WellSpelled, stringState_append, hr, stringState, hc]⟩
  | comment reversed =>
    rw [step]
    split
    · have hcomment : (Lexeme.comment reversed.reverse).WellSpelled mode :=
        ⟨hp.1, by simpa using hp.2⟩
      exact wellSpelled_endWith hcomment c
    next hc =>
      refine ⟨by simp, hp.1, fun hm => ?_⟩
      rcases List.mem_cons.mp hm with h | h
      · exact hc h.symm
      · exact hp.2 h

theorem wellSpelled_scanFrom {mode : Mode} {p : Pending} (hp : p.WellSpelled mode)
    (cs : List Char) : ∀ x ∈ scanFrom mode p cs, x.WellSpelled mode := by
  induction cs generalizing p with
  | nil =>
    intro x hx
    cases p with
    | idle => simp [scanFrom, Pending.flush] at hx
    | word reversed =>
      rw [List.mem_singleton.mp hx]
      exact ⟨by simpa using hp.1, fun d hd => hp.2 d (List.mem_reverse.mp hd)⟩
    | str reversed escaped =>
      rw [List.mem_singleton.mp hx]
      exact Option.isSome_iff_exists.mpr ⟨escaped, hp⟩
    | comment reversed =>
      rw [List.mem_singleton.mp hx]
      exact ⟨hp.1, by simpa using hp.2⟩
  | cons c rest ih =>
    intro x hx
    rcases List.mem_append.mp hx with hx | hx
    · exact (wellSpelled_step hp c).1 x hx
    · exact ih (wellSpelled_step hp c).2 x hx

/-- Whether a lexeme keeps apart from anything after it. -/
def IsFree : Lexeme → Prop
  | word _ | comment _ | str _ false => False
  | _ => True

theorem IsSingle.isFree {x : Lexeme} (h : x.IsSingle) : x.IsFree := by
  cases x with
  | opening | closing | quote | space => trivial
  | word | str | comment => exact absurd h id

theorem IsFree.mayPrecede {x : Lexeme} (h : x.IsFree) (y : Lexeme) : x.MayPrecede y := by
  cases x with
  | opening | closing | quote | space => trivial
  | word | comment => exact absurd h id
  | str raw closed =>
    cases closed with
    | true => trivial
    | false => exact absurd h id

theorem isChain_cons_of_free {p : Lexeme} (hp : p.IsFree) {xs : List Lexeme}
    (h : xs.IsChain MayPrecede) : (p :: xs).IsChain MayPrecede := by
  cases xs with
  | nil => exact List.isChain_singleton p
  | cons x rest => exact List.isChain_cons_cons.mpr ⟨hp.mayPrecede x, h⟩

/-- What is not a word itself may stand directly behind one. -/
theorem mayPrecede_of_free_or_word {x y : Lexeme} (h : x.IsFree ∨ ∃ text, x = word text)
    (hy : ∀ text, y ≠ word text) : x.MayPrecede y := by
  rcases h with h | ⟨text, rfl⟩
  · exact h.mayPrecede y
  · cases y with
    | word text => exact absurd rfl (hy text)
    | _ => trivial

/-- Whether a lexeme that has just ended keeps apart from what is pending after it. -/
def MayPrecedePending (x : Lexeme) : Pending → Prop
  | .idle | .word _ => x.IsFree
  | .str .. | .comment _ => x.IsFree ∨ ∃ text, x = word text

theorem IsFree.mayPrecedePending {x : Lexeme} (h : x.IsFree) (p : Pending) :
    x.MayPrecedePending p := by
  cases p with
  | idle | word => exact h
  | str | comment => exact Or.inl h

/-- Whether a character can start what follows a lexeme. -/
def MayPrecedeChar (mode : Mode) (c : Char) (x : Lexeme) : Prop :=
  x.IsFree ∨ ((∃ text, x = word text) ∧ isWordChar mode c = false) ∨
    (∃ text, x = comment text) ∧ c = '\n'

/-- A character that is read where no lexeme is pending keeps the lexemes apart. -/
theorem isChain_scanFrom_idle_cons {mode : Mode} {previous : Lexeme} {c : Char} {rest : List Char}
    (hc : previous.MayPrecedeChar mode c)
    (ih : ∀ (x : Lexeme) (p : Pending), x.MayPrecedePending p → p.WellSpelled mode →
      (x :: scanFrom mode p rest).IsChain MayPrecede) :
    (previous :: scanFrom mode .idle (c :: rest)).IsChain MayPrecede := by
  have hs := started mode c
  rw [scanFrom, step]
  rcases hc with hfree | ⟨⟨text, rfl⟩, hc⟩ | ⟨⟨text, rfl⟩, rfl⟩
  · generalize start mode c = result at hs
    cases hs with
    | single hx =>
      exact List.isChain_cons_cons.mpr
        ⟨hfree.mayPrecede _, ih _ .idle (hx.isFree.mayPrecedePending _) trivial⟩
    | word hw =>
      exact ih _ _ (hfree.mayPrecedePending _) (by simpa [Pending.WellSpelled] using hw)
    | str => exact ih _ _ (hfree.mayPrecedePending _) rfl
    | comment hm => exact ih _ _ (hfree.mayPrecedePending _) ⟨hm, by simp⟩
  · generalize start mode c = result at hs
    cases hs with
    | @single x hx hw =>
      refine List.isChain_cons_cons.mpr ⟨?_, ih x .idle (hx.isFree.mayPrecedePending _) trivial⟩
      cases x with
      | word => exact absurd hx id
      | _ => trivial
    | word hw => rw [hc] at hw; cases hw
    | str => exact ih _ _ (Or.inr ⟨text, rfl⟩) rfl
    | comment hm => exact ih _ _ (Or.inr ⟨text, rfl⟩) ⟨hm, by simp⟩
  · have he : start mode '\n' = ([space '\n'], .idle) := by cases mode <;> rfl
    rw [he]
    exact List.isChain_cons_cons.mpr ⟨rfl, ih _ _ trivial trivial⟩

/-- Whatever is pending, the lexemes of a text keep apart. -/
theorem isChain_scanFrom {mode : Mode} (cs : List Char) (previous : Lexeme) (p : Pending)
    (hprev : previous.MayPrecedePending p) (hp : p.WellSpelled mode) :
    (previous :: scanFrom mode p cs).IsChain MayPrecede := by
  induction cs generalizing previous p with
  | nil =>
    cases p with
    | idle => exact List.isChain_singleton _
    | word reversed =>
      exact List.isChain_cons_cons.mpr ⟨hprev.mayPrecede _, List.isChain_singleton _⟩
    | str | comment =>
      exact List.isChain_cons_cons.mpr
        ⟨mayPrecede_of_free_or_word hprev nofun, List.isChain_singleton _⟩
  | cons c rest ih =>
    have hstep := (wellSpelled_step hp c).2
    cases p with
    | idle => exact isChain_scanFrom_idle_cons (Or.inl hprev) ih
    | word reversed =>
      by_cases hc : isWordChar mode c = true
      · rw [scanFrom, step, if_pos hc]
        rw [step, if_pos hc] at hstep
        exact ih previous _ hprev hstep
      · have hc : isWordChar mode c = false := Bool.not_eq_true _ ▸ hc
        -- the word ends here, and the character is read as if nothing were pending
        rw [scanFrom_word_of_head? reversed fun d hd => by
          cases hd
          exact hc]
        exact List.isChain_cons_cons.mpr ⟨hprev.mayPrecede _,
          isChain_scanFrom_idle_cons (Or.inr (Or.inl ⟨⟨_, rfl⟩, hc⟩)) ih⟩
    | str reversed escaped =>
      cases escaped with
      | true => exact ih previous _ hprev hstep
      | false =>
        rw [scanFrom, step]
        rw [step] at hstep
        split
        · exact List.isChain_cons_cons.mpr
            ⟨mayPrecede_of_free_or_word hprev nofun, ih _ .idle trivial trivial⟩
        next hc =>
          rw [if_neg hc] at hstep
          exact ih previous _ hprev hstep
    | comment reversed =>
      by_cases hc : c = '\n'
      · have hw := @scanFrom_comment mode [] (c :: rest) reversed
          (by simp) (by simpa using hc)
        rw [List.nil_append, List.append_nil] at hw
        rw [hw]
        exact List.isChain_cons_cons.mpr ⟨mayPrecede_of_free_or_word hprev nofun,
          isChain_scanFrom_idle_cons (Or.inr (Or.inr ⟨⟨_, rfl⟩, hc⟩)) ih⟩
      · rw [scanFrom, step, if_neg hc]
        rw [step, if_neg hc] at hstep
        exact ih previous _ hprev hstep

/-- **A text is cut into a canonical list.** -/
theorem canonical_scan (mode : Mode) (text : String) : Canonical mode (scan mode text) where
  spelled := wellSpelled_scanFrom (p := .idle) trivial text.toList
  apart := List.isChain_of_isChain_cons
    (isChain_scanFrom text.toList quote .idle trivial trivial)

/-! ## With and without comments -/

/-- Where no word has a semicolon in it, it makes no difference that it opens comments. -/
theorem Canonical.to_source {xs : List Lexeme} (h : Canonical .engine xs)
    (hw : ∀ text, word text ∈ xs → commentMark ∉ text) : Canonical .source xs where
  spelled x hx := by
    have hs := h.spelled x hx
    cases x with
    | word text =>
      refine ⟨hs.1, fun c hc => ?_⟩
      have hbreaking : isWordChar .engine c = true := hs.2 c hc
      have hne : c ≠ commentMark := by
        rintro rfl
        exact hw text hx hc
      simp [isWordChar] at hbreaking ⊢
      exact ⟨hbreaking, hne⟩
    | comment text => cases hs.1
    | str raw closed => cases closed <;> exact hs
    | opening | closing | quote | space => exact hs
  apart := h.apart

/-- What can be part of a word where there are comments can be without them. -/
theorem isWordChar_engine {c : Char} (h : isWordChar .source c = true) :
    isWordChar .engine c = true := by
  simp only [isWordChar, Bool.and_eq_true] at h ⊢
  exact ⟨h.1, rfl⟩

theorem WellSpelled.to_engine {x : Lexeme} (h : x.WellSpelled .source)
    (hx : ∀ text, x ≠ comment text) : x.WellSpelled .engine := by
  cases x with
  | word text => exact ⟨h.1, fun c hc => isWordChar_engine (h.2 c hc)⟩
  | comment text => exact absurd rfl (hx text)
  | str raw closed => cases closed <;> exact h
  | opening | closing | quote | space => exact h

/-- What is not a word ends in the same places without comments. -/
theorem EndsBefore.to_engine {x : Lexeme} {rest : List Char} (h : x.EndsBefore .source rest)
    (hx : ∀ text, x ≠ word text) : x.EndsBefore .engine rest := by
  cases x with
  | word text => exact absurd rfl (hx text)
  | str raw closed => cases closed <;> exact h
  | comment | opening | closing | quote | space => exact h

/-- What has no comments in it reads the same where there are none. -/
theorem Canonical.to_engine {xs : List Lexeme} (h : Canonical .source xs)
    (hc : ∀ text, comment text ∉ xs) : Canonical .engine xs where
  spelled x hx := (h.spelled x hx).to_engine fun text hcomment => hc text (hcomment ▸ hx)
  apart := h.apart

end ExactLisp.Lexeme
