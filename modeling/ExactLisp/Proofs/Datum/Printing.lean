import ExactLisp.Proofs.Binary64.Text
import ExactLisp.Proofs.Datum.Accepting

/-!
# Printed data read back

The text of a datum is cut into its own lexemes (`scan_text`): the brackets, words and
strings that it was put together from, with one blank between neighbours. That holds
because every piece is spelled as the scanner spells it, and because two words are never
put next to each other. These lexemes derive the datum (`derives_lexemes`), and the reader
accepts what is derived.

Three kinds of data are printed as something else, and are excluded: symbols with names
that are not words, exact decimals, and floats that are not finite.
-/

namespace ExactLisp

open Lexeme (MayPrecede WellSpelled isChain_cons_of_free)

/-- Whether the name of a symbol is a word that stands for that symbol. -/
structure IsSymbolName (name : String) : Prop where
  nonempty : name ≠ ""
  unbroken : ∀ c ∈ name.toList, isBreaking c = false
  /-- It is neither a number nor reserved. -/
  symbol : Datum.ofWord name.toList = .symbol name

namespace Literal

/-- Whether a literal is printed as a word or a string that stands for it. -/
def Readable : Literal → Prop
  | number (.float x) => Binary64.isFinite x = true
  | number (.big _) => False
  | null | bool _ | number (.int _) | str _ => True

/-- The lexeme that a literal is printed as. -/
def lexeme : Literal → Lexeme
  | str s => .str (escape s.toList) true
  | l => .word l.spelling

end Literal

namespace Datum

mutual

/-- Whether a datum is made of what the reader takes. -/
def Readable : Datum → Prop
  | symbol name => IsSymbolName name
  | literal l => l.Readable
  | list items => AllReadable items
  | array elements => ∀ l ∈ elements, l.Readable

/-- Whether some data are made of what the reader takes. -/
def AllReadable : List Datum → Prop
  | [] => True
  | d :: rest => d.Readable ∧ AllReadable rest

end

/-- The lexemes of some items with a space between neighbours. -/
def spacedLexemes : List (List Lexeme) → List Lexeme
  | [] => []
  | [xs] => xs
  | xs :: rest => xs ++ .space ' ' :: spacedLexemes rest

mutual

/-- The lexemes that a datum is printed as. -/
def lexemes : Datum → List Lexeme
  | symbol name => [.word name.toList]
  | literal l => [l.lexeme]
  | list items => .opening .round :: (spacedLexemes (lexemesAll items) ++ [.closing .round])
  | array elements =>
    .opening .square :: (spacedLexemes (elements.map fun l => [l.lexeme]) ++ [.closing .square])

/-- The lexemes that each of some data is printed as. -/
def lexemesAll : List Datum → List (List Lexeme)
  | [] => []
  | d :: rest => d.lexemes :: lexemesAll rest

end

/-! ## Spelling -/

theorem flatMap_spelling_spacedLexemes (xss : List (List Lexeme)) :
    (spacedLexemes xss).flatMap Lexeme.spelling =
      spaced (xss.map fun xs => xs.flatMap Lexeme.spelling) := by
  match xss with
  | [] => rfl
  | [xs] => rfl
  | xs :: ys :: rest =>
    have ih := flatMap_spelling_spacedLexemes (ys :: rest)
    rw [spacedLexemes, List.flatMap_append, List.flatMap_cons, ih]
    · rfl
    · simp

theorem spelling_literalLexeme (l : Literal) : l.lexeme.spelling = l.spelling := by
  cases l with
  | str s => simp [Literal.lexeme, Lexeme.spelling, Literal.spelling, quoted]
  | _ => rfl

mutual

/-- The lexemes of a datum, put together, are its text. -/
theorem flatMap_spelling_lexemes : ∀ d : Datum,
    d.lexemes.flatMap Lexeme.spelling = d.spelling
  | symbol name => by simp [lexemes, Lexeme.spelling, spelling]
  | literal l => by simp [lexemes, spelling, spelling_literalLexeme]
  | list items => by
    have hitems := map_spelling_lexemesAll items
    simp only [lexemes, List.flatMap_cons, List.flatMap_append, flatMap_spelling_spacedLexemes,
      hitems, spelling]
    rfl
  | array elements => by
    have helements : (elements.map fun l => [l.lexeme]).map
        (fun xs => xs.flatMap Lexeme.spelling) = elements.map Literal.spelling := by
      simp [spelling_literalLexeme]
    simp only [lexemes, List.flatMap_cons, List.flatMap_append, flatMap_spelling_spacedLexemes,
      helements, spelling]
    rfl

/-- The same for each of some data. -/
theorem map_spelling_lexemesAll : ∀ ds : List Datum,
    (lexemesAll ds).map (fun xs => xs.flatMap Lexeme.spelling) = spellings ds
  | [] => rfl
  | d :: rest => by
    rw [lexemesAll, List.map_cons, flatMap_spelling_lexemes d, map_spelling_lexemesAll rest, spellings]

end

/-! ## Pieces as the scanner spells them -/

theorem stringState_escape (cs : List Char) : Lexeme.stringState false (escape cs) = some false := by
  induction cs with
  | nil => rfl
  | cons c rest ih =>
    by_cases h : c = quotationMark ∨ c = backslash
    · have hb : backslash ≠ quotationMark := by decide
      rw [escape, if_pos h, Lexeme.stringState, if_neg hb, decide_eq_true rfl, Lexeme.stringState, ih]
    · rw [not_or] at h
      rw [escape, if_neg (by simp [h]), Lexeme.stringState, if_neg h.1, decide_eq_false h.2, ih]

theorem isWordChar_of_isDigit {c : Char} (h : c.isDigit = true) : isWordChar .engine c = true := by
  have hd : c.toNat = 48 ∨ c.toNat = 49 ∨ c.toNat = 50 ∨ c.toNat = 51 ∨ c.toNat = 52 ∨
      c.toNat = 53 ∨ c.toNat = 54 ∨ c.toNat = 55 ∨ c.toNat = 56 ∨ c.toNat = 57 := by
    simp only [Char.isDigit, Bool.and_eq_true, decide_eq_true_eq] at h
    have h1 : 48 ≤ c.toNat := h.1
    have h2 : c.toNat ≤ 57 := h.2
    omega
  have hc : c = Char.ofNat c.toNat := (Char.ofNat_toNat c).symm
  rw [hc]
  rcases hd with h | h | h | h | h | h | h | h | h | h <;> rw [h] <;> decide

/-- The text of an integer is a word. -/
theorem isWordChar_int64Text (n : Int64) :
    ∀ c ∈ (Number.int64Text n).toList, isWordChar .engine c = true := by
  intro c hc
  rw [Number.int64Text, toList_toString_int] at hc
  split at hc
  · rcases List.mem_cons.mp hc with rfl | hc
    · decide
    · exact isWordChar_of_isDigit (isDigit_toDigits _ c hc)
  · exact isWordChar_of_isDigit (isDigit_toDigits _ c hc)

/-- The text of a finite float is a word. -/
theorem isWordChar_floatText {x : Float} (h : Binary64.isFinite x = true) :
    ∀ c ∈ (Binary64.text x).toList, isWordChar .engine c = true := by
  obtain ⟨negative, cs, htext, hcs, -⟩ := Binary64.text_eq h
  have hchars : ∀ c ∈ cs, isWordChar .engine c = true := by
    intro c hc
    rcases hcs.chars c hc with hd | rfl | rfl | rfl
    · exact isWordChar_of_isDigit hd
    · decide
    · decide
    · decide
  intro c hc
  rw [htext] at hc
  cases negative with
  | true =>
    rcases List.mem_cons.mp hc with rfl | hc
    · decide
    · exact hchars c hc
  | false => exact hchars c hc

/-- A readable literal is a word or a string, and denotes itself. -/
theorem lexeme_literal {l : Literal} (h : l.Readable) :
    l.lexeme.WellSpelled .engine ∧ DerivesElements [l.lexeme] [l] ∧
      Derives [l.lexeme] (.literal l) := by
  have hword : ∀ w : List Char, l.lexeme = .word w → (∀ c ∈ w, isWordChar .engine c = true) →
      ofWord w = .literal l → l.lexeme.WellSpelled .engine ∧ DerivesElements [l.lexeme] [l] ∧
        Derives [l.lexeme] (.literal l) := by
    intro w hw hchars hof
    have hne : w ≠ [] := by
      rintro rfl
      cases hof
    rw [hw, ← hof]
    exact ⟨⟨hne, hchars⟩, .word hof .nil, .word w⟩
  cases l with
  | null => exact hword _ rfl (List.all_eq_true.mp rfl) rfl
  | bool b => cases b <;> exact hword _ rfl (List.all_eq_true.mp rfl) rfl
  | str s =>
    have hs : Literal.str (String.ofList (unescape (escape s.toList))) = .str s := by
      rw [unescape_escape, String.ofList_toList]
    refine ⟨stringState_escape s.toList, ?_, ?_⟩
    · have := DerivesElements.str (escape s.toList) .nil
      rwa [hs] at this
    · have := Derives.str (escape s.toList)
      rwa [hs] at this
  | number n =>
    cases n with
    | int n =>
      refine hword _ rfl (isWordChar_int64Text n) ?_
      have hnumber : numberOfWord? (Number.int64Text n).toList = some (.int n) := by
        rw [numberOfWord?, int64?_int64Text]
      change ofWord (Number.int64Text n).toList = _
      rw [ofWord, hnumber]
    | float x =>
      refine hword _ rfl (isWordChar_floatText h) ?_
      change ofWord (Binary64.text x).toList = _
      rw [ofWord, Binary64.numberOfWord?_text h]
    | big d => exact absurd h id

theorem wellSpelled_symbol {name : String} (h : IsSymbolName name) :
    WellSpelled .engine (.word name.toList) := by
  refine ⟨?_, fun c hc => ?_⟩
  · intro hnil
    exact h.nonempty (String.toList_eq_nil_iff.mp hnil)
  · simp [isWordChar, h.unbroken c hc]

theorem mem_spacedLexemes {xss : List (List Lexeme)} {x : Lexeme} (h : x ∈ spacedLexemes xss) :
    x = .space ' ' ∨ ∃ xs ∈ xss, x ∈ xs := by
  match xss with
  | [] => cases h
  | [xs] => exact Or.inr ⟨xs, List.mem_singleton_self xs, h⟩
  | xs :: ys :: rest =>
    rw [spacedLexemes] at h
    · rcases List.mem_append.mp h with h | h
      · exact Or.inr ⟨xs, List.mem_cons_self, h⟩
      · rcases List.mem_cons.mp h with h | h
        · exact Or.inl h
        · rcases mem_spacedLexemes h with h | ⟨zs, hz, hx⟩
          · exact Or.inl h
          · exact Or.inr ⟨zs, List.mem_cons_of_mem _ hz, hx⟩
    · simp

/-- A group is spelled well if what is in it is. -/
theorem wellSpelled_group {xss : List (List Lexeme)} (b : Bracket)
    (h : ∀ xs ∈ xss, ∀ x ∈ xs, x.WellSpelled .engine) :
    ∀ x ∈ Lexeme.opening b :: (spacedLexemes xss ++ [.closing b]), x.WellSpelled .engine := by
  refine List.forall_mem_cons.mpr ⟨trivial, List.forall_mem_append.mpr ⟨fun x hx => ?_, ?_⟩⟩
  · rcases mem_spacedLexemes hx with rfl | ⟨xs, hxs, hx⟩
    · exact isBlank_space
    · exact h xs hxs x hx
  · exact List.forall_mem_singleton.mpr trivial

mutual

/-- Every lexeme of a readable datum is spelled as the scanner spells it. -/
theorem wellSpelled_lexemes : ∀ {d : Datum}, d.Readable → ∀ x ∈ d.lexemes, x.WellSpelled .engine
  | symbol name, h, x, hx => by
    rw [List.mem_singleton.mp hx]
    exact wellSpelled_symbol h
  | literal l, h, x, hx => by
    rw [List.mem_singleton.mp hx]
    exact (lexeme_literal h).1
  | list items, h, x, hx => wellSpelled_group .round (wellSpelled_lexemesAll h) x hx
  | array elements, h, x, hx => by
    refine wellSpelled_group .square (fun xs hxs x hx => ?_) x hx
    obtain ⟨l, hl, rfl⟩ := List.mem_map.mp hxs
    rw [List.mem_singleton.mp hx]
    exact (lexeme_literal (h l hl)).1

/-- The same for each of some data. -/
theorem wellSpelled_lexemesAll : ∀ {ds : List Datum}, AllReadable ds → ∀ xs ∈ lexemesAll ds,
    ∀ x ∈ xs, x.WellSpelled .engine
  | d :: rest, h, xs, hxs, x, hx => by
    rcases List.mem_cons.mp hxs with rfl | hxs
    · exact wellSpelled_lexemes h.1 x hx
    · exact wellSpelled_lexemesAll h.2 xs hxs x hx

end

/-! ## Neighbours keep apart -/

/-- What can follow a word. -/
def NoWordFirst (rest : List Lexeme) : Prop := ∀ w, rest.head? ≠ some (.word w)

/-- Words and closed strings keep apart from anything that is not a word. -/
theorem isChain_literal (l : Literal) {rest : List Lexeme} (hr : NoWordFirst rest)
    (h : rest.IsChain MayPrecede) : (l.lexeme :: rest).IsChain MayPrecede := by
  cases rest with
  | nil => exact List.isChain_singleton _
  | cons y rest =>
    refine List.isChain_cons_cons.mpr ⟨?_, h⟩
    cases l with
    | str s => trivial
    | null | bool | number =>
      cases y with
      | word w => exact absurd rfl (hr w)
      | _ => trivial

theorem noWordFirst_space (c : Char) (rest : List Lexeme) : NoWordFirst (.space c :: rest) := by
  intro w h
  cases h

theorem noWordFirst_closing (b : Bracket) (rest : List Lexeme) :
    NoWordFirst (.closing b :: rest) := by
  intro w h
  cases h

/-- Items with blanks between them keep apart if each does from what is not a word. -/
theorem isChain_spacedLexemes {xss : List (List Lexeme)}
    (hx : ∀ xs ∈ xss, ∀ rest, NoWordFirst rest → rest.IsChain MayPrecede →
      (xs ++ rest).IsChain MayPrecede)
    {rest : List Lexeme} (hr : NoWordFirst rest) (h : rest.IsChain MayPrecede) :
    (spacedLexemes xss ++ rest).IsChain MayPrecede := by
  match xss with
  | [] => exact h
  | [xs] => exact hx xs (List.mem_singleton_self xs) rest hr h
  | xs :: ys :: others =>
    have ih := @isChain_spacedLexemes (ys :: others)
      (fun zs hz => hx zs (List.mem_cons_of_mem _ hz)) rest hr h
    have hspace := @isChain_cons_of_free (.space ' ') trivial _ ih
    have hone := hx xs List.mem_cons_self _ (noWordFirst_space ' ' _) hspace
    simpa [spacedLexemes] using hone

mutual

/-- The lexemes of a datum keep apart from one another and from what is not a word. -/
theorem isChain_lexemes : ∀ (d : Datum) (rest : List Lexeme), NoWordFirst rest →
    rest.IsChain MayPrecede → (d.lexemes ++ rest).IsChain MayPrecede
  | symbol name, rest, hr, h => by
    cases rest with
    | nil => exact List.isChain_singleton _
    | cons y rest =>
      refine List.isChain_cons_cons.mpr ⟨?_, h⟩
      cases y with
      | word w => exact absurd rfl (hr w)
      | _ => trivial
  | literal l, rest, hr, h => isChain_literal l hr h
  | list items, rest, hr, h => by
    have hclose := @isChain_cons_of_free (.closing .round) trivial _ h
    have hitems := isChain_spacedLexemes (isChain_lexemesAll items)
      (noWordFirst_closing .round rest) hclose
    simp only [lexemes, List.cons_append, List.append_assoc, List.nil_append]
    exact @isChain_cons_of_free (.opening .round) trivial _ hitems
  | array elements, rest, hr, h => by
    have hclose := @isChain_cons_of_free (.closing .square) trivial _ h
    have helements : ∀ xs ∈ elements.map fun l => [l.lexeme], ∀ rest, NoWordFirst rest →
        rest.IsChain MayPrecede → (xs ++ rest).IsChain MayPrecede := by
      intro xs hxs rest hr h
      obtain ⟨l, -, rfl⟩ := List.mem_map.mp hxs
      exact isChain_literal l hr h
    have hrow := isChain_spacedLexemes helements (noWordFirst_closing .square rest) hclose
    simp only [lexemes, List.cons_append, List.append_assoc, List.nil_append]
    exact @isChain_cons_of_free (.opening .square) trivial _ hrow

/-- The same for each of some data. -/
theorem isChain_lexemesAll : ∀ (ds : List Datum), ∀ xs ∈ lexemesAll ds, ∀ rest, NoWordFirst rest →
    rest.IsChain MayPrecede → (xs ++ rest).IsChain MayPrecede
  | d :: ds, xs, hxs, rest, hr, h => by
    rcases List.mem_cons.mp hxs with rfl | hxs
    · exact isChain_lexemes d rest hr h
    · exact isChain_lexemesAll ds xs hxs rest hr h

end

/-- Lexemes of a datum that are spelled as the scanner spells them are what it can give. -/
theorem canonical_lexemes {d : Datum} (h : ∀ x ∈ d.lexemes, x.WellSpelled .engine) :
    Lexeme.Canonical .engine d.lexemes where
  spelled := h
  apart := by
    have hchain := isChain_lexemes d [] (fun w h => by cases h) List.isChain_nil
    rwa [List.append_nil] at hchain

/-! ## The printed lexemes derive the datum -/

/-- The lexemes of some items without the spaces between them. -/
theorem filter_spacedLexemes (xss : List (List Lexeme)) :
    (spacedLexemes xss).filter (fun x => !x.isSpace) =
      xss.flatMap fun xs => xs.filter fun x => !x.isSpace := by
  match xss with
  | [] => rfl
  | [xs] => simp [spacedLexemes]
  | xs :: ys :: rest =>
    have ih := filter_spacedLexemes (ys :: rest)
    have hspace : (Lexeme.space ' ').isSpace = true := rfl
    change (xs ++ .space ' ' :: spacedLexemes (ys :: rest)).filter _ = _
    rw [List.filter_append, List.filter_cons_of_neg (by simp [hspace]), ih, ← List.flatMap_cons]

theorem isSpace_literal (l : Literal) : l.lexeme.isSpace = false := by
  cases l <;> rfl

theorem derivesElements_literals {ls : List Literal} (h : ∀ l ∈ ls, l.Readable) :
    DerivesElements (ls.map Literal.lexeme) ls := by
  induction ls with
  | nil => exact .nil
  | cons l rest ih =>
    have hone := (lexeme_literal (h l List.mem_cons_self)).2.1
    exact hone.append (ih fun m hm => h m (List.mem_cons_of_mem _ hm))

mutual

/-- The lexemes of a readable datum derive it. -/
theorem derives_lexemes : ∀ {d : Datum}, d.Readable →
    Derives (d.lexemes.filter fun x => !x.isSpace) d
  | symbol name, h => by
    have hword := Derives.word name.toList
    rw [h.symbol] at hword
    exact hword
  | literal l, h => by
    simp only [lexemes, List.filter_cons, isSpace_literal, Bool.not_false, if_true, List.filter_nil]
    exact (lexeme_literal h).2.2
  | list items, h => by
    have hitems := derivesAll_lexemes h
    rw [← filter_spacedLexemes] at hitems
    have hlist := Derives.list hitems
    rw [lexemes, List.filter_cons_of_pos rfl, List.filter_append]
    exact hlist
  | array elements, h => by
    have harray := Derives.array (derivesElements_literals h)
    have hfilter : (spacedLexemes (elements.map fun l => [l.lexeme])).filter (fun x => !x.isSpace) =
        elements.map Literal.lexeme := by
      rw [filter_spacedLexemes, List.flatMap_map, List.map_eq_flatMap]
      simp [isSpace_literal]
    rw [lexemes, List.filter_cons_of_pos rfl, List.filter_append, hfilter]
    exact harray

/-- The lexemes of some readable data derive them. -/
theorem derivesAll_lexemes : ∀ {ds : List Datum}, AllReadable ds →
    DerivesAll ((lexemesAll ds).flatMap fun xs => xs.filter fun x => !x.isSpace) ds
  | [], _ => .nil
  | d :: rest, h => by
    rw [lexemesAll, List.flatMap_cons]
    exact .cons (derives_lexemes h.1) (derivesAll_lexemes h.2)

end

/-! ## Reading the text -/

/-- **The text of a datum is cut into its own lexemes**, if the scanner spells them so. -/
theorem scan_text {d : Datum} (h : ∀ x ∈ d.lexemes, x.WellSpelled .engine) :
    Lexeme.scan .engine d.text = d.lexemes := by
  rw [text, ← flatMap_spelling_lexemes d, Lexeme.scan_ofList (canonical_lexemes h)]

/-- The same after a quote mark. -/
theorem scan_quoted_text {d : Datum} (h : ∀ x ∈ d.lexemes, x.WellSpelled .engine) :
    Lexeme.scan .engine ("'" ++ d.text) = .quote :: d.lexemes := by
  have hcanonical : Lexeme.Canonical .engine (.quote :: d.lexemes) :=
    ⟨List.forall_mem_cons.mpr ⟨trivial, (canonical_lexemes h).spelled⟩,
      @isChain_cons_of_free .quote trivial _ (canonical_lexemes h).apart⟩
  have htext : "'" ++ d.text =
      String.ofList ((.quote :: d.lexemes : List Lexeme).flatMap Lexeme.spelling) := by
    rw [List.flatMap_cons, flatMap_spelling_lexemes, String.ofList_append]
    rfl
  rw [htext, Lexeme.scan_ofList hcanonical]

/-- One form with room enough is the only one of its text. -/
theorem readForms_of_derives {limit : Nat} {text : String} {d : Datum}
    (h : Derives (Lexeme.code text) d) (hd : d.depth ≤ limit) : readForms limit text = .ok [d] :=
  readForms_eq_ok_iff.mpr ⟨List.cons_ne_nil d [], h.all, depths_le_iff.mpr (by simpa using hd)⟩

/-- One form with room enough is read as what it derives. -/
theorem read_of_derives {text : String} {d : Datum} (h : Derives (Lexeme.code text) d)
    (hd : d.depth ≤ defaultLimit) : read text = .ok d := by
  rw [read, readWithin, readForms_of_derives h hd]
  rfl

/-- The text of a readable datum derives it. -/
theorem derives_code_text {d : Datum} (h : d.Readable) : Derives (Lexeme.code d.text) d := by
  rw [Lexeme.code, scan_text (wellSpelled_lexemes h)]
  exact derives_lexemes h

/-- **A readable datum is read back from its text.** -/
theorem read_text {d : Datum} (h : d.Readable) (hd : d.depth ≤ defaultLimit) :
    read d.text = .ok d := read_of_derives (derives_code_text h) hd

/-- After a quote mark it is read as quoted. -/
theorem read_quoted_text {d : Datum} (h : d.Readable) (hd : d.depth + 1 ≤ defaultLimit) :
    read ("'" ++ d.text) = .ok (quoting d) := by
  refine read_of_derives ?_ (by rwa [depth_quoting])
  rw [Lexeme.code, scan_quoted_text (wellSpelled_lexemes h)]
  exact .quoted (derives_lexemes h)

end Datum

end ExactLisp
