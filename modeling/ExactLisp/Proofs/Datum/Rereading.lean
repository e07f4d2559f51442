import ExactLisp.Proofs.Binary64.Range
import ExactLisp.Proofs.Datum.Printing

/-!
# What was read, read again

The reader never gives an exact decimal or NaN, and every symbol that it gives is a word
that stands for that symbol. So what it gives is printed as lexemes that the scanner cuts
the text into again (`Printable`). They derive the same datum but for one thing: a numeral
past the largest float is read as infinity, which is printed as a name.

A datum that was read is therefore read back exactly if no float in it is infinite and it
nests no deeper than the limit (`read_text_iff`). The limit is not met by all that was
read, as it holds for each form at the top level, and the sequence that several of them
become is one level deeper.

That infinity is never read back takes a count: the names among some lexemes are as many as
the symbols of what they derive (`countP_isName_of_derives`), while those that a datum is
printed as are its symbols and the infinite floats in it.
-/

namespace ExactLisp

namespace Binary64

/-- A text is never read as NaN. -/
theorem finite_or_infinity_of_parse? {w : List Char} {x : Float} (h : parse? w = some x) :
    isFinite x = true ∨ ∃ negative, x = infinity negative := by
  have hmagnitude : ∀ {negative cs}, magnitude? negative cs = some x →
      isFinite x = true ∨ ∃ negative, x = infinity negative := by
    intro negative cs hx
    simp only [magnitude?, Option.ite_none_left_eq_some, Option.map_eq_some_iff] at hx
    obtain ⟨-, e, -, rfl⟩ := hx
    exact (ofDecimal_finite_or_infinity ..).imp_right fun hi => ⟨negative, hi⟩
  unfold parse? at h
  split at h <;> exact hmagnitude h

end Binary64

/-! ## Counting -/

/-- Whether a literal is anything but an infinite float or NaN. -/
def Literal.isFinite : Literal → Bool
  | number (.float x) => Binary64.isFinite x
  | _ => true

namespace Datum

/-- Whether a datum is a symbol. -/
def isSymbol : Datum → Bool
  | symbol _ => true
  | _ => false

/-- Whether a datum is an infinite float, or NaN. -/
def isNonfinite : Datum → Bool
  | literal l => !l.isFinite
  | _ => false

mutual

/-- How many symbols and literals of a datum pass a test. -/
def count (test : Datum → Bool) : Datum → Nat
  | list items => countAll test items
  | array elements => elements.countP fun l => test (.literal l)
  | d => if test d then 1 else 0

/-- How many symbols and literals of some data pass a test. -/
def countAll (test : Datum → Bool) : List Datum → Nat
  | [] => 0
  | d :: rest => count test d + countAll test rest

end

end Datum

/-- Whether a lexeme stands for a symbol. -/
def Lexeme.isName : Lexeme → Bool
  | word w => (Datum.ofWord w).isSymbol
  | quote => true
  | _ => false

namespace Datum

open Lexeme (isName WellSpelled)

/-- A word denotes a number, a reserved name, or itself. -/
theorem ofWord_cases (w : List Char) :
    (∃ n, numberOfWord? w = some n ∧ ofWord w = .literal (.number n)) ∨
      (ofWord w = .literal .null ∨ ∃ b, ofWord w = .literal (.bool b)) ∨
      ofWord w = .symbol (String.ofList w) := by
  unfold ofWord
  split
  next n hn => exact Or.inl ⟨n, hn, rfl⟩
  · refine Or.inr ?_
    split
    · exact Or.inl (Or.inl rfl)
    · split
      · exact Or.inl (Or.inr ⟨true, rfl⟩)
      · split
        · exact Or.inl (Or.inr ⟨false, rfl⟩)
        · exact Or.inr rfl

theorem count_ofWord (w : List Char) :
    count isSymbol (ofWord w) = if isName (.word w) then 1 else 0 := by
  rcases ofWord_cases w with ⟨n, -, hw⟩ | (hw | ⟨b, hw⟩) | hw <;>
    rw [isName, hw] <;> rfl

theorem countP_isName_of_derivesElements {xs : List Lexeme} {ls : List Literal}
    (h : DerivesElements xs ls) : xs.countP isName = 0 := by
  match h with
  | .nil => rfl
  | .str raw hs =>
    rw [List.countP_cons_of_neg (by simp [isName]), countP_isName_of_derivesElements hs]
  | .word hw hs =>
    rw [List.countP_cons_of_neg (by simp [isName, hw, isSymbol]),
      countP_isName_of_derivesElements hs]

mutual

/-- **The names among some lexemes are the symbols of what they derive.** -/
theorem countP_isName_of_derives {xs : List Lexeme} {d : Datum} (h : Derives xs d) :
    xs.countP isName = count isSymbol d := by
  match h with
  | .word w =>
    rw [count_ofWord, List.countP_singleton]
  | .str raw => rfl
  | .quoted hd =>
    have ih := countP_isName_of_derives hd
    rw [List.countP_cons_of_pos rfl, ih]
    exact Nat.add_comm ..
  | .list hs =>
    have ih := countP_isName_of_derivesAll hs
    rw [List.countP_cons_of_neg (by simp [isName]), List.countP_append, ih]
    rfl
  | .array hs =>
    have ih := countP_isName_of_derivesElements hs
    rw [List.countP_cons_of_neg (by simp [isName]), List.countP_append, ih, count]
    simp [isName, isSymbol]

theorem countP_isName_of_derivesAll {xs : List Lexeme} {ds : List Datum} (h : DerivesAll xs ds) :
    xs.countP isName = countAll isSymbol ds := by
  match h with
  | .nil => rfl
  | .cons hd hs =>
    rw [List.countP_append, countP_isName_of_derives hd, countP_isName_of_derivesAll hs, countAll]

end

mutual

/-- Equal data have as many symbols. -/
theorem count_isSymbol_of_beq : ∀ {a b : Datum}, Datum.beq a b = true →
    count isSymbol a = count isSymbol b
  | .symbol _, .symbol _, _ => rfl
  | .literal _, .literal _, _ => rfl
  | .list as, .list bs, h => countAll_isSymbol_of_beqAll h
  | .array as, .array bs, _ => by simp [count, isSymbol]

theorem countAll_isSymbol_of_beqAll : ∀ {as bs : List Datum}, Datum.beqAll as bs = true →
    countAll isSymbol as = countAll isSymbol bs
  | [], [], _ => rfl
  | a :: as, b :: bs, h => by
    rw [Datum.beqAll, Bool.and_eq_true] at h
    rw [countAll, countAll, count_isSymbol_of_beq h.1, countAll_isSymbol_of_beqAll h.2]

end

/-! ## What the reader gives -/

/-- What is known of a literal that was read. -/
structure PrintableLiteral (l : Literal) : Prop where
  spelled : l.lexeme.WellSpelled .engine
  /-- It is printed as a name if it is infinite. -/
  names : isName l.lexeme = !l.isFinite
  readable : l.isFinite = true → l.Readable

/-- What is known of a datum that was read. -/
structure Printable (d : Datum) : Prop where
  spelled : ∀ x ∈ d.lexemes, x.WellSpelled .engine
  /-- What is printed as a name is a symbol or infinite. -/
  names : d.lexemes.countP isName = count isSymbol d + count isNonfinite d
  readable : count isNonfinite d = 0 → d.Readable

/-- What is known of some data that were read. -/
structure PrintableAll (ds : List Datum) : Prop where
  spelled : ∀ xs ∈ lexemesAll ds, ∀ x ∈ xs, x.WellSpelled .engine
  names : ((lexemesAll ds).map fun xs => xs.countP isName).sum =
    countAll isSymbol ds + countAll isNonfinite ds
  readable : countAll isNonfinite ds = 0 → AllReadable ds

/-- A literal that is read back was printed well. -/
theorem printableLiteral_of_readable {l : Literal} (h : l.Readable) : PrintableLiteral l := by
  obtain ⟨hspelled, -, hderives⟩ := lexeme_literal h
  refine ⟨hspelled, ?_, fun _ => h⟩
  have hcount := countP_isName_of_derives hderives
  have hname : isName l.lexeme = false := by
    cases hn : isName l.lexeme with
    | false => rfl
    | true =>
      rw [List.countP_singleton, hn] at hcount
      cases hcount
  rw [hname]
  cases l with
  | number n =>
    cases n with
    | float x =>
      have hx : Binary64.isFinite x = true := h
      simp [Literal.isFinite, hx]
    | int | big => rfl
  | null | bool | str => rfl

/-- Infinity is printed as a name. -/
theorem printableLiteral_infinity (negative : Bool) :
    PrintableLiteral (.number (.float (Binary64.infinity negative))) where
  spelled := by
    refine ⟨?_, List.all_eq_true.mp ?_⟩ <;> cases negative <;> decide
  names := by cases negative <;> decide
  readable h := by cases negative <;> exact absurd h (by decide)

theorem printableLiteral_of_ofWord {w : List Char} {l : Literal} (h : ofWord w = .literal l) :
    PrintableLiteral l := by
  rcases ofWord_cases w with ⟨n, hn, hw⟩ | (hw | ⟨b, hw⟩) | hw
  · rw [hw] at h
    cases h
    unfold numberOfWord? at hn
    split at hn
    · cases hn
      exact printableLiteral_of_readable trivial
    · split at hn
      · obtain ⟨x, hx, rfl⟩ := Option.map_eq_some_iff.mp hn
        rcases Binary64.finite_or_infinity_of_parse? hx with hfinite | ⟨negative, rfl⟩
        · exact printableLiteral_of_readable hfinite
        · exact printableLiteral_infinity negative
      · cases hn
  · rw [hw] at h
    cases h
    exact printableLiteral_of_readable trivial
  · rw [hw] at h
    cases h
    exact printableLiteral_of_readable trivial
  · rw [hw] at h
    cases h

theorem Printable.symbol {name : String} (h : IsSymbolName name) : Printable (.symbol name) where
  spelled := wellSpelled_lexemes (d := .symbol name) h
  names := by
    have hname : isName (.word name.toList) = true := by rw [isName, h.symbol]; rfl
    simp [lexemes, hname, count, isSymbol, isNonfinite]
  readable _ := h

theorem Printable.literal {l : Literal} (h : PrintableLiteral l) : Printable (.literal l) where
  spelled := List.forall_mem_singleton.mpr h.spelled
  names := by
    rw [lexemes, List.countP_singleton, h.names]
    simp [count, isSymbol, isNonfinite]
  readable hn := h.readable (by simpa [count, isNonfinite] using hn)

theorem countP_spacedLexemes (xss : List (List Lexeme)) :
    (spacedLexemes xss).countP isName = (xss.map fun xs => xs.countP isName).sum := by
  match xss with
  | [] => rfl
  | [xs] => simp [spacedLexemes]
  | xs :: ys :: rest =>
    have ih := countP_spacedLexemes (ys :: rest)
    have hspace : isName (.space ' ') = false := rfl
    rw [spacedLexemes, List.countP_append, List.countP_cons_of_neg (by simp [hspace]), ih]
    · rfl
    · simp

theorem countP_group (xss : List (List Lexeme)) (b : Bracket) :
    (Lexeme.opening b :: (spacedLexemes xss ++ [.closing b])).countP isName =
      (xss.map fun xs => xs.countP isName).sum := by
  rw [List.countP_cons_of_neg (by simp [isName]), List.countP_append, countP_spacedLexemes]
  rfl

theorem Printable.list {items : List Datum} (h : PrintableAll items) : Printable (.list items) where
  spelled := wellSpelled_group .round h.spelled
  names := by
    rw [lexemes, countP_group, h.names]
    rfl
  readable := h.readable

theorem Printable.array {ls : List Literal} (h : ∀ l ∈ ls, PrintableLiteral l) :
    Printable (.array ls) where
  spelled := by
    refine wellSpelled_group .square fun xs hxs => ?_
    obtain ⟨l, hl, rfl⟩ := List.mem_map.mp hxs
    exact List.forall_mem_singleton.mpr (h l hl).spelled
  names := by
    have hcount : ∀ ms : List Literal, (∀ l ∈ ms, PrintableLiteral l) →
        ((ms.map fun l => [l.lexeme]).map fun xs => xs.countP isName).sum =
          ms.countP fun l => !l.isFinite := by
      intro ms hms
      induction ms with
      | nil => rfl
      | cons l rest ih =>
        obtain ⟨hl, hrest⟩ := List.forall_mem_cons.mp hms
        rw [List.map_cons, List.map_cons, List.sum_cons, ih hrest, List.countP_singleton, hl.names,
          List.countP_cons, Nat.add_comm]
    rw [lexemes, countP_group, hcount ls h]
    simp [count, isSymbol, isNonfinite]
  readable hn l hl := by
    refine (h l hl).readable ?_
    simpa [isNonfinite] using List.countP_eq_zero.mp hn l hl

theorem PrintableAll.nil : PrintableAll [] := ⟨by simp [lexemesAll], rfl, fun _ => trivial⟩

theorem PrintableAll.cons {d : Datum} {ds : List Datum} (h : Printable d) (hs : PrintableAll ds) :
    PrintableAll (d :: ds) where
  spelled := List.forall_mem_cons.mpr ⟨h.spelled, hs.spelled⟩
  names := by
    have hnames := hs.names
    simp only [lexemesAll, List.map_cons, List.sum_cons, h.names, hnames, countAll]
    omega
  readable hn := by
    rw [countAll, Nat.add_eq_zero_iff] at hn
    exact ⟨h.readable hn.1, hs.readable hn.2⟩

theorem PrintableAll.of_forall {ds : List Datum} (h : ∀ d ∈ ds, Printable d) : PrintableAll ds := by
  induction ds with
  | nil => exact .nil
  | cons d rest ih =>
    obtain ⟨hd, hrest⟩ := List.forall_mem_cons.mp h
    exact .cons hd (ih hrest)

theorem isSymbolName_of_all {name : String} (hne : name ≠ "")
    (hall : name.toList.all (fun c => !isBreaking c) = true)
    (hsymbol : ofWord name.toList = .symbol name) : IsSymbolName name :=
  ⟨hne, fun c hc => by simpa using List.all_eq_true.mp hall c hc, hsymbol⟩

theorem isSymbolName_quoteName : IsSymbolName quoteName :=
  isSymbolName_of_all (by decide) (by decide) rfl

theorem isSymbolName_sequenceName : IsSymbolName sequenceName :=
  isSymbolName_of_all (by decide) (by decide) rfl

theorem printable_of_derivesElements {xs : List Lexeme} {ls : List Literal}
    (h : DerivesElements xs ls) : ∀ l ∈ ls, PrintableLiteral l := by
  match h with
  | .nil => simp
  | .str raw hs =>
    exact List.forall_mem_cons.mpr
      ⟨printableLiteral_of_readable trivial, printable_of_derivesElements hs⟩
  | .word hw hs =>
    exact List.forall_mem_cons.mpr
      ⟨printableLiteral_of_ofWord hw, printable_of_derivesElements hs⟩

theorem printable_ofWord {w : List Char} (hw : WellSpelled .engine (.word w)) :
    Printable (ofWord w) := by
  rcases ofWord_cases w with ⟨n, -, h⟩ | (h | ⟨b, h⟩) | h
  · exact h ▸ .literal (printableLiteral_of_ofWord h)
  · exact h ▸ .literal (printableLiteral_of_ofWord h)
  · exact h ▸ .literal (printableLiteral_of_ofWord h)
  · obtain ⟨hne, hchars⟩ : w ≠ [] ∧ ∀ c ∈ w, isWordChar .engine c = true := hw
    rw [h]
    refine .symbol ⟨?_, fun c hc => ?_, ?_⟩
    · exact fun he => hne (String.ofList_eq_empty_iff.mp he)
    · rw [String.toList_ofList] at hc
      have := hchars c hc
      simp only [isWordChar, Bool.and_eq_true, Bool.not_eq_true'] at this
      exact this.1
    · rw [String.toList_ofList, h]

mutual

/-- **What well-spelled lexemes derive is printed well.** -/
theorem printable_of_derives {xs : List Lexeme} {d : Datum} (h : Derives xs d)
    (hx : ∀ x ∈ xs, x.WellSpelled .engine) : Printable d := by
  match h with
  | .word w => exact printable_ofWord (hx _ List.mem_cons_self)
  | .str raw => exact .literal (printableLiteral_of_readable trivial)
  | .quoted hd =>
    have hinner := printable_of_derives hd (List.forall_mem_of_forall_mem_cons hx)
    exact .list (.cons (.symbol isSymbolName_quoteName) (.cons hinner .nil))
  | .list hs =>
    have hinside := (List.forall_mem_append.mp (List.forall_mem_of_forall_mem_cons hx)).1
    exact .list (.of_forall (printable_of_derivesAll hs hinside))
  | .array hs => exact .array (printable_of_derivesElements hs)

theorem printable_of_derivesAll {xs : List Lexeme} {ds : List Datum} (h : DerivesAll xs ds)
    (hx : ∀ x ∈ xs, x.WellSpelled .engine) : ∀ d ∈ ds, Printable d := by
  match h with
  | .nil => simp
  | .cons hd hs =>
    obtain ⟨hxs, hys⟩ := List.forall_mem_append.mp hx
    exact List.forall_mem_cons.mpr
      ⟨printable_of_derives hd hxs, printable_of_derivesAll hs hys⟩

end

/-! ## Texts -/

theorem wellSpelled_code (text : String) : ∀ x ∈ Lexeme.code text, x.WellSpelled .engine :=
  fun x hx => (Lexeme.canonical_scan .engine text).spelled x (List.mem_of_mem_filter hx)

/-- The sequence of some forms is printed well if each of them is. -/
theorem printable_ofForms {ds : List Datum} (h : ∀ d ∈ ds, Printable d) :
    Printable (ofForms ds) := by
  have hsequence : ∀ es : List Datum, (∀ d ∈ es, Printable d) →
      Printable (.list (.symbol sequenceName :: es)) :=
    fun es hes => .list (.cons (.symbol isSymbolName_sequenceName) (.of_forall hes))
  match ds with
  | [] => exact hsequence [] h
  | [d] => exact h d (List.mem_singleton_self d)
  | d :: e :: rest => exact hsequence (d :: e :: rest) h

/-- What a text is read as is printed well. -/
theorem printable_of_readWithin {limit : Nat} {text : String} {d : Datum}
    (h : readWithin limit text = .ok d) : Printable d := by
  obtain ⟨forms, hforms, rfl⟩ := readWithin_eq_ok.mp h
  obtain ⟨-, hall, -⟩ := readForms_eq_ok_iff.mp hforms
  exact printable_ofForms (printable_of_derivesAll hall (wellSpelled_code text))

/-- A readable literal equals itself. -/
theorem literal_beq_self {l : Literal} (h : l.Readable) : (l == l) = true := by
  cases l with
  | null => rfl
  | bool b => exact beq_self_eq_true b
  | str s => exact beq_self_eq_true s
  | number n =>
    cases n with
    | int n => exact beq_self_eq_true n
    | float x => exact Binary64.beq_self h
    | big d => exact absurd h id

theorem literals_beq_self {ls : List Literal} (h : ∀ l ∈ ls, l.Readable) : (ls == ls) = true := by
  induction ls with
  | nil => rfl
  | cons l rest ih =>
    obtain ⟨hl, hrest⟩ := List.forall_mem_cons.mp h
    rw [List.cons_beq_cons, literal_beq_self hl, ih hrest]
    rfl

mutual

/-- A readable datum equals itself. -/
theorem beq_self : ∀ {d : Datum}, d.Readable → Datum.beq d d = true
  | .symbol name, _ => beq_self_eq_true name
  | .literal _, h => literal_beq_self h
  | .list _, h => beqAll_self h
  | .array _, h => literals_beq_self h

theorem beqAll_self : ∀ {ds : List Datum}, AllReadable ds → Datum.beqAll ds ds = true
  | [], _ => rfl
  | d :: rest, h => by
    rw [Datum.beqAll, beq_self h.1, beqAll_self h.2]
    rfl

end

/-- At least the symbols of some forms are in their sequence. -/
theorem countAll_le_ofForms (ds : List Datum) :
    countAll isSymbol ds ≤ count isSymbol (ofForms ds) := by
  match ds with
  | [] => exact Nat.zero_le _
  | [d] => exact le_rfl
  | d :: e :: rest => exact Nat.le_add_left ..

/--
**What was read is read back exactly if it can be**: if no float in it is infinite and it
nests no deeper than the reader goes.
-/
theorem read_text_iff {limit : Nat} {text : String} {d : Datum} (h : readWithin limit text = .ok d) :
    (∃ e, read d.text = .ok e ∧ (e == d) = true) ↔
      count isNonfinite d = 0 ∧ d.depth ≤ defaultLimit := by
  have hd := printable_of_readWithin h
  constructor
  · rintro ⟨e, hread, heq⟩
    obtain ⟨forms, hforms, rfl⟩ := readWithin_eq_ok.mp hread
    obtain ⟨-, hall, hlimit⟩ := readForms_eq_ok_iff.mp hforms
    have hcode : Lexeme.code d.text = d.lexemes.filter fun x => !x.isSpace := by
      rw [Lexeme.code, scan_text hd.spelled]
    -- the names of the text are too many if one of them is an infinite float
    have hnames : (Lexeme.code d.text).countP isName =
        count isSymbol d + count isNonfinite d := by
      rw [hcode, List.countP_filter, ← hd.names]
      refine List.countP_congr fun x _ => ?_
      cases x <;> simp [isName, Lexeme.isSpace]
    have hfinite : count isNonfinite d = 0 := by
      have hsymbols := count_isSymbol_of_beq heq
      have hforms := countAll_le_ofForms forms
      rw [countP_isName_of_derivesAll hall] at hnames
      omega
    have hsame := hall.unique (derives_code_text (hd.readable hfinite)).all
    refine ⟨hfinite, ?_⟩
    rw [hsame] at hlimit
    exact depths_le_iff.mp hlimit d (List.mem_singleton_self d)
  · rintro ⟨hfinite, hdepth⟩
    have hreadable := hd.readable hfinite
    exact ⟨d, read_text hreadable hdepth, beq_self hreadable⟩

end Datum

end ExactLisp
