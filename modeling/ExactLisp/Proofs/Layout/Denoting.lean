import ExactLisp.Proofs.Datum.Accepting
import ExactLisp.Proofs.Layout.Kept

/-!
# What the tree of a text denotes

The tree that is built for layout keeps white space and comments, and refuses nothing but
nesting; the reader keeps neither, and has a grammar. Still the tree can be read as data,
by the logical elements of its aggregates (`Token.datum?`), and for a text that the
reader accepts this gives the same datum (`datum?_ofText`).

The two meet at the row of the text. On one side the elements of an aggregate are the
forms of its row (`Row.mapM_elements`), so the tree denotes what the row does. On the
other side the lexemes of a derived form, put in front of any row, become one form with
nothing between it and the rest, which denotes the datum that is derived
(`yields_of_derivesAll`). That the white space is gone there makes no difference, because
a row is grouped in the same way with and without it (`Row.ofLexemes_filter`).
-/

namespace ExactLisp

/-- The literal that a datum is, if it is one. -/
def Datum.literal? : Datum → Option Literal
  | .literal l => some l
  | _ => none

theorem Datum.mapM_literal? (ls : List Literal) :
    (ls.map Datum.literal).mapM Datum.literal? = some ls := by
  induction ls with
  | nil => rfl
  | cons l rest ih => simp [Datum.literal?, ih]

namespace Layout

open Datum (Derives DerivesAll DerivesElements)

variable {γ δ : Type}

/-! ## Reading a tree -/

/-- What an aggregate denotes whose elements denote some data. -/
def Kind.gather : Kind → List Datum → Option Datum
  | .list, ds => some (.list ds)
  | .array, ds => (ds.mapM Datum.literal?).map .array
  | .quote, [d] => some (.quoting d)
  | .root, d :: ds => some (.ofForms (d :: ds))
  | _, _ => none

/-- The characters between the delimiters of an aggregate. -/
def innerCharacters (kind : Kind) (children : List Token) : List Char :=
  Token.allCharacters
    ((children.take (innerEnd kind children)).drop (innerStart kind children))

mutual

/--
The datum that a node denotes: a word is read as a word, a string by what is between its
marks, and any other aggregate by its logical elements.
-/
def Token.datum? : Token → Option Datum
  | .atom text _ => some (.ofWord text)
  | .aggregate kind children =>
    if kind = .str then
      some (.literal (.str (String.ofList (unescape (innerCharacters kind children)))))
    else
      ((elements kind children).mapM fun i => ((Token.readings children)[i]?).join).bind
        kind.gather

/-- The data that some nodes denote, one by one. -/
def Token.readings : List Token → List (Option Datum)
  | [] => []
  | t :: rest => t.datum? :: Token.readings rest

end

theorem Token.readings_eq (ts : List Token) : Token.readings ts = ts.map Token.datum? := by
  induction ts with
  | nil => rfl
  | cons t rest ih => rw [Token.readings, ih, List.map_cons]

/-! ## Reading a row -/

mutual

/-- The datum that a form denotes. -/
def Form.datum? : Form γ → Option Datum
  | .word w => some (.ofWord w.1)
  | .str raw true => some (.literal (.str (String.ofList (unescape raw))))
  | .group b row _ => row.data?.bind (Kind.ofBracket b).gather
  | .quoted _ form => form.datum?.map .quoting
  | .stray _ | .str _ false | .comment _ | .bareQuote _ => none

/-- The data that the elements of a row denote. -/
def Row.data? : Row γ → Option (List Datum)
  | .last _ => some []
  | .item _ form rest =>
    if form.isElement then form.datum?.bind fun d => rest.data?.map (d :: ·) else rest.data?

end

theorem Row.data?_item {gap : γ} {form : Form γ} {rest : Row γ} {d : Datum} {ds : List Datum}
    (he : form.isElement = true) (hf : form.datum? = some d) (hr : rest.data? = some ds) :
    (Row.item gap form rest).data? = some (d :: ds) := by
  rw [Row.data?, if_pos he, hf, hr]
  rfl

mutual

/-- What a form denotes does not depend on its gaps. -/
theorem Form.datum?_map (φ : γ → δ) : ∀ f : Form γ, (f.map φ).datum? = f.datum?
  | .word _ | .str _ true | .str _ false | .stray _ | .comment _ | .bareQuote _ => rfl
  | .group b row closed => by rw [Form.map, Form.datum?, Form.datum?, row.data?_map φ]
  | .quoted gap form => by rw [Form.map, Form.datum?, Form.datum?, form.datum?_map φ]

theorem Row.data?_map (φ : γ → δ) : ∀ row : Row γ, (row.map φ).data? = row.data?
  | .last _ => rfl
  | .item gap form rest => by
    rw [Row.map, Row.data?, Row.data?, Form.isElement_map, form.datum?_map φ, rest.data?_map φ]

end

/-! ## The tree of a row denotes what the row does -/

theorem Token.datum?_aggregate {kind : Kind} (h : kind ≠ .str) (children : List Token) :
    (Token.aggregate kind children).datum? =
      ((elements kind children).mapM fun i => (children[i]?).bind Token.datum?).bind
        kind.gather := by
  rw [Token.datum?, if_neg h, Token.readings_eq]
  congr 2
  funext i
  rw [List.getElem?_map]
  cases children[i]? <;> rfl

theorem Token.datum?_stringToken (raw : List Char) :
    (stringToken raw true).datum? =
      some (.literal (.str (String.ofList (unescape raw)))) := by
  have hchars : ∀ children, stringToken raw true = .aggregate .str children →
      innerCharacters .str children = raw := by
    rintro children ⟨⟩
    cases raw with
    | nil => rfl
    | cons c rest => simp [innerCharacters, innerEnd, innerStart, isClosed, Kind.closer,
        Kind.hasOpener, Token.char, Token.plain, Token.allCharacters, Token.characters]
  rw [stringToken, Token.datum?, if_pos rfl, hchars _ rfl]

/-- Whether the elements of a row, wherever it stands, denote some data. -/
def Row.Reads (row : Row Gap) (ds : List Datum) : Prop :=
  ∀ before rest : List Token,
    ((row.places Form.isElement before.length).mapM fun i =>
      ((before ++ (row.tokens ++ rest))[i]?).bind Token.datum?) = some ds

namespace Row.Reads

theorem last (gap : Gap) : (Row.last gap).Reads [] := fun _ _ => rfl

/-- The rest of a row stands behind its first form. -/
theorem behind {rest : Row Gap} {ds : List Datum} (h : rest.Reads ds) (gap : Gap)
    (form : Form Gap) (before after : List Token) :
    ((rest.places Form.isElement (before.length + gap.length + 1)).mapM fun i =>
      ((before ++ ((Row.item gap form rest).tokens ++ after))[i]?).bind Token.datum?) =
        some ds := by
  have hrest := h (before ++ gapTokens gap ++ [form.token]) after
  rw [length_append_form, ← append_tokens_item] at hrest
  exact hrest

theorem item {rest : Row Gap} {form : Form Gap} {d : Datum} {ds : List Datum}
    (he : form.isElement = true) (hf : form.token.datum? = some d) (h : rest.Reads ds)
    (gap : Gap) : (Row.item gap form rest).Reads (d :: ds) := by
  intro before after
  have hfirst : ((before ++ ((Row.item gap form rest).tokens ++ after))[
      before.length + gap.length]?).bind Token.datum? = some d := by
    rw [Row.tokens, List.append_assoc, List.cons_append, getElem?_form, Option.bind_some, hf]
  rw [places, if_pos he, List.singleton_append, List.mapM_cons, hfirst]
  dsimp only [bind, Option.bind_some]
  rw [h.behind gap form before after]
  rfl

theorem skip {rest : Row Gap} {form : Form Gap} {ds : List Datum}
    (he : form.isElement = false) (h : rest.Reads ds) (gap : Gap) :
    (Row.item gap form rest).Reads ds := by
  intro before after
  rw [places, if_neg (by simp [he]), List.nil_append, h.behind gap form before after]

/-- The elements of a group, or of the whole text, are those of its row. -/
theorem enclose {row : Row Gap} {ds : List Datum} (h : row.Reads ds) (shell : Shell)
    (hm : row.Matched shell.own) :
    ((elements shell.kind (shell.enclose row.tokens)).mapM fun i =>
      ((shell.enclose row.tokens)[i]?).bind Token.datum?) = some ds := by
  rw [elements_enclose hm, Shell.enclose, List.append_assoc]
  exact h ..

/-- The elements of a quote are those of the row after its mark. -/
theorem quote {row : Row Gap} {ds : List Datum} (h : row.Reads ds) :
    ((elements .quote (.char quoteMark :: row.tokens)).mapM fun i =>
      ((Token.char quoteMark :: row.tokens)[i]?).bind Token.datum?) = some ds := by
  have hplaces : elements .quote (.char quoteMark :: row.tokens) =
      row.places Form.isElement [Token.char quoteMark].length := by
    have hbetween := filter_zipIdx_between [.char quoteMark] row.tokens [] isElement
    rw [List.append_nil] at hbetween
    have hstart : innerStart .quote (.char quoteMark :: row.tokens) = 1 := by
      simp [innerStart, Kind.hasOpener]
    have hend : innerEnd .quote (.char quoteMark :: row.tokens) = 1 + row.tokens.length := by
      simp [innerEnd, hstart, isClosed, Kind.closer, Nat.add_comm]
    rw [elements, innerPlaces, hstart, hend]
    refine (congrArg (List.map Prod.snd) hbetween).trans ?_
    rw [row.places_eq isElement_of_isWhitespace]
    exact congrArg (fun test => row.places test _) (funext isElement_token)
  have hrow := h [.char quoteMark] []
  rw [List.append_nil] at hrow
  rw [hplaces]
  exact hrow

end Row.Reads

theorem Form.isElement_of_datum? {f : Form γ} {d : Datum} (h : f.datum? = some d) :
    f.isElement = true := by
  cases f with
  | comment text => cases h
  | word | stray | str | group | quoted | bareQuote => rfl

mutual

/-- **The node of a form denotes what the form does.** -/
theorem Form.datum?_token : ∀ (f : Form Gap) {d : Datum}, f.Matched → f.datum? = some d →
    f.token.datum? = some d
  | .word w, d, _, h => h
  | .str raw true, d, _, h => (Token.datum?_stringToken raw).trans h
  | .group b row closed, d, hm, h => by
    obtain ⟨ds, hds, hd⟩ := Option.bind_eq_some_iff.mp h
    have hrow := (row.reads_of_data? hm hds).enclose (.group b closed) hm
    have hne : Kind.ofBracket b ≠ .str := by cases b <;> simp [Kind.ofBracket]
    rw [Form.token_group, Token.datum?_aggregate hne]
    exact Option.bind_eq_some_iff.mpr ⟨ds, hrow, hd⟩
  | .quoted gap form, d, hm, h => by
    obtain ⟨e, he, rfl⟩ := Option.map_eq_some_iff.mp h
    have hform := form.datum?_token hm he
    have hrow := (Row.Reads.item (Form.isElement_of_datum? he) hform (.last []) gap).quote
    rw [Form.token, Token.datum?_aggregate (by simp)]
    exact Option.bind_eq_some_iff.mpr ⟨[e], hrow, rfl⟩
  | .str _ false, _, _, h | .stray _, _, _, h | .comment _, _, _, h | .bareQuote _, _, _, h => by
    cases h

theorem Row.reads_of_data? : ∀ (row : Row Gap) {own : Option Bracket} {ds : List Datum},
    row.Matched own → row.data? = some ds → row.Reads ds
  | .last gap, _, _, _, h => by
    cases h
    exact .last gap
  | .item gap form rest, own, ds, hm, h => by
    rw [Row.data?] at h
    split at h
    next he =>
      obtain ⟨d, hd, htail⟩ := Option.bind_eq_some_iff.mp h
      obtain ⟨es, hes, rfl⟩ := Option.map_eq_some_iff.mp htail
      exact .item he (form.datum?_token hm.1 hd) (rest.reads_of_data? hm.2.2 hes) gap
    next he =>
      exact .skip (Bool.not_eq_true _ ▸ he) (rest.reads_of_data? hm.2.2 h) gap

end

/-- The tree of a row denotes the sequence of what is in the row. -/
theorem Row.datum?_tree {row : Row Gap} {d : Datum} {ds : List Datum} (hm : row.Matched none)
    (h : row.data? = some (d :: ds)) : row.tree.datum? = some (.ofForms (d :: ds)) := by
  have hrow := (row.reads_of_data? hm h).enclose .root hm
  simp only [Shell.enclose, Shell.openerTokens, Shell.closerTokens, List.nil_append,
    List.append_nil] at hrow
  rw [Row.tree, Token.datum?_aggregate (by simp)]
  exact Option.bind_eq_some_iff.mpr ⟨d :: ds, hrow, rfl⟩

/-! ## White space makes no difference -/

/-- A row without its gaps. -/
abbrev Row.compact (row : Row (List Blank)) : Row (List Blank) := row.map fun _ => []

theorem Row.splitAt_map (φ : γ → γ) (b : Bracket) : ∀ row : Row γ,
    (row.map φ).splitAt b = ((row.splitAt b).1.map φ, (row.splitAt b).2.map (Row.map φ))
  | .last _ => rfl
  | .item gap form rest => by
    rw [Row.map, Row.splitAt, Row.splitAt, Form.isStray_map, rest.splitAt_map φ b]
    split <;> rfl

theorem Row.compact_push {x : Lexeme} (hx : x.isSpace = false) (row : Row (List Blank)) :
    (push x row).compact = push x row.compact := by
  cases x with
  | space c => cases hx
  | word w =>
    rw [push, push]
    split <;> rfl
  | closing | str | comment => rfl
  | opening b =>
    have hsplit := row.splitAt_map (fun _ => []) b
    rw [push, push, compact, hsplit]
    rcases row.splitAt b with ⟨inner, _ | rest⟩ <;> rfl
  | quote =>
    cases row with
    | last gap => rfl
    | item gap form rest =>
      have hquotable := form.isQuotable_map fun _ : List Blank => ([] : List Blank)
      have hmap : (Row.item gap form rest).compact = .item [] (form.map fun _ => []) rest.compact :=
        rfl
      rw [hmap, push, push, hquotable]
      split <;> rfl

theorem Row.compact_push_space (c : Char) (row : Row (List Blank)) :
    (push (.space c) row).compact = row.compact := by
  rw [push]
  split
  · cases row <;> rfl
  · rfl

/-- **Lexemes are grouped in the same way** with and without white space. -/
theorem Row.ofLexemes_filter (xs : List Lexeme) :
    ofLexemes (xs.filter fun x => !x.isSpace) = (ofLexemes xs).compact := by
  induction xs with
  | nil => rfl
  | cons x rest ih =>
    cases hs : x.isSpace with
    | true =>
      cases x with
      | space c =>
        rw [List.filter_cons_of_neg (by simp [hs]), ih]
        exact (compact_push_space c _).symm
      | _ => cases hs
    | false =>
      rw [List.filter_cons_of_pos (by simp [hs])]
      exact (congrArg (push x) ih).trans (compact_push hs _).symm

/-! ## What is derived becomes forms in a row -/

/-- Put some forms in front of a row, with nothing between them. -/
def Row.prepend (forms : List (Form (List Blank))) (row : Row (List Blank)) : Row (List Blank) :=
  forms.foldr (Row.item []) row

theorem Row.splitAt_prepend {b : Bracket} {forms : List (Form (List Blank))}
    (h : ∀ form ∈ forms, form.isQuotable = true) (row : Row (List Blank)) :
    (prepend forms (.item [] (.stray b) row)).splitAt b = (prepend forms (.last []), some row) := by
  induction forms with
  | nil => simp [prepend, splitAt, Form.isStray]
  | cons form rest ih =>
    have hstray : form.isStray b = false := by
      have hq := h form List.mem_cons_self
      cases form with
      | stray c => cases hq
      | word | str | comment | group | quoted | bareQuote => rfl
    have hrest := ih fun other ho => h other (List.mem_cons_of_mem _ ho)
    rw [prepend, List.foldr_cons, splitAt, if_neg (by simp [hstray]), ← prepend, hrest]
    rfl

/-- Whether some lexemes become forms in front of any row, and what these denote. -/
def Yields (xs : List Lexeme) (ds : List Datum) : Prop :=
  ∃ forms, (∀ row, xs.foldr Row.push row = Row.prepend forms row) ∧
    (∀ form ∈ forms, form.isQuotable = true) ∧
    (Row.prepend forms (.last [])).data? = some ds

namespace Yields

theorem nil : Yields [] [] := ⟨[], fun _ => rfl, by simp, rfl⟩

/-- Some lexemes become one form. -/
theorem cons {xs ys : List Lexeme} {form : Form (List Blank)} {d : Datum} {ds : List Datum}
    (hpush : ∀ row, xs.foldr Row.push row = .item [] form row) (hq : form.isQuotable = true)
    (hf : form.datum? = some d) (h : Yields ys ds) : Yields (xs ++ ys) (d :: ds) := by
  obtain ⟨forms, hforms, hquotable, hdata⟩ := h
  refine ⟨form :: forms, fun row => ?_, ?_, ?_⟩
  · rw [List.foldr_append, hforms, hpush]
    rfl
  · exact List.forall_mem_cons.mpr ⟨hq, hquotable⟩
  · exact Row.data?_item (Form.isElement_of_datum? hf) hf hdata

/-- One lexeme becomes one form. -/
theorem cons_lexeme {x : Lexeme} {ys : List Lexeme} {form : Form (List Blank)} {d : Datum}
    {ds : List Datum} (hpush : ∀ row, Row.push x row = .item [] form row)
    (hq : form.isQuotable = true) (hf : form.datum? = some d) (h : Yields ys ds) :
    Yields (x :: ys) (d :: ds) := by
  have hone : ∀ row, [x].foldr Row.push row = .item [] form row := hpush
  exact cons hone hq hf h

end Yields

/-- A word becomes a form of its own. -/
theorem exists_push_word {w : List Char} (h : (Lexeme.word w).WellSpelled .source) :
    ∃ form : Form (List Blank), (∀ row, Row.push (.word w) row = .item [] form row) ∧
      form.isQuotable = true ∧ form.datum? = some (.ofWord w) := by
  have hw : w ≠ [] ∧ ∀ c ∈ w, isWordChar .source c = true := h
  refine ⟨.word ⟨w, hw⟩, fun row => ?_, rfl, rfl⟩
  rw [Row.push, dif_pos ⟨hw.1, List.all_eq_true.mpr hw.2⟩]

theorem yields_of_derivesElements {xs : List Lexeme} {ls : List Literal}
    (h : DerivesElements xs ls) (hx : ∀ x ∈ xs, x.WellSpelled .source) :
    Yields xs (ls.map .literal) := by
  match h with
  | .nil => exact .nil
  | @DerivesElements.str raw xs ls hs =>
    have hrest := yields_of_derivesElements hs (List.forall_mem_of_forall_mem_cons hx)
    exact .cons_lexeme (fun row => rfl) rfl rfl hrest
  | @DerivesElements.word w l xs ls hw hs =>
    have hrest := yields_of_derivesElements hs (List.forall_mem_of_forall_mem_cons hx)
    obtain ⟨form, hpush, hq, hf⟩ := exists_push_word (hx _ List.mem_cons_self)
    exact .cons_lexeme hpush hq (hw ▸ hf) hrest

/-- What has become the forms of a group becomes one form with its brackets. -/
theorem exists_push_group {xs : List Lexeme} {ds : List Datum} {d : Datum} (b : Bracket)
    (h : Yields xs ds) (hd : (Kind.ofBracket b).gather ds = some d) :
    ∃ form : Form (List Blank),
      (∀ row, (.opening b :: (xs ++ [.closing b])).foldr Row.push row = .item [] form row) ∧
        form.isQuotable = true ∧ form.datum? = some d := by
  obtain ⟨forms, hforms, hquotable, hdata⟩ := h
  refine ⟨.group b (.prepend forms (.last [])) true, fun row => ?_, rfl, ?_⟩
  · have hinside : (xs ++ [Lexeme.closing b]).foldr Row.push row =
        .prepend forms (.item [] (.stray b) row) := by
      rw [List.foldr_append, hforms]
      rfl
    rw [List.foldr_cons, hinside, Row.push, Row.splitAt_prepend hquotable]
  · rw [Form.datum?, hdata]
    exact hd

mutual

/-- **A derived form becomes one form**, which denotes what is derived. -/
theorem exists_push_of_derives {xs : List Lexeme} {d : Datum} (h : Derives xs d)
    (hx : ∀ x ∈ xs, x.WellSpelled .source) :
    ∃ form : Form (List Blank), (∀ row, xs.foldr Row.push row = .item [] form row) ∧
      form.isQuotable = true ∧ form.datum? = some d := by
  match h with
  | .word w => exact exists_push_word (hx _ List.mem_cons_self)
  | .str raw => exact ⟨.str raw true, fun row => rfl, rfl, rfl⟩
  | @Derives.quoted xs d hs =>
    obtain ⟨form, hpush, hq, hf⟩ :=
      exists_push_of_derives hs (List.forall_mem_of_forall_mem_cons hx)
    refine ⟨.quoted [] form, fun row => ?_, rfl, ?_⟩
    · rw [List.foldr_cons, hpush, Row.push, if_pos hq]
    · rw [Form.datum?, hf]
      rfl
  | @Derives.list xs ds hs =>
    have hinside := (List.forall_mem_append.mp (List.forall_mem_of_forall_mem_cons hx)).1
    exact exists_push_group .round (yields_of_derivesAll hs hinside) rfl
  | @Derives.array xs ls hs =>
    have hinside := (List.forall_mem_append.mp (List.forall_mem_of_forall_mem_cons hx)).1
    refine exists_push_group .square (yields_of_derivesElements hs hinside) ?_
    rw [Kind.ofBracket, Kind.gather, Datum.mapM_literal?]
    rfl

/-- Derived forms become forms in a row, which denote what is derived. -/
theorem yields_of_derivesAll {xs : List Lexeme} {ds : List Datum} (h : DerivesAll xs ds)
    (hx : ∀ x ∈ xs, x.WellSpelled .source) : Yields xs ds := by
  match h with
  | .nil => exact .nil
  | @DerivesAll.cons xs ys d ds hd hs =>
    obtain ⟨hxs, hys⟩ := List.forall_mem_append.mp hx
    obtain ⟨form, hpush, hq, hf⟩ := exists_push_of_derives hd hxs
    exact .cons hpush hq hf (yields_of_derivesAll hs hys)

end

/-! ## Texts -/

/-- The row of a text denotes the forms that its lexemes derive. -/
theorem data?_ofLexemes {text : String} {ds : List Datum}
    (h : DerivesAll ((Lexeme.scan .source text).filter fun x => !x.isSpace) ds) :
    (Row.ofLexemes (Lexeme.scan .source text)).data? = some ds := by
  have hspelled := (Lexeme.canonical_scan .source text).spelled
  obtain ⟨forms, hforms, -, hdata⟩ :=
    yields_of_derivesAll h fun x hx => hspelled x (List.mem_of_mem_filter hx)
  have hcompact := Row.ofLexemes_filter (Lexeme.scan .source text)
  rw [Row.ofLexemes, hforms] at hcompact
  rw [hcompact, Row.data?_map] at hdata
  exact hdata

/--
**The tree of a text denotes what the text is read as.** The reader and the tree cut the
text into lexemes in different ways, but not where all semicolons are inside strings.
-/
theorem datum?_ofText {limit : Nat} {text : String} {d : Datum} {t : Token}
    (hs : semicolonsInStrings text = true) (hread : Datum.readWithin limit text = .ok d)
    (ht : Token.ofText text = .ok t) : t.datum? = some d := by
  let row := Row.ofLexemes (Lexeme.scan .source text)
  have hregular : row.Regular Row.IsEmpty none true := Row.regular_ofLexemes _
  have htree : t = row.source.tree := by
    rw [Token.ofText_of_scan hregular (scan_eq_lexemes_ofLexemes text)] at ht
    split at ht <;> cases ht
    rfl
  obtain ⟨forms, hforms, rfl⟩ := Datum.readWithin_eq_ok.mp hread
  obtain ⟨hne, hall, -⟩ := Datum.readForms_eq_ok_iff.mp hforms
  rw [Lexeme.code, ← scan_source_of_semicolonsInStrings hs] at hall
  have hdata : row.source.data? = some forms := (Row.data?_map ..).trans (data?_ofLexemes hall)
  have hm : row.source.Matched none :=
    (row.matched_map ofBlanks none).mpr (row.matched_of_regular none true hregular)
  obtain ⟨first, others, rfl⟩ := List.exists_cons_of_ne_nil hne
  rw [htree, Row.datum?_tree hm hdata]

/-- For instance with a bracket and a semicolon in a string, and a quote mark over a line break. -/
theorem datum?_ofText_quoted :
    semicolonsInStrings "(a ' [1 \"(;\\\"\"]\"  \")'\nx" = true ∧
      Datum.readWithin 3 "(a ' [1 \"(;\\\"\"]\"  \")'\nx" =
        .ok (.list [.symbol "progn",
          .list [.symbol "a", .quoting (.array [.number (.int 1), .str "(;\""]),
            .literal (.str "  ")],
          .quoting (.symbol "x")]) ∧
      ∃ t, Token.ofText "(a ' [1 \"(;\\\"\"]\"  \")'\nx" = .ok t ∧
        t.datum? = some (.list [.symbol "progn",
          .list [.symbol "a", .quoting (.array [.number (.int 1), .str "(;\""]),
            .literal (.str "  ")],
          .quoting (.symbol "x")]) := by
  have hs : semicolonsInStrings "(a ' [1 \"(;\\\"\"]\"  \")'\nx" = true := by decide
  have hread : Datum.readWithin 3 "(a ' [1 \"(;\\\"\"]\"  \")'\nx" =
      .ok (.list [.symbol "progn",
        .list [.symbol "a", .quoting (.array [.number (.int 1), .str "(;\""]),
          .literal (.str "  ")],
        .quoting (.symbol "x")]) := by rfl
  obtain ⟨t, ht⟩ : ∃ t, Token.ofText "(a ' [1 \"(;\\\"\"]\"  \")'\nx" = .ok t := ⟨_, rfl⟩
  exact ⟨hs, hread, t, ht, datum?_ofText hs hread ht⟩

end Layout

end ExactLisp
