import ExactLisp.Proofs.Layout.Regular

/-!
# The tree of a regular row

Reading the lexemes of a regular row gives the tree of that row. A form is read from
whatever state the tree is in: if it does not nest too deeply there, reading its
lexemes is delivering its node, and otherwise reading fails
(`Form.outcome_lexemes`). The same holds for a row, whose nodes are all added to the
innermost open aggregate (`Row.outcome_lexemes`).

As the lexemes of every text are grouped into some regular row, this describes the tree
of every text (`Token.ofText_of_scan`).
-/

namespace ExactLisp.Layout

/-! ## States of a growing tree -/

namespace Growth

/-- The children of the root, once some more lexemes have been read. -/
def outcome (g : Growth) (xs : List Lexeme) : Except ReadFault (List Token) :=
  match readAll g xs with
  | .ok last => .ok (finish [] last.stack last.reversed)
  | .error fault => .error fault

theorem outcome_cons_of_ok {g next : Growth} {x : Lexeme} (h : read g x = .ok next)
    (rest : List Lexeme) : g.outcome (x :: rest) = next.outcome rest := by
  rw [outcome, readAll, h]
  rfl

theorem outcome_cons_of_error {g : Growth} {x : Lexeme} {fault : ReadFault}
    (h : read g x = .error fault) (rest : List Lexeme) : g.outcome (x :: rest) = .error fault := by
  rw [outcome, readAll, h]

/-- What two states have in common if they read the next lexeme alike. -/
theorem outcome_cons_congr {g h : Growth} {x : Lexeme} (e : read g x = read h x)
    (rest : List Lexeme) : g.outcome (x :: rest) = h.outcome (x :: rest) := by
  rw [outcome, outcome, readAll, readAll, e]

/-- No quote waits for its form. -/
def Settled (g : Growth) : Prop := ∀ top ∈ g.stack.head?, top.kind ≠ .quote

/-- Add nodes to the innermost open aggregate. -/
def addAll (ts : List Token) (g : Growth) : Growth :=
  match g.stack with
  | [] => ⟨[], ts.reverse ++ g.reversed⟩
  | top :: stack => ⟨{ top with reversed := ts.reverse ++ top.reversed } :: stack, g.reversed⟩

theorem addAll_nil (g : Growth) : g.addAll [] = g := by
  cases g with
  | mk stack reversed => cases stack <;> rfl

theorem addAll_append (g : Growth) (ts us : List Token) :
    g.addAll (ts ++ us) = (g.addAll ts).addAll us := by
  cases g with
  | mk stack reversed => cases stack <;> simp [addAll]

theorem length_stack_addAll (g : Growth) (ts : List Token) :
    (g.addAll ts).stack.length = g.stack.length := by
  cases g with
  | mk stack reversed => cases stack <;> rfl

/-- Adding nodes does not change what the innermost aggregate is. -/
theorem kind_addAll {g : Growth} {kind : Kind} (h : ∀ top ∈ g.stack.head?, top.kind ≠ kind)
    (ts : List Token) : ∀ top ∈ (g.addAll ts).stack.head?, top.kind ≠ kind := by
  cases g with
  | mk stack reversed =>
    cases stack with
    | nil => exact h
    | cons top stack =>
      intro t ht
      cases ht
      exact h top rfl

theorem settled_addAll {g : Growth} (h : g.Settled) (ts : List Token) : (g.addAll ts).Settled :=
  kind_addAll h ts

/-- Where no quote waits, delivering a node only adds it. -/
theorem deliver_of_settled {g : Growth} (h : g.Settled) (t : Token) :
    deliver t g.stack g.reversed = g.addAll [t] := by
  cases g with
  | mk stack reversed =>
    cases stack with
    | nil => rfl
    | cons top stack =>
      rw [deliver, if_neg (h top rfl)]
      rfl

/-- A delivered node completes all quotes that wait. -/
theorem settled_deliver (t : Token) (stack : List OpenAggregate) (reversed : List Token) :
    (deliver t stack reversed).Settled := by
  induction stack generalizing t with
  | nil =>
    intro top h
    cases h
  | cons top stack ih =>
    rw [deliver]
    split
    · exact ih _
    next hk =>
      intro u hu
      cases hu
      exact hk

/-- At the end of a text it makes no difference whether a node has been delivered. -/
theorem finish_deliver (t : Token) (stack : List OpenAggregate) (reversed : List Token) :
    finish [] (deliver t stack reversed).stack (deliver t stack reversed).reversed =
      finish [t] stack reversed := by
  induction stack generalizing t with
  | nil => rfl
  | cons top stack ih =>
    rw [deliver]
    split
    next hk =>
      rw [ih, finish, hk]
      rfl
    · rfl

theorem read_eq_readInside {g : Growth} (h : g.Settled) (x : Lexeme) : read g x = readInside g x := by
  cases g with
  | mk stack reversed =>
    cases stack with
    | nil => rfl
    | cons top stack =>
      rw [read]
      exact if_neg (h top rfl)

/-- The fault of a text that nests too deeply. -/
def tooDeep : ReadFault := .tooDeep depthLimit

theorem readNode_of_le {g : Growth} (h : depthLimit ≤ g.stack.length + 1) (x : Lexeme) :
    readNode g x = .error tooDeep := by
  unfold readNode
  rw [if_pos h]
  rfl

/-- A lexeme that no group ends with, read where no quote waits. -/
theorem read_of_settled {g : Growth} {x : Lexeme} (h : g.Settled)
    (hx : ∀ b, x = .closing b → ∀ top ∈ g.stack.head?, top.kind ≠ .ofBracket b) :
    read g x = readNode g x := by
  rw [read_eq_readInside h]
  cases g with
  | mk stack reversed =>
    cases stack with
    | nil => rfl
    | cons top stack =>
      cases x with
      | closing b =>
        exact if_neg (hx b rfl top rfl)
      | _ => rfl

/-- A lexeme that a quote takes is read in the same way whether one waits or not. -/
theorem read_of_quotable {g : Growth} {x : Lexeme} (h1 : ∀ b, x ≠ .closing b)
    (h2 : ∀ text, x ≠ .comment text) (h3 : ∀ c, x ≠ .space c) : read g x = readNode g x := by
  cases g with
  | mk stack reversed =>
    cases stack with
    | nil => rfl
    | cons top stack =>
      rw [read]
      dsimp only
      split
      · cases x with
        | closing b => exact absurd rfl (h1 b)
        | comment text => exact absurd rfl (h2 text)
        | space c => exact absurd rfl (h3 c)
        | _ => rfl
      · cases x with
        | closing b => exact absurd rfl (h1 b)
        | _ => rfl

/-- Whether a text goes on so that a quote mark before it has nothing to quote. -/
def AfterBare : List Lexeme → Prop
  | [] => True
  | .closing _ :: _ | .comment _ :: _ => True
  | _ => False

/-- A quote that has nothing to quote is complete as it is. -/
theorem outcome_of_afterBare {rest : List Lexeme} (h : AfterBare rest) (reversed : List Token)
    (stack : List OpenAggregate) (root : List Token) :
    (Growth.mk (⟨.quote, reversed⟩ :: stack) root).outcome rest =
      (deliver (.aggregate .quote reversed.reverse) stack root).outcome rest := by
  cases rest with
  | nil =>
    simp only [outcome, readAll]
    rw [finish_deliver]
    rfl
  | cons x rest =>
    refine outcome_cons_congr ?_ rest
    rw [read_eq_readInside (settled_deliver _ _ _)]
    cases x with
    | closing | comment => rfl
    | _ => exact absurd h id

end Growth

/-! ## Nesting -/

mutual

/-- Whether a form can be read inside some open aggregates. -/
def Form.fits (level : Nat) : Form (List Blank) → Bool
  | .group _ row _ => level + 1 < depthLimit && row.fits (level + 1)
  | .quoted _ form => level + 1 < depthLimit && form.fits (level + 1)
  | _ => level + 1 < depthLimit

/-- Whether a row can be read inside some open aggregates. -/
def Row.fits (level : Nat) : Row (List Blank) → Bool
  | .last gap => gap.isEmpty || level + 1 < depthLimit
  | .item _ form rest => form.fits level && rest.fits level

end

theorem Form.lt_of_fits {level : Nat} {f : Form (List Blank)} (h : f.fits level = true) :
    level + 1 < depthLimit := by
  cases f with
  | group | quoted =>
    rw [Form.fits, Bool.and_eq_true] at h
    exact of_decide_eq_true h.1
  | word | stray | str | comment | bareQuote => exact of_decide_eq_true h

/-! ## Reading a row -/

open Growth

/-- A form of a text as it stands in the tree. -/
abbrev Form.source (f : Form (List Blank)) : Form Gap := f.map ofBlanks

/-- A row of a text as it stands in the tree. -/
abbrev Row.source (r : Row (List Blank)) : Row Gap := r.map ofBlanks

theorem outcome_spaces {g : Growth} (hg : g.Settled) (gap : List Blank) (rest : List Lexeme) :
    g.outcome (spaces gap ++ rest) =
      if gap.isEmpty || g.stack.length + 1 < depthLimit then
        (g.addAll (gapTokens (ofBlanks gap))).outcome rest
      else .error tooDeep := by
  induction gap generalizing g with
  | nil => simp [spaces, gapTokens, ofBlanks, addAll_nil]
  | cons c gap ih =>
    have hread : read g (.space c.1) = readNode g (.space c.1) :=
      read_of_settled hg fun b h => by cases h
    by_cases hd : depthLimit ≤ g.stack.length + 1
    · rw [readNode_of_le hd] at hread
      rw [if_neg (by simp; omega)]
      exact outcome_cons_of_error hread _
    · have hnode : readNode g (.space c.1) = .ok (g.addAll [.char c.1]) := by
        rw [← deliver_of_settled hg]
        unfold readNode
        rw [if_neg hd]
      rw [hnode] at hread
      have hstep := ih (settled_addAll hg [.char c.1])
      rw [length_stack_addAll, if_pos (by simp; omega), ← addAll_append] at hstep
      rw [if_pos (by simp; omega)]
      exact (outcome_cons_of_ok hread _).trans hstep

/-- The blanks after a quote mark are read without a look at the nesting. -/
theorem outcome_quote_spaces (reversed : List Token) (stack : List OpenAggregate)
    (root : List Token) (gap : List Blank) (rest : List Lexeme) :
    (Growth.mk (⟨.quote, reversed⟩ :: stack) root).outcome (spaces gap ++ rest) =
      (Growth.mk (⟨.quote, (gapTokens (ofBlanks gap)).reverse ++ reversed⟩ :: stack)
        root).outcome rest := by
  induction gap generalizing reversed with
  | nil => rfl
  | cons c gap ih =>
    have hread : read (Growth.mk (⟨.quote, reversed⟩ :: stack) root) (.space c.1) =
        .ok (Growth.mk (⟨.quote, .char c.1 :: reversed⟩ :: stack) root) := rfl
    have hstep := ih (.char c.1 :: reversed)
    refine (outcome_cons_of_ok hread _).trans (hstep.trans ?_)
    simp [gapTokens, ofBlanks, Mark.token]

/-- What is known of the text after a form. -/
structure Ends (f : Form (List Blank)) (rest : List Lexeme) : Prop where
  /-- What lacks a closing bracket is at the end. -/
  ofOpen : f.isOpen = true → rest = []
  /-- After a quote mark with nothing to quote nothing can be quoted. -/
  ofBare : f.endsBare = true → AfterBare rest

/-- Whether a form can be read in a state as what it is. -/
structure Enters (f : Form (List Blank)) (g : Growth) : Prop where
  /-- Where a quote waits, only what it takes can be read. -/
  settled : f.isQuotable = true ∨ g.Settled
  /-- A bracket that closes nothing does not close the innermost group. -/
  stray : ∀ b, f.isStray b = true → ∀ top ∈ g.stack.head?, top.kind ≠ .ofBracket b

theorem ofBracket_ne_quote (b : Bracket) : Kind.ofBracket b ≠ .quote := by
  cases b <;> simp [Kind.ofBracket]

theorem ofBracket_injective {b c : Bracket} (h : Kind.ofBracket b = .ofBracket c) : b = c := by
  cases b <;> cases c <;> first | rfl | cases h

/-- Directly inside a group no quote waits. -/
theorem settled_inGroup (b : Bracket) (reversed : List Token) (stack : List OpenAggregate)
    (root : List Token) : (Growth.mk (⟨.ofBracket b, reversed⟩ :: stack) root).Settled := by
  intro top h
  cases h
  exact ofBracket_ne_quote b

theorem outcome_closing {b : Bracket} {reversed : List Token} {stack : List OpenAggregate}
    {root : List Token} (rest : List Lexeme) :
    (Growth.mk (⟨.ofBracket b, reversed⟩ :: stack) root).outcome (.closing b :: rest) =
      (deliver (.aggregate (.ofBracket b) (.char b.closeChar :: reversed).reverse)
        stack root).outcome rest := by
  refine outcome_cons_of_ok ?_ rest
  rw [read_eq_readInside (settled_inGroup b reversed stack root)]
  exact if_pos rfl

/-- A lexeme that only the nesting can stop. -/
theorem outcome_node {g : Growth} {x : Lexeme} (next : Growth) (rest : List Lexeme)
    (hread : read g x = readNode g x)
    (hnode : ¬ depthLimit ≤ g.stack.length + 1 → readNode g x = .ok next) :
    g.outcome (x :: rest) =
      if g.stack.length + 1 < depthLimit then next.outcome rest else .error tooDeep := by
  by_cases hd : depthLimit ≤ g.stack.length + 1
  · rw [readNode_of_le hd] at hread
    rw [if_neg (by omega)]
    exact outcome_cons_of_error hread _
  · rw [hnode hd] at hread
    rw [if_pos (by omega)]
    exact outcome_cons_of_ok hread _

theorem outcome_opening (g : Growth) (b : Bracket) (rest : List Lexeme) :
    g.outcome (.opening b :: rest) =
      if g.stack.length + 1 < depthLimit then
        (Growth.mk (⟨.ofBracket b, [.char b.openChar]⟩ :: g.stack) g.reversed).outcome rest
      else .error tooDeep :=
  outcome_node _ rest (read_of_quotable (by simp) (by simp) (by simp)) fun hd => by
    unfold readNode
    rw [if_neg hd]

/-- A quote mark opens a quote, to which the blanks after it belong. -/
theorem outcome_quote (g : Growth) (gap : List Blank) (rest : List Lexeme) :
    g.outcome (.quote :: (spaces gap ++ rest)) =
      if g.stack.length + 1 < depthLimit then
        (Growth.mk (⟨.quote, (gapTokens (ofBlanks gap)).reverse ++ [.char quoteMark]⟩ :: g.stack)
          g.reversed).outcome rest
      else .error tooDeep := by
  have hmark := outcome_node (g := g) (x := .quote)
    ⟨⟨.quote, [.char quoteMark]⟩ :: g.stack, g.reversed⟩ (spaces gap ++ rest)
    (read_of_quotable (by simp) (by simp) (by simp)) fun hd => by unfold readNode; rw [if_neg hd]
  rwa [outcome_quote_spaces] at hmark

/-- At the end of the text an open aggregate may as well have been delivered. -/
theorem outcome_nil_of_open (top : OpenAggregate) (stack : List OpenAggregate)
    (root : List Token) :
    (Growth.mk (top :: stack) root).outcome [] =
      (deliver (.aggregate top.kind top.reversed.reverse) stack root).outcome [] := by
  simp only [outcome, readAll]
  rw [finish_deliver]
  rfl

/-- The text after a row goes on as the text after its last form may. -/
theorem ends_item {form : Form (List Blank)} {rest : Row (List Blank)} {atEnd : Bool}
    {after : List Lexeme} (hopen : form.isOpen = true → atEnd = true ∧ rest.IsVoid Row.IsEmpty)
    (hbare : form.endsBare = true → rest.FollowsBare Row.IsEmpty)
    (hend : atEnd = true → after = []) (hafter : AfterBare after) :
    Ends form (rest.lexemes id ++ after) where
  ofOpen h := by
    obtain ⟨he, hv⟩ := hopen h
    cases rest with
    | last gap =>
      have hg : gap = [] := hv
      rw [hend he, hg]
      rfl
    | item => exact absurd hv id
  ofBare h := by
    have hb := hbare h
    cases rest with
    | last gap =>
      have hg : gap = [] := hb
      rw [hg]
      exact hafter
    | item gap other others =>
      obtain ⟨hg, hq⟩ := hb
      have hg : gap = [] := hg
      rw [hg]
      cases other with
      | stray | comment => trivial
      | _ => cases hq

mutual

/-- **Reading the lexemes of a form delivers its node**, or it nests too deeply. -/
theorem Form.outcome_lexemes : ∀ f : Form (List Blank), f.Regular Row.IsEmpty →
    ∀ (g : Growth) (rest : List Lexeme), Enters f g → Ends f rest →
      g.outcome (f.lexemes id ++ rest) =
        if f.fits g.stack.length then (deliver f.source.token g.stack g.reversed).outcome rest
        else .error tooDeep
  | .word w, _, g, rest, _, _ => by
    have h := outcome_node (g := g) (x := .word w.1)
      (deliver (.plain w.1) g.stack g.reversed) rest
      (read_of_quotable (by simp) (by simp) (by simp))
      fun hd => by unfold readNode; rw [if_neg hd]
    simpa [Form.fits, Form.lexemes, Form.source, Form.map, Form.token] using h
  | .stray b, _, g, rest, hin, _ => by
    have hg : g.Settled := hin.settled.resolve_left (by simp [Form.isQuotable])
    have hb := hin.stray b (by simp [Form.isStray])
    have h := outcome_node (g := g) (x := .closing b)
      (deliver (.char b.closeChar) g.stack g.reversed) rest
      (read_of_settled hg fun c hc => by cases hc; exact hb)
      fun hd => by unfold readNode; rw [if_neg hd]
    simpa [Form.fits, Form.lexemes, Form.source, Form.map, Form.token] using h
  | .str raw closed, _, g, rest, _, _ => by
    have h := outcome_node (g := g) (x := .str raw closed)
      (deliver (stringToken raw closed) g.stack g.reversed) rest
      (read_of_quotable (by simp) (by simp) (by simp))
      fun hd => by unfold readNode; rw [if_neg hd]
    simpa [Form.fits, Form.lexemes, Form.source, Form.map, Form.token] using h
  | .comment text, _, g, rest, hin, _ => by
    have hg : g.Settled := hin.settled.resolve_left (by simp [Form.isQuotable])
    have h := outcome_node (g := g) (x := .comment text)
      (deliver (commentToken text) g.stack g.reversed) rest
      (read_of_settled hg fun c hc => by cases hc)
      fun hd => by unfold readNode; rw [if_neg hd]
    simpa [Form.fits, Form.lexemes, Form.source, Form.map, Form.token] using h
  | .group b row closed, hf, g, rest, _, hends => by
    -- the row is read inside the group that its bracket opens
    let inner : Growth := ⟨⟨.ofBracket b, [.char b.openChar]⟩ :: g.stack, g.reversed⟩
    have hset : inner.Settled := settled_inGroup b _ _ _
    have hown : ∀ c, some b ≠ some c → ∀ top ∈ inner.stack.head?, top.kind ≠ .ofBracket c := by
      intro c hc top h
      cases h
      exact fun he => hc (congrArg some (ofBracket_injective he))
    have hbody : inner.outcome (row.lexemes id ++ ((if closed then [.closing b] else []) ++ rest)) =
        if row.fits inner.stack.length then
          (deliver (Form.group b row closed).source.token g.stack g.reversed).outcome rest
        else .error tooDeep := by
      cases closed with
      | true =>
        have hrow := Row.outcome_lexemes row (some b) false hf inner (.closing b :: rest) hset hown
          (by simp) trivial
        refine hrow.trans (if_congr Iff.rfl ((outcome_closing rest).trans ?_) rfl)
        simp [Form.token, Form.map, closerTokens, inner]
      | false =>
        obtain rfl : rest = [] := hends.ofOpen rfl
        have hrow := Row.outcome_lexemes row (some b) true hf inner [] hset hown (fun _ => rfl)
          trivial
        refine hrow.trans (if_congr Iff.rfl ((outcome_nil_of_open _ _ _).trans ?_) rfl)
        simp [Form.token, Form.map, closerTokens, inner]
    have hlexemes : (Form.group b row closed).lexemes id ++ rest =
        .opening b :: (row.lexemes id ++ ((if closed then [.closing b] else []) ++ rest)) := by
      simp [Form.lexemes]
    rw [hlexemes, outcome_opening, hbody, ← ite_and]
    exact if_congr (by simp [Form.fits, inner]) rfl rfl
  | .quoted gap form, hf, g, rest, _, hends => by
    -- the form is read where the quote waits for it, which completes the quote
    have hform := Form.outcome_lexemes form hf.2
      ⟨⟨.quote, (gapTokens (ofBlanks gap)).reverse ++ [.char quoteMark]⟩ :: g.stack, g.reversed⟩
      rest
      ⟨Or.inl hf.1, fun b _ top h => by cases h; exact (ofBracket_ne_quote b).symm⟩
      ⟨hends.ofOpen, hends.ofBare⟩
    simp only [Form.lexemes, List.cons_append, List.append_assoc, id]
    rw [outcome_quote, hform, ← ite_and]
    refine if_congr (by simp [Form.fits]) ?_ rfl
    rw [deliver, if_pos rfl]
    simp [Form.token, Form.map]
  | .bareQuote gap, _, g, rest, _, hends => by
    simp only [Form.lexemes, List.cons_append, id]
    rw [outcome_quote, outcome_of_afterBare (hends.ofBare rfl)]
    refine if_congr (by simp [Form.fits]) ?_ rfl
    simp [Form.token, Form.map]

/-- **Reading the lexemes of a row adds its nodes**, or they nest too deeply. -/
theorem Row.outcome_lexemes : ∀ (r : Row (List Blank)) (own : Option Bracket) (atEnd : Bool),
    r.Regular Row.IsEmpty own atEnd → ∀ (g : Growth) (rest : List Lexeme), g.Settled →
      (∀ b, own ≠ some b → ∀ top ∈ g.stack.head?, top.kind ≠ .ofBracket b) →
      (atEnd = true → rest = []) → AfterBare rest →
        g.outcome (r.lexemes id ++ rest) =
          if r.fits g.stack.length then (g.addAll r.source.tokens).outcome rest
          else .error tooDeep
  | .last gap, own, atEnd, _, g, rest, hg, _, _, _ => outcome_spaces hg gap rest
  | .item gap form others, own, atEnd, hr, g, rest, hg, hown, hend, hafter => by
    obtain ⟨hform, hstray, hopen, hbare, hothers⟩ := hr
    let g1 := g.addAll (gapTokens (ofBlanks gap))
    have hg1 : g1.Settled := settled_addAll hg _
    have hlen : g1.stack.length = g.stack.length := length_stack_addAll g _
    have hown1 : ∀ b, own ≠ some b → ∀ top ∈ g1.stack.head?, top.kind ≠ .ofBracket b :=
      fun b hb => kind_addAll (hown b hb) _
    -- a bracket that closes nothing is not the one that closes this row
    have hstray1 : ∀ b, form.isStray b = true → ∀ top ∈ g1.stack.head?,
        top.kind ≠ .ofBracket b := by
      intro b hb
      refine hown1 b fun ho => ?_
      rw [hstray b ho] at hb
      cases hb
    have hone := Form.outcome_lexemes form hform g1 (others.lexemes id ++ rest)
      ⟨Or.inr hg1, hstray1⟩ (ends_item hopen hbare hend hafter)
    have hall := Row.outcome_lexemes others own atEnd hothers (g1.addAll [form.source.token]) rest
      (settled_addAll hg1 _) (fun b hb => kind_addAll (hown1 b hb) _) hend hafter
    rw [length_stack_addAll, hlen] at hall
    rw [hlen, deliver_of_settled hg1] at hone
    simp only [Row.lexemes, List.append_assoc, Row.fits]
    rw [outcome_spaces hg]
    by_cases hf : form.fits g.stack.length = true
    · have hd : g.stack.length + 1 < depthLimit := Form.lt_of_fits hf
      rw [if_pos (by simp [hd])]
      rw [if_pos hf, hall] at hone
      refine hone.trans (if_congr (by simp [hf]) ?_ rfl)
      rw [← addAll_append, ← addAll_append]
      simp [Row.source, Row.map, Row.tokens]
    · rw [if_neg hf] at hone
      simp only [hf, Bool.false_and, Bool.false_eq_true, if_false]
      split
      · exact hone
      · rfl

end

/-- **The tree of a text** is that of a regular row with its lexemes, if that is not too deep. -/
theorem Token.ofText_of_scan {text : String} {row : Row (List Blank)}
    (hr : row.Regular Row.IsEmpty none true) (hs : Lexeme.scan .source text = row.lexemes id) :
    Token.ofText text = if row.fits 0 then .ok row.source.tree else .error tooDeep := by
  have hrow := Row.outcome_lexemes row none true hr .empty [] (fun top h => by cases h)
    (fun _ _ top h => by cases h) (fun _ => rfl) trivial
  have hlen : Growth.empty.stack.length = 0 := rfl
  rw [List.append_nil, hlen] at hrow
  have hout : Token.ofText text = (Growth.empty.outcome (row.lexemes id)).map (.aggregate .root) := by
    rw [Token.ofText, outcome, hs]
    cases readAll .empty (row.lexemes id) <;> rfl
  rw [hout, hrow]
  split
  · simp [outcome, readAll, finish, addAll, Growth.empty, Except.map, Row.tree]
  · rfl

/-- The lexemes of a text are those of the row that they are grouped into. -/
theorem scan_eq_lexemes_ofLexemes (text : String) :
    Lexeme.scan .source text = (Row.ofLexemes (Lexeme.scan .source text)).lexemes id :=
  (Row.lexemes_ofLexemes (Lexeme.canonical_scan .source text).spelled).symm

end ExactLisp.Layout
