import ExactLisp.Layout.Skeleton
import ExactLisp.Proofs.Layout.Breaks

/-!
# The rules of the passes that break lines

For each pass that breaks lines: the breaker that says where, and the proof that the
pass does to every row what the breaker says.
-/

namespace ExactLisp.Layout

/-! ## Lists that start with some word -/

theorem whenHeaded_of_ne {kind : Kind} (h : kind ≠ .list) (heads : List String)
    (edit : List Token → List Token) (children : List Token) :
    whenHeaded heads edit kind children = children := by
  rw [whenHeaded, if_neg fun hc => h hc.1]

theorem ne_list_of_leaf {kind : Kind} (h : kind = .str ∨ kind = .comment ∨ kind = .quote) :
    kind ≠ .list := by
  rcases h with rfl | rfl | rfl <;> exact Kind.noConfusion

theorem whenHeaded_enclose {shell : Shell} {row : Row Gap} (h : row.Matched shell.own)
    (heads : List String) (edit : List Token → List Token) (isBindings : Bool) :
    whenHeaded heads edit shell.kind (shell.enclose row.tokens) =
      if (Reach.start shell isBindings row).isHeaded heads then edit (shell.enclose row.tokens)
      else shell.enclose row.tokens := by
  rw [whenHeaded, head?_enclose h]
  refine if_congr ?_ rfl rfl
  simp [Reach.isHeaded, Reach.start]

theorem kind_of_isHeaded {r : Reach} {heads : List String} (h : r.isHeaded heads = true) :
    r.shell.kind = .list := by
  rw [Reach.isHeaded, Bool.and_eq_true] at h
  exact eq_of_beq h.1

/-- A pass over lists that start with some word, by a breaker for its edit. -/
theorem Breaker.realizes_headed {heads : List String} {edit : List Token → List Token}
    {σ : Breaker}
    (h : ∀ (shell : Shell) (isBindings : Bool) (row : Row Gap), row.Matched shell.own →
      shell.kind = .list →
        edit (shell.enclose row.tokens) =
          breakAt (shell.enclose row.tokens)
            (row.breaks never σ (.start shell isBindings row) shell.openerTokens.length)) :
    Realizes (whenHeaded heads edit) never (σ.headed heads).rule leave := by
  refine Breaker.realizes (fun kind ts hk => whenHeaded_of_ne (ne_list_of_leaf hk) heads edit ts)
    fun shell isBindings row hm => ?_
  rw [whenHeaded_enclose hm heads edit isBindings, Breaker.headed,
    Row.breaks_given never fun _ _ _ => rfl]
  split
  next hh => exact h shell isBindings row hm (kind_of_isHeaded hh)
  · rfl

/-! ## Sequences, lambdas and conditionals -/

/-- All forms of a sequence. -/
def Breaker.sequences : Breaker := (fromElement 1).headed ["progn"]

/-- The body forms of a lambda. -/
def Breaker.lambdas : Breaker := (fromElement 2).headed ["lambda"]

theorem realizes_sequences :
    Realizes (whenHeaded ["progn"] breakSequence) never Breaker.sequences.rule leave :=
  Breaker.realizes_headed fun shell isBindings row hm hk => by
    rw [breakAt_fromElement hm, hk, breakSequence]

theorem realizes_lambdas :
    Realizes (whenHeaded ["lambda"] breakLambda) never Breaker.lambdas.rule leave :=
  Breaker.realizes_headed fun shell isBindings row hm hk => by
    rw [breakAt_fromElement hm, hk, breakLambda]

/-- The branches of a conditional, the first one further in, or else its closing bracket. -/
def Breaker.conditional : Breaker :=
  counting (fun i => if i = 2 then some 1 else if 3 ≤ i then some 0 else none)
    fun i => if i = 2 then some 0 else none

theorem length_enclose_of_closes {shell : Shell} (h : shell.closes = true) (ts : List Token) :
    (shell.enclose ts).length - 1 = shell.openerTokens.length + ts.length := by
  cases shell with
  | root => cases h
  | group b closed =>
    have hc : closed = true := h
    subst hc
    simp [Shell.enclose, Shell.openerTokens, Shell.closerTokens, closerTokens]
    omega

theorem breakConditional_enclose {shell : Shell} {row : Row Gap} (hm : row.Matched shell.own)
    (hk : shell.kind = .list) (isBindings : Bool) :
    breakConditional (shell.enclose row.tokens) =
      breakAt (shell.enclose row.tokens)
        (row.breaks never .conditional (.start shell isBindings row)
          shell.openerTokens.length) := by
  have helements := elements_enclose hm
  have hclosed := Shell.isClosed_enclose hm
  have hcount := Row.length_places_isElement shell.openerTokens.length row
  rw [hk] at helements hclosed
  have hseen : (Reach.start shell isBindings row).seen = 0 := rfl
  have hshell : (Reach.start shell isBindings row).shell = shell := rfl
  rw [breakConditional, helements, hclosed, Breaker.conditional, Row.breaks_counting, hseen,
    hshell, Nat.zero_add, ← hcount]
  cases hp : row.places Form.isElement shell.openerTokens.length with
  | nil => cases shell.closes <;> rfl
  | cons first rest =>
    cases rest with
    | nil => cases shell.closes <;> rfl
    | cons condition branches =>
      cases branches with
      | nil =>
        cases hs : shell.closes with
        | false => rfl
        | true =>
          rw [if_pos rfl, length_enclose_of_closes hs]
          rfl
      | cons consequent alternatives =>
        -- all alternatives are the third element or a later one
        have hrest : ((alternatives.zipIdx 3).filterMap fun p =>
            (if p.2 = 2 then some 1 else if 3 ≤ p.2 then some 0 else none).map fun extra =>
              (p.1, extra)) = alternatives.map fun i => (i, 0) := by
          have hfrom := filterMap_zipIdx_from alternatives 3 3
          rw [Nat.sub_self, List.drop_zero] at hfrom
          rw [← hfrom]
          refine List.filterMap_congr fun p hp => ?_
          have hle := List.le_snd_of_mem_zipIdx hp
          rw [if_neg (by omega)]
        have hlen : (first :: condition :: consequent :: alternatives).length ≠ 2 := by simp
        show breakBefore (breakBeforeEach _ alternatives) consequent 1 = _
        rw [breakBeforeEach_eq, if_neg hlen]
        simp only [List.zipIdx_cons, List.filterMap_cons, Nat.zero_add, Nat.reduceAdd, hrest]
        simp [breakAt]

/-- The branches of conditionals. -/
def Breaker.conditionals : Breaker := conditional.headed ["if"]

theorem realizes_conditionals :
    Realizes (whenHeaded ["if"] breakConditional) never Breaker.conditionals.rule leave :=
  Breaker.realizes_headed fun _ isBindings _ hm hk => breakConditional_enclose hm hk isBindings

/-! ## Comments -/

/-- Comments with two marks that follow something. -/
def Breaker.comments : Breaker
  | r, .form _ true, _ => if r.opens then none else some 0
  | _, _, _ => none

theorem hasContent_append_gap {before : List Token} {start : Nat} (h : start ≤ before.length)
    (gap : Gap) (rest : List Token) :
    hasContent (before ++ (gapTokens gap ++ rest)) start (before.length + gap.length) =
      (before.drop start).any fun t => !t.isWhitespace := by
  have hgap : ((gapTokens gap).any fun t => !t.isWhitespace) = false := by
    rw [List.any_eq_false]
    intro t ht
    simp [isWhitespace_of_mem_gapTokens ht]
  rw [hasContent, ← List.append_assoc, ← length_append_gap, List.take_left, List.drop_append_of_le_length h,
    List.any_append, hgap, Bool.or_false]

theorem filter_hasContent_places (spans : Gap → Bool) (start : Nat) :
    ∀ (row : Row Gap) (r : Reach) (before rest : List Token), start ≤ before.length →
      ((before.drop start).any fun t => !t.isWhitespace) = !r.opens →
        ((row.places Form.isLineComment before.length).filter
            (hasContent (before ++ (row.tokens ++ rest)) start)).map (fun i => (i, 0)) =
          row.breaks spans .comments r before.length
  | .last gap, r, before, rest, _, _ => by
    have hnone : Breaker.comments r r.shell.next gap = none := by
      rcases hs : r.shell with _ | ⟨b, _ | _⟩ <;> rfl
    rw [Row.breaks, hnone]
    rfl
  | .item gap form others, r, before, rest, hle, hany => by
    -- behind a form there is content, whatever stood before it
    have hdrop : ((before ++ gapTokens gap ++ [form.token]).drop start).any
        (fun t => !t.isWhitespace) = true := by
      rw [List.drop_append_of_le_length (by simp; omega), List.any_append]
      simp [isWhitespace_form]
    have ih := filter_hasContent_places spans start others
      (r.after form.isElement (form.spans spans)) (before ++ gapTokens gap ++ [form.token]) rest
      (by rw [length_append_form]; omega) hdrop
    rw [length_append_form, ← append_tokens_item] at ih
    have hhere : hasContent (before ++ ((Row.item gap form others).tokens ++ rest)) start
        (before.length + gap.length) = !r.opens := by
      have happ := hasContent_append_gap hle gap (form.token :: (others.tokens ++ rest))
      rw [← hany, ← happ]
      simp [Row.tokens]
    rw [Row.places, Row.breaks, List.filter_append, List.map_append, ih]
    congr 1
    rw [Form.next]
    cases form.isLineComment with
    | false => rfl
    | true =>
      rw [if_pos rfl, List.filter_singleton, hhere]
      cases ho : r.opens <;> simp [Breaker.comments, ho]

theorem breakComments_of_ne {kind : Kind} (h : kind = .str ∨ kind = .comment ∨ kind = .quote)
    (children : List Token) : breakComments kind children = children := by
  rcases h with rfl | rfl | rfl <;> rfl

theorem realizes_comments : Realizes breakComments never Breaker.comments.rule leave := by
  refine Breaker.realizes (fun kind ts hk => breakComments_of_ne hk ts)
    fun shell isBindings row hm => ?_
  have hplaces := filter_hasContent_places never shell.openerTokens.length row
    (.start shell isBindings row) shell.openerTokens shell.closerTokens (Nat.le_refl _) (by
      rw [List.drop_length]
      rfl)
  have hedit : breakComments shell.kind (shell.enclose row.tokens) =
      breakBeforeEach (shell.enclose row.tokens)
        ((innerPlaces shell.kind (shell.enclose row.tokens) isLineComment).filter
          (hasContent (shell.enclose row.tokens) (innerStart shell.kind
            (shell.enclose row.tokens)))) := by
    rcases shell with _ | ⟨_ | _, _⟩ <;> rfl
  rw [hedit, breakBeforeEach_eq, lineComments_enclose hm, Shell.innerStart_enclose, ← hplaces,
    Shell.enclose, List.append_assoc]

/-! ## Continuations -/

/-- Whether a part of a gap ends a line. -/
def Mark.isNewline : Mark → Bool
  | .blank c => c.1 == '\n' || c.1 == '\r'
  | .lineBreak => true

/-- Whether a gap takes more than one line. -/
def endsLine (gap : Gap) : Bool := gap.any Mark.isNewline

/-- Whether a part of a gap is a line break that a pass has inserted. -/
def Mark.isInserted : Mark → Bool
  | .blank _ => false
  | .lineBreak => true

/-- Elements of a list after one that takes several lines. -/
def Breaker.continuations : Breaker
  | r, .form true _, gap =>
    if r.shell.kind == .list && r.afterLong && !gap.any Mark.isInserted then some 0 else none
  | _, _, _ => none

theorem anySpansLines_append (ts us : List Token) :
    Token.anySpansLines (ts ++ us) = (Token.anySpansLines ts || Token.anySpansLines us) := by
  induction ts with
  | nil => rfl
  | cons t rest ih => rw [List.cons_append, Token.anySpansLines, ih, Token.anySpansLines,
      Bool.or_assoc]

theorem anySpansLines_gapTokens (gap : Gap) :
    Token.anySpansLines (gapTokens gap) = endsLine gap := by
  induction gap with
  | nil => rfl
  | cons m rest ih =>
    have hm : m.token.spansLines = m.isNewline := by
      cases m with
      | blank c =>
        simp [Mark.token, Token.char, Token.plain, Token.spansLines, hasNewline, Mark.isNewline]
      | lineBreak => rfl
    rw [gapTokens, List.map_cons, Token.anySpansLines, hm, ← gapTokens, ih]
    rfl

theorem hasNewline_word (w : Word) : hasNewline w.1 = false := by
  rw [hasNewline, List.any_eq_false]
  intro c hc
  have hb := isBlank_of_mem_word hc
  simp only [Bool.or_eq_true, beq_iff_eq, not_or]
  constructor
  · rintro rfl
    revert hb
    decide
  · rintro rfl
    revert hb
    decide

mutual

theorem Form.spansLines_token : ∀ f : Form Gap, f.token.spansLines = f.spans endsLine
  | .word w => hasNewline_word w
  | .stray b => by cases b <;> rfl
  | .str raw closed => by
    cases raw with
    | nil => cases closed <;> rfl
    | cons c rest =>
      have hmark : hasNewline [quotationMark] = false := rfl
      cases closed <;>
        simp [Form.token, stringToken, Token.spansLines, Token.anySpansLines, Token.char,
          Token.plain, Form.spans, hmark]
  | .comment text => by
    have hmark : hasNewline [commentMark] = false := rfl
    cases text with
    | nil => rfl
    | cons c rest =>
      simp [Form.token, commentToken, Token.spansLines, Token.anySpansLines, Token.char,
        Token.plain, Form.spans, hmark]
  | .group b row closed => by
    have hrow := row.anySpansLines_tokens
    have hopen : (Token.char b.openChar).spansLines = false := by cases b <;> rfl
    have hclose : Token.anySpansLines (closerTokens b closed) = false := by
      cases closed <;> cases b <;> rfl
    rw [Form.token, Token.spansLines, Token.anySpansLines, anySpansLines_append, hrow, hopen,
      hclose, Form.spans, Bool.or_false, Bool.false_or]
  | .quoted gap form => by
    have hform := form.spansLines_token
    have hmark : (Token.char quoteMark).spansLines = false := rfl
    rw [Form.token, Token.spansLines, Token.anySpansLines, anySpansLines_append,
      anySpansLines_gapTokens, Token.anySpansLines, Token.anySpansLines, hform, hmark, Form.spans,
      Bool.or_false, Bool.false_or]
  | .bareQuote gap => by
    have hmark : (Token.char quoteMark).spansLines = false := rfl
    rw [Form.token, Token.spansLines, Token.anySpansLines, anySpansLines_gapTokens, hmark,
      Form.spans, Bool.false_or]

theorem Row.anySpansLines_tokens : ∀ row : Row Gap,
    Token.anySpansLines row.tokens = row.spans endsLine
  | .last gap => anySpansLines_gapTokens gap
  | .item gap form rest => by
    have hform := form.spansLines_token
    have hrest := rest.anySpansLines_tokens
    rw [Row.tokens, anySpansLines_append, anySpansLines_gapTokens, Token.anySpansLines, hform,
      hrest, Row.spans, Bool.or_assoc]

end

theorem alreadyBroken_gap {before : List Token} (h : Tight before) (gap : Gap)
    (rest : List Token) :
    alreadyBroken (before ++ (gapTokens gap ++ rest)) (before.length + gap.length) =
      gap.any Mark.isInserted := by
  have htrail : trailingWhitespace (before ++ gapTokens gap) = gapTokens gap := by
    have hall := trimEnd_append_trailingWhitespace (before ++ gapTokens gap)
    rw [trimEnd_append_gap h] at hall
    exact List.append_cancel_left hall
  rw [alreadyBroken, ← List.append_assoc, ← length_append_gap, List.take_left, htrail, gapTokens,
    List.any_map]
  refine congrArg (fun test => gap.any test) (funext fun m => ?_)
  cases m <;> rfl

/-- Whether the node at the place before, if there is one, takes several lines. -/
def longAt (children : List Token) (previous : Option Nat) : Bool :=
  (previous.bind fun i => children[i]?).any Token.spansLines

theorem longAt_append {before : List Token} {previous : Option Nat}
    (h : ∀ i ∈ previous, i < before.length) (rest : List Token) :
    longAt (before ++ rest) previous = longAt before previous := by
  cases previous with
  | none => rfl
  | some i =>
    rw [longAt, longAt, Option.bind_some, Option.bind_some,
      List.getElem?_append_left (h i rfl)]

theorem neighbours_toList_append (previous : Option Nat) (i : Nat) (rest : List Nat) :
    neighbours (previous.toList ++ i :: rest) =
      (previous.map fun j => (j, i)).toList ++ neighbours ((some i).toList ++ rest) := by
  cases previous <;> rfl

/-- Whether the line is broken between neighbours. -/
def continues (children : List Token) (p : Nat × Nat) : Bool :=
  (children[p.1]?).any Token.spansLines && !alreadyBroken children p.2

/-- A form at the end is long if it takes several lines. -/
theorem longAt_form (before : List Token) (gap : Gap) (form : Form Gap) :
    longAt (before ++ gapTokens gap ++ [form.token]) (some (before.length + gap.length)) =
      form.spans endsLine := by
  have hget := getElem?_form before [] gap form
  rw [List.append_assoc, longAt, Option.bind_some, hget, ← form.spansLines_token]
  rfl

/-- The line is broken at the end of a gap without inserted breaks, after a long node. -/
theorem continues_gap {before : List Token} {j : Nat} (hj : j < before.length) (ht : Tight before)
    (gap : Gap) (rest : List Token) :
    continues (before ++ (gapTokens gap ++ rest)) (j, before.length + gap.length) =
      (longAt before (some j) && !gap.any Mark.isInserted) := by
  have hlong := @longAt_append before (some j) (fun i hi => by cases hi; exact hj)
    (gapTokens gap ++ rest)
  rw [continues, alreadyBroken_gap ht, ← hlong]
  rfl

theorem filter_continues_neighbours :
    ∀ (row : Row Gap) (r : Reach) (before rest : List Token) (previous : Option Nat),
      r.shell.kind = .list → (∀ i ∈ previous, i < before.length) →
        longAt before previous = r.afterLong → Tight before →
          ((neighbours (previous.toList ++ row.places Form.isElement before.length)).filter
              (continues (before ++ (row.tokens ++ rest)))).map (fun p => (p.2, 0)) =
            row.breaks endsLine .continuations r before.length
  | .last gap, r, before, rest, previous, _, _, _, _ => by
    have hnone : Breaker.continuations r r.shell.next gap = none := by
      rcases hs : r.shell with _ | ⟨b, _ | _⟩ <;> rfl
    rw [Row.places, Row.breaks, hnone]
    cases previous <;> rfl
  | .item gap form others, r, before, rest, previous, hk, hprev, hlong, ht => by
    rw [Row.places, Row.breaks, Form.next]
    cases hf : form.isElement with
    | false =>
      -- a comment is no element, so the next one has the same neighbour
      have ih := filter_continues_neighbours others (r.after false (form.spans endsLine))
        (before ++ gapTokens gap ++ [form.token]) rest previous hk
        (fun i hi => by have := hprev i hi; rw [length_append_form]; omega)
        (by rw [List.append_assoc, longAt_append hprev, hlong]; rfl) (tight_form _ form)
      rw [length_append_form, ← append_tokens_item] at ih
      exact ih
    | true =>
      -- the element is judged by its own neighbour, and is that of the next one
      have ih := filter_continues_neighbours others (r.after true (form.spans endsLine))
        (before ++ gapTokens gap ++ [form.token]) rest (some (before.length + gap.length)) hk
        (fun i hi => by cases hi; rw [length_append_form]; omega) (longAt_form before gap form)
        (tight_form _ form)
      rw [length_append_form, ← append_tokens_item] at ih
      rw [if_pos rfl, List.singleton_append, neighbours_toList_append, List.filter_append,
        List.map_append, ih]
      congr 1
      cases previous with
      | none =>
        have hfalse : r.afterLong = false := hlong.symm
        simp [Breaker.continuations, hfalse]
      | some j =>
        have hchildren : before ++ ((Row.item gap form others).tokens ++ rest) =
            before ++ (gapTokens gap ++ form.token :: (others.tokens ++ rest)) := by
          simp [Row.tokens]
        have hhere : continues (before ++ ((Row.item gap form others).tokens ++ rest))
            (j, before.length + gap.length) = (r.afterLong && !gap.any Mark.isInserted) := by
          rw [hchildren, continues_gap (hprev j rfl) ht, hlong]
        rw [Option.map_some, Option.toList_some, List.filter_singleton, hhere]
        simp only [Breaker.continuations, hk, BEq.rfl, Bool.true_and]
        cases r.afterLong && !gap.any Mark.isInserted <;> rfl

theorem realizes_continuations :
    Realizes breakContinuations endsLine Breaker.continuations.rule leave := by
  refine Breaker.realizes (fun kind ts hk => by rcases hk with rfl | rfl | rfl <;> rfl)
    fun shell isBindings row hm => ?_
  by_cases hk : shell.kind = .list
  · have hplaces := filter_continues_neighbours row (.start shell isBindings row)
      shell.openerTokens shell.closerTokens none hk (fun i hi => by cases hi) rfl
      (tight_openerTokens shell)
    have helements := elements_enclose hm
    rw [hk] at helements
    rw [hk, breakContinuations, breakBeforeEach_eq, helements, List.map_map, ← hplaces]
    simp only [Shell.enclose, List.append_assoc]
    rfl
  · have hnone : ∀ r' : Reach, r'.shell = shell → ∀ next gap,
        Breaker.continuations r' next gap = none := by
      intro r' hr next gap
      have hbeq : (shell.kind == Kind.list) = false := beq_eq_false_iff_ne.mpr hk
      rcases next with ⟨_ | _, _⟩ | _ | _ <;> simp [Breaker.continuations, hr, hbeq]
    have hedit : breakContinuations shell.kind (shell.enclose row.tokens) =
        shell.enclose row.tokens := by
      rcases shell with _ | ⟨_ | _, _⟩
      · rfl
      · exact absurd rfl hk
      · rfl
    rw [hedit, Row.breaks_eq_nil endsLine Breaker.continuations hnone row _ _ rfl]
    rfl

end ExactLisp.Layout
