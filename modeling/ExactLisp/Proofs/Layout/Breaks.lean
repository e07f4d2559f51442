import ExactLisp.Proofs.Layout.Places

/-!
# Breaking lines in a row

Most passes do nothing but break lines, so their rules are given by where they do so
(`Breaker`): the gap there becomes a line break and perhaps some spaces, and all other
gaps stay. This is what breaking the line before each place does to the children that
a row gives (`breakAt_row`). It remains to show for each pass that the places it
computes are those that its rule says.
-/

namespace ExactLisp.Layout

/-- Whether the line is broken at a gap, and how many spaces follow the line break. -/
abbrev Breaker := Reach → Next → Gap → Option Nat

/-- A space in a gap. -/
def Mark.space : Mark := .blank ⟨' ', isBlank_space⟩

/-- What becomes of a gap at which the line is broken. -/
def broken (extra : Nat) : Gap := .lineBreak :: List.replicate extra .space

/-- What a breaker does to a gap. -/
def Breaker.rule (σ : Breaker) : Rule
  | .inRow r next, gap => ((σ r next gap).map broken).getD gap
  | .afterQuote _, gap => gap

/-- Break the line before some places, each with the spaces that follow the line break. -/
def breakAt (children : List Token) (breaks : List (Nat × Nat)) : List Token :=
  breaks.foldr (fun p changed => breakBefore changed p.1 p.2) children

theorem breakBeforeEach_eq (children : List Token) (places : List Nat) :
    breakBeforeEach children places = breakAt children (places.map fun i => (i, 0)) := by
  rw [breakBeforeEach, breakAt, List.foldr_map]

/-- Where a breaker breaks the line in a row that starts at some place. -/
def Row.breaks (spans : Gap → Bool) (σ : Breaker) (r : Reach) (start : Nat) :
    Row Gap → List (Nat × Nat)
  | .last gap => ((σ r r.shell.next gap).map fun extra => (start + gap.length, extra)).toList
  | .item gap form rest =>
    ((σ r form.next gap).map fun extra => (start + gap.length, extra)).toList ++
      rest.breaks spans σ (r.after form.isElement (form.spans spans)) (start + gap.length + 1)

/-! ## Breaking at one gap -/

/-- Some nodes that no white space ends. -/
def Tight (ts : List Token) : Prop := ∀ t ∈ ts.getLast?, t.isWhitespace = false

theorem tight_openerTokens (shell : Shell) : Tight shell.openerTokens := by
  cases shell with
  | root =>
    intro t h
    cases h
  | group b closed =>
    intro t h
    cases h
    cases b <;> rfl

theorem tight_form (ts : List Token) (form : Form Gap) : Tight (ts ++ [form.token]) := by
  intro t h
  rw [List.getLast?_concat] at h
  cases h
  exact isWhitespace_form form

theorem trimEnd_append_gap {ts : List Token} (h : Tight ts) (gap : Gap) :
    trimEnd (ts ++ gapTokens gap) = ts := by
  have hgap : ∀ t ∈ (gapTokens gap).reverse, t.isWhitespace = true :=
    fun t ht => isWhitespace_of_mem_gapTokens (List.mem_reverse.mp ht)
  have hts : ts.reverse.dropWhile Token.isWhitespace = ts.reverse := by
    cases hr : ts.reverse with
    | nil => rfl
    | cons t rest =>
      have hlast : ts.getLast? = some t := by
        rw [← List.head?_reverse, hr]
        rfl
      rw [List.dropWhile_cons_of_neg]
      simp [h t hlast]
  rw [trimEnd, List.reverse_append, List.dropWhile_append_of_pos hgap, hts, List.reverse_reverse]

theorem gapTokens_broken (extra : Nat) :
    gapTokens (broken extra) = .newline :: List.replicate extra .space := by
  rw [gapTokens, broken, List.map_cons, List.map_replicate]
  rfl

/-- To break the line before what follows a gap is to replace the gap. -/
theorem breakBefore_gap {before : List Token} (h : Tight before) (gap : Gap) (rest : List Token)
    (extra : Nat) :
    breakBefore (before ++ (gapTokens gap ++ rest)) (before.length + gap.length) extra =
      before ++ (gapTokens (broken extra) ++ rest) := by
  rw [breakBefore, ← List.append_assoc, ← length_append_gap, List.take_left, List.drop_left,
    trimEnd_append_gap h, gapTokens_broken]
  rfl

theorem breakAt_append (children : List Token) (first others : List (Nat × Nat)) :
    breakAt children (first ++ others) = breakAt (breakAt children others) first := by
  rw [breakAt, breakAt, breakAt, List.foldr_append]

/-- A breaker at one gap. -/
theorem breakAt_gap {before : List Token} (h : Tight before) (σ : Breaker) (r : Reach)
    (next : Next) (gap : Gap) (rest : List Token) :
    breakAt (before ++ (gapTokens gap ++ rest))
        ((σ r next gap).map fun extra => (before.length + gap.length, extra)).toList =
      before ++ (gapTokens (σ.rule (.inRow r next) gap) ++ rest) := by
  cases hσ : σ r next gap with
  | none => simp [breakAt, Breaker.rule, hσ]
  | some extra =>
    have hone := breakBefore_gap h gap rest extra
    simpa [breakAt, Breaker.rule, hσ] using hone

/-- **Breaking the line at the places of a breaker** is applying its rule to the row. -/
theorem breakAt_row (spans : Gap → Bool) (σ : Breaker) :
    ∀ (row : Row Gap) (r : Reach) (before rest : List Token), Tight before →
      breakAt (before ++ (row.tokens ++ rest)) (row.breaks spans σ r before.length) =
        before ++ ((row.editOwn spans σ.rule leave r).tokens ++ rest)
  | .last gap, r, before, rest, h => breakAt_gap h σ r r.shell.next gap rest
  | .item gap form others, r, before, rest, h => by
    -- what stands before the other forms ends with this one
    have ih := breakAt_row spans σ others (r.after form.isElement (form.spans spans))
      (before ++ gapTokens gap ++ [form.token]) rest (tight_form _ form)
    have hone := breakAt_gap h σ r form.next gap
      (form.token :: ((others.editOwn spans σ.rule leave
        (r.after form.isElement (form.spans spans))).tokens ++ rest))
    rw [length_append_form] at ih
    rw [Row.breaks, breakAt_append, append_tokens_item, ih, Row.editOwn, Form.prepare_leave,
      ite_self, Row.tokens]
    simp only [List.append_assoc, List.cons_append] at hone ⊢
    exact hone

/-- An edit that breaks lines where a breaker says realizes the rule of the breaker. -/
theorem Breaker.realizes {edit : Kind → List Token → List Token} {spans : Gap → Bool}
    {σ : Breaker}
    (hleave : ∀ kind ts, kind = .str ∨ kind = .comment ∨ kind = .quote → edit kind ts = ts)
    (hrow : ∀ (shell : Shell) (isBindings : Bool) (row : Row Gap), row.Matched shell.own →
      edit shell.kind (shell.enclose row.tokens) =
        breakAt (shell.enclose row.tokens)
          (row.breaks spans σ (.start shell isBindings row) shell.openerTokens.length)) :
    Realizes edit spans σ.rule leave where
  verbatim kind hk ts := by
    refine hleave kind ts ?_
    cases kind with
    | str => exact Or.inl rfl
    | comment => exact Or.inr (Or.inl rfl)
    | root | list | array | quote => cases hk
  inRow shell isBindings row hm := by
    have hbreak := breakAt_row spans σ row (.start shell isBindings row) shell.openerTokens
      shell.closerTokens (tight_openerTokens shell)
    rw [leave, ite_self, hrow shell isBindings row hm]
    simp only [Shell.enclose, List.append_assoc]
    exact hbreak
  quoted gap form := hleave .quote _ (Or.inr (Or.inr rfl))
  bareQuote gap := hleave .quote _ (Or.inr (Or.inr rfl))

/-! ## Breakers that count elements -/

namespace Breaker

/-- Break before elements and before the closing bracket, by the number of elements before. -/
def counting (atElement atCloser : Nat → Option Nat) : Breaker
  | r, .form true _, _ => atElement r.seen
  | r, .closer, _ => atCloser r.seen
  | _, _, _ => none

/-- Break lines only in some rows. -/
def given (cond : Reach → Bool) (σ : Breaker) : Breaker :=
  fun r next gap => if cond r then σ r next gap else none

/-- Break lines only in lists that start with one of some words. -/
def headed (heads : List String) : Breaker → Breaker := given fun r => r.isHeaded heads

end Breaker

/-- A breaker that breaks nothing in a row. -/
theorem Row.breaks_eq_nil {shell : Shell} (spans : Gap → Bool) (σ : Breaker)
    (h : ∀ r : Reach, r.shell = shell → ∀ next gap, σ r next gap = none) :
    ∀ (row : Row Gap) (r : Reach) (start : Nat), r.shell = shell →
      row.breaks spans σ r start = []
  | .last gap, r, start, hr => by
    rw [breaks, h r hr]
    rfl
  | .item gap form rest, r, start, hr => by
    rw [breaks, h r hr, rest.breaks_eq_nil spans σ h (r.after form.isElement (form.spans spans))
      (start + gap.length + 1) hr]
    rfl

theorem Row.breaks_given (spans : Gap → Bool) {cond : Reach → Bool}
    (hc : ∀ r isElement long, cond (r.after isElement long) = cond r) (σ : Breaker) :
    ∀ (row : Row Gap) (r : Reach) (start : Nat),
      row.breaks spans (σ.given cond) r start =
        if cond r then row.breaks spans σ r start else []
  | .last gap, r, start => by
    rw [breaks, breaks, Breaker.given]
    split <;> rfl
  | .item gap form rest, r, start => by
    have ih := rest.breaks_given spans hc σ (r.after form.isElement (form.spans spans))
      (start + gap.length + 1)
    rw [breaks, breaks, ih, hc, Breaker.given]
    split <;> rfl

theorem Row.breaks_counting (spans : Gap → Bool) (atElement atCloser : Nat → Option Nat) :
    ∀ (row : Row Gap) (r : Reach) (start : Nat),
      row.breaks spans (.counting atElement atCloser) r start =
        (((row.places Form.isElement start).zipIdx r.seen).filterMap fun p =>
          (atElement p.2).map fun extra => (p.1, extra)) ++
        if r.shell.closes then
          ((atCloser (r.seen + row.count)).map fun extra =>
            (start + row.tokens.length, extra)).toList
        else []
  | .last gap, r, start => by
    cases hs : r.shell with
    | root => simp [breaks, hs, Shell.next, Shell.closes, Breaker.counting, places]
    | group b closed =>
      cases closed <;>
        simp [breaks, hs, Shell.next, Shell.closes, Breaker.counting, places, count, tokens,
          gapTokens]
  | .item gap form rest, r, start => by
    have ih := rest.breaks_counting spans atElement atCloser
      (r.after form.isElement (form.spans spans)) (start + gap.length + 1)
    have hlen : start + (Row.item gap form rest).tokens.length =
        start + gap.length + 1 + rest.tokens.length := by
      simp [tokens, gapTokens]
      omega
    rw [breaks, ih, places, hlen, count]
    cases hf : form.isElement with
    | true =>
      -- the break before an element is the first of all, and the others are counted on from there
      have hseen : (r.after true (form.spans spans)).seen = r.seen + 1 := rfl
      have hnext : Breaker.counting atElement atCloser r form.next gap = atElement r.seen := by
        rw [Form.next, hf, Breaker.counting]
      have hcount : r.seen + 1 + rest.count = r.seen + (true.toNat + rest.count) := by
        simp [Nat.add_assoc]
      rw [hnext, hseen, if_pos rfl, List.singleton_append, List.zipIdx_cons, List.filterMap_cons,
        ← hcount]
      cases atElement r.seen <;> rfl
    | false =>
      -- a comment is not counted
      have hseen : (r.after false (form.spans spans)).seen = r.seen := rfl
      have hnext : Breaker.counting atElement atCloser r form.next gap = none := by
        rw [Form.next, hf]
        rfl
      have hcount : r.seen + rest.count = r.seen + (false.toNat + rest.count) := by simp
      rw [hnext, hseen, if_neg Bool.false_ne_true, ← hcount]
      rfl

/-- The places of all elements but the first few. -/
theorem filterMap_zipIdx_from (places : List Nat) (n : Nat) :
    ∀ k, ((places.zipIdx k).filterMap fun p =>
        (if n ≤ p.2 then some 0 else none).map fun extra => (p.1, extra)) =
      (places.drop (n - k)).map fun i => (i, 0) := by
  induction places with
  | nil => simp
  | cons i rest ih =>
    intro k
    rw [List.zipIdx_cons, List.filterMap_cons, ih (k + 1)]
    by_cases h : n ≤ k
    · have h1 : n - (k + 1) = 0 := by omega
      have h2 : n - k = 0 := by omega
      simp [h, h1, h2]
    · obtain ⟨m, hm⟩ : ∃ m, n - k = m + 1 := ⟨n - k - 1, by omega⟩
      have h1 : n - (k + 1) = m := by omega
      simp [h, h1, hm]

namespace Breaker

/-- Break before all elements but the first few. -/
def fromElement (n : Nat) : Breaker := counting (fun i => if n ≤ i then some 0 else none) fun _ => none

end Breaker

theorem breakAt_fromElement {shell : Shell} {row : Row Gap} (h : row.Matched shell.own)
    (spans : Gap → Bool) (n : Nat) (isBindings : Bool) :
    breakAt (shell.enclose row.tokens) (row.breaks spans (.fromElement n)
        (.start shell isBindings row) shell.openerTokens.length) =
      breakBeforeEach (shell.enclose row.tokens)
        ((elements shell.kind (shell.enclose row.tokens)).drop n) := by
  have hseen : (Reach.start shell isBindings row).seen = 0 := rfl
  rw [breakBeforeEach_eq, elements_enclose h, Breaker.fromElement, Row.breaks_counting, hseen,
    filterMap_zipIdx_from]
  simp

end ExactLisp.Layout
