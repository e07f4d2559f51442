import ExactLisp.Proofs.Layout.Rules

/-!
# The rule of the pass for let forms

The pass for let forms is the only one that reaches into a child: at a let form it
breaks the lines of the bindings in advance, before it is shown them. When it then
comes to the bindings it may break lines in them once more, as they may look like a
let form themselves. Both edits only put line breaks in place of gaps, so what
becomes of a gap can be said at once.
-/

namespace ExactLisp.Layout

/-! ## Edits of the own gaps of a row -/

namespace Row

theorem editOwn_eq_self {rule : Rule} {shell : Shell} {isBindings : Bool}
    (h : ∀ r : Reach, r.shell = shell → r.isBindings = isBindings →
      ∀ next gap, rule (.inRow r next) gap = gap) :
    ∀ (row : Row Gap) (r : Reach), r.shell = shell → r.isBindings = isBindings →
      row.editOwn never rule leave r = row
  | .last gap, r, hs, hb => by rw [editOwn, h r hs hb]
  | .item gap form rest, r, hs, hb => by
    rw [editOwn, h r hs hb, Form.prepare_leave, ite_self,
      rest.editOwn_eq_self h (r.after form.isElement (form.spans never)) hs hb]

theorem editOwn_editOwn (first second : Rule) (prepare : Prepare) :
    ∀ (row : Row Gap) (r : Reach),
      (row.editOwn never first leave r).editOwn never second prepare r =
        row.editOwn never (fun s g => second s (first s g)) prepare r
  | .last _, _ => rfl
  | .item gap form rest, r => by
    have ih := rest.editOwn_editOwn first second prepare
      (r.after form.isElement (form.spans never))
    rw [editOwn, Form.prepare_leave, ite_self, editOwn, editOwn, ih]

theorem head?_editOwn (rule : Rule) : ∀ (row : Row Gap) (r : Reach),
    (row.editOwn never rule leave r).head? = row.head?
  | .last _, _ => rfl
  | .item gap form rest, r => by
    rw [editOwn, Form.prepare_leave, ite_self, head?, head?, rest.head?_editOwn rule]

theorem count_editOwn (rule : Rule) : ∀ (row : Row Gap) (r : Reach),
    (row.editOwn never rule leave r).count = row.count
  | .last _, _ => rfl
  | .item gap form rest, r => by
    rw [editOwn, Form.prepare_leave, ite_self, count, count, rest.count_editOwn rule]

theorem matched_editOwn (rule : Rule) {own : Option Bracket} : ∀ (row : Row Gap) (r : Reach),
    row.Matched own → (row.editOwn never rule leave r).Matched own
  | .last _, _, _ => trivial
  | .item gap form rest, r, h => by
    rw [editOwn, Form.prepare_leave, ite_self]
    exact ⟨h.1, h.2.1, rest.matched_editOwn rule _ h.2.2⟩

end Row

theorem Reach.start_editOwn (shell : Shell) (isBindings : Bool) (rule : Rule) (r : Reach)
    (row : Row Gap) :
    Reach.start shell isBindings (row.editOwn never rule leave r) =
      .start shell isBindings row := by
  rw [start, start, Row.head?_editOwn, Row.count_editOwn]

/-! ## The bindings -/

/-- All bindings of a let form but the first. -/
def Breaker.bindings : Breaker := (fromElement 1).given Reach.isBindings

/-- The edit of bindings in advance. -/
def prepareBindings : Prepare := fun shell row =>
  if shell.kind = .list then row.editOwn never Breaker.bindings.rule leave (.start shell true row)
  else row

/-- Whether a row has been edited in advance or not, its lines are broken if it is bindings. -/
theorem prepareBindings_eq (shell : Shell) (isBindings : Bool) (row : Row Gap) :
    (if isBindings then prepareBindings shell row else row) =
      row.editOwn never Breaker.bindings.rule leave (.start shell isBindings row) := by
  have hself : (Reach.start shell isBindings row).isBindings = false →
      row.editOwn never Breaker.bindings.rule leave (.start shell isBindings row) = row := by
    intro hb
    refine Row.editOwn_eq_self (fun r _ hr next gap => ?_) row _ rfl hb
    simp [Breaker.rule, Breaker.bindings, Breaker.given, hr]
  cases isBindings with
  | false => exact (hself rfl).symm
  | true =>
    rw [if_pos rfl, prepareBindings]
    split
    · rfl
    next hk =>
      refine (hself ?_).symm
      simpa [Reach.start] using hk

/-- To break the lines of bindings is to edit them in advance. -/
theorem breakBindings_token {f : Form Gap} (h : f.Matched) :
    breakBindings f.token = (f.prepare prepareBindings).token := by
  cases f with
  | group b row closed =>
    have hm : row.Matched (Shell.group b closed).own := h
    cases b with
    | square => rfl
    | round =>
      have hbreak := breakAt_row never .bindings row (.start (.group .round closed) true row)
        (Shell.group .round closed).openerTokens (Shell.group .round closed).closerTokens
        (tight_openerTokens _)
      have hplaces := breakAt_fromElement hm never 1 true
      have hcond : (Reach.start (.group .round closed) true row).isBindings = true := rfl
      rw [Breaker.bindings, Row.breaks_given never (fun _ _ _ => rfl), if_pos hcond] at hbreak
      rw [Shell.enclose, List.append_assoc, hbreak] at hplaces
      have hprep : (Form.group .round row closed).prepare prepareBindings =
          .group .round (row.editOwn never Breaker.bindings.rule leave
            (.start (.group .round closed) true row)) closed := rfl
      rw [hprep, Form.token_group, Form.token_group]
      refine congrArg (Token.aggregate .list) ?_
      rw [Shell.enclose, List.append_assoc, Shell.enclose, List.append_assoc]
      exact hplaces.symm
  | word | stray | str | comment | quoted | bareQuote => rfl

/-! ## The body -/

/-- The body forms of a let form. -/
def Breaker.letBody : Breaker := (fromElement 2).given Reach.isLet

/-- Beyond the bindings nothing is edited in advance. -/
theorem editOwn_prepareBindings_of_le (rule : Rule) : ∀ (row : Row Gap) (r : Reach), 2 ≤ r.seen →
    row.editOwn never rule prepareBindings r = row.editOwn never rule leave r
  | .last _, _, _ => rfl
  | .item gap form rest, r, h => by
    have hat : r.atBindings = false := by
      have hne : (r.seen == 1) = false := beq_eq_false_iff_ne.mpr (by omega)
      rw [Reach.atBindings, hne, Bool.and_false]
    have ih := editOwn_prepareBindings_of_le rule rest
      (r.after form.isElement (form.spans never)) (Nat.le_trans h (Nat.le_add_right ..))
    rw [Row.editOwn, Row.editOwn, hat, ih]
    rfl

theorem modify_append_cons (ts : List Token) (t : Token) (rest : List Token)
    (f : Token → Token) : (ts ++ t :: rest).modify ts.length f = ts ++ f t :: rest := by
  induction ts with
  | nil => rfl
  | cons u ts ih => simpa using ih

/-- No line is broken before the bindings. -/
theorem letBody_rule_of_le {r : Reach} (hlet : r.isLet = true) (hseen : r.seen ≤ 1)
    (form : Form Gap) (gap : Gap) : Breaker.letBody.rule (.inRow r form.next) gap = gap := by
  have hlt : ¬ 2 ≤ r.seen := by omega
  rw [Form.next]
  cases form.isElement <;>
    simp [Breaker.rule, Breaker.letBody, Breaker.given, Breaker.fromElement, Breaker.counting,
      hlet, hlt]

/-- A form before the bindings is not edited in advance. -/
theorem prepare_of_not_bindings {r : Reach} {form : Form Gap}
    (hat : ¬ (form.isElement = true ∧ r.seen = 1)) :
    (if r.atBindings then form.prepare prepareBindings else form) = form := by
  cases hf : form.isElement with
  | true =>
    have hne : (r.seen == 1) = false := beq_eq_false_iff_ne.mpr fun hr => hat ⟨hf, hr⟩
    have hfalse : r.atBindings = false := by rw [Reach.atBindings, hne, Bool.and_false]
    rw [hfalse]
    rfl
  | false =>
    cases form with
    | comment => exact ite_self _
    | _ => cases hf

/-- Behind a form before the bindings the bindings are still to come. -/
theorem seen_after_of_not_bindings {r : Reach} {isElement : Bool} (spans : Bool)
    (hseen : r.seen ≤ 1) (hat : ¬ (isElement = true ∧ r.seen = 1)) :
    (r.after isElement spans).seen ≤ 1 := by
  cases isElement with
  | false => exact hseen
  | true =>
    have hne : r.seen ≠ 1 := fun hr => hat ⟨rfl, hr⟩
    show r.seen + 1 ≤ 1
    omega

/-- What modifying the node at the place of the bindings does to a row. -/
theorem modify_bindings : ∀ (row : Row Gap) (r : Reach) (before rest : List Token) (place : Nat),
    row.Matched r.shell.own → r.isLet = true → r.seen ≤ 1 →
      (row.places Form.isElement before.length)[1 - r.seen]? = some place →
        (before ++ ((row.editOwn never Breaker.letBody.rule leave r).tokens ++ rest)).modify place
            breakBindings =
          before ++ ((row.editOwn never Breaker.letBody.rule prepareBindings r).tokens ++ rest)
  | .last _, r, before, rest, place, _, _, _, hp => by
    cases hr : 1 - r.seen <;> simp [Row.places] at hp
  | .item gap form others, r, before, rest, place, hm, hlet, hseen, hp => by
    rw [Row.places] at hp
    rw [Row.editOwn, Row.editOwn, letBody_rule_of_le hlet hseen, Form.prepare_leave, ite_self,
      Row.tokens, Row.tokens]
    by_cases hat : form.isElement = true ∧ r.seen = 1
    · -- this form is the bindings
      obtain ⟨hf, hr⟩ := hat
      have hatB : r.atBindings = true := by rw [Reach.atBindings, hlet, hr]; rfl
      rw [hf, if_pos rfl, hr] at hp
      have hplace : before.length + gap.length = place := by simpa using hp
      have hrest := editOwn_prepareBindings_of_le Breaker.letBody.rule others
        (r.after form.isElement (form.spans never)) (by simp [Reach.after, hf, hr])
      have hmod := modify_append_cons (before ++ gapTokens gap) form.token
        ((others.editOwn never Breaker.letBody.rule leave
          (r.after form.isElement (form.spans never))).tokens ++ rest) breakBindings
      rw [length_append_gap, hplace] at hmod
      rw [hatB, if_pos rfl, hrest, ← breakBindings_token hm.1]
      simpa using hmod
    · -- the bindings come later
      have hp1 : (others.places Form.isElement (before ++ gapTokens gap ++ [form.token]).length)[
          1 - (r.after form.isElement (form.spans never)).seen]? = some place := by
        rw [length_append_form]
        cases hf : form.isElement with
        | false => rw [hf] at hp; exact hp
        | true =>
          have hr : r.seen = 0 := by
            have hne : r.seen ≠ 1 := fun hr => hat ⟨hf, hr⟩
            omega
          have hafter : (r.after true (form.spans never)).seen = 1 := congrArg (· + 1) hr
          rw [hf, hr] at hp
          rw [hafter]
          exact hp
      have ih := modify_bindings others (r.after form.isElement (form.spans never))
        (before ++ gapTokens gap ++ [form.token]) rest place hm.2.2 hlet
        (seen_after_of_not_bindings _ hseen hat) hp1
      rw [prepare_of_not_bindings hat]
      simpa using ih

/-! ## The pass -/

/-- A let form breaks its bindings and its body. -/
def letRule : Rule := fun s g => Breaker.letBody.rule s (Breaker.bindings.rule s g)

/-- Outside of let forms nothing is broken, and nothing is edited in advance. -/
theorem editOwn_letBody_eq_self : ∀ (row : Row Gap) (r : Reach), r.isLet = false →
    row.editOwn never Breaker.letBody.rule prepareBindings r = row
  | .last gap, r, h => by
    simp [Row.editOwn, Breaker.rule, Breaker.letBody, Breaker.given, h]
  | .item gap form rest, r, h => by
    have hat : r.atBindings = false := by rw [Reach.atBindings, h, Bool.false_and]
    rw [Row.editOwn, hat, editOwn_letBody_eq_self rest (r.after form.isElement (form.spans never)) h]
    simp [Breaker.rule, Breaker.letBody, Breaker.given, h]

theorem breakLet_enclose {shell : Shell} {row : Row Gap} (hm : row.Matched shell.own)
    {isBindings : Bool}
    (hhead : (Reach.start shell isBindings row).isHeaded ["let", "let*"] = true) :
    breakLet (shell.enclose row.tokens) =
      shell.enclose (row.editOwn never Breaker.letBody.rule prepareBindings
        (.start shell isBindings row)).tokens := by
  have hk : shell.kind = .list := kind_of_isHeaded hhead
  have helements := elements_enclose hm
  have hcount := Row.length_places_isElement shell.openerTokens.length row
  have hlet : (Reach.start shell isBindings row).isLet = decide (3 ≤ row.count) := by
    rw [Reach.isLet, hhead, Bool.true_and]
    rfl
  -- without a body nothing is broken
  have hshort : row.count < 3 → row.editOwn never Breaker.letBody.rule prepareBindings
      (.start shell isBindings row) = row := by
    intro h
    refine editOwn_letBody_eq_self row _ ?_
    rw [hlet, decide_eq_false (by omega)]
  rw [hk] at helements
  rw [breakLet, helements]
  cases hp : row.places Form.isElement shell.openerTokens.length with
  | nil =>
    rw [hp] at hcount
    rw [hshort (by simp [← hcount])]
  | cons first others =>
    rw [hp] at hcount
    cases others with
    | nil => rw [hshort (by simp [← hcount])]
    | cons bindings body =>
      cases body with
      | nil => rw [hshort (by simp [← hcount])]
      | cons form forms =>
        have htrue : (Reach.start shell isBindings row).isLet = true := by
          rw [hlet, ← hcount]
          simp
        have hbreak := breakAt_row never .letBody row (.start shell isBindings row)
          shell.openerTokens shell.closerTokens (tight_openerTokens _)
        have hplaces := breakAt_fromElement hm never 2 isBindings
        rw [Breaker.letBody, Row.breaks_given never (fun _ _ _ => rfl), if_pos htrue,
          ← List.append_assoc, ← Shell.enclose] at hbreak
        rw [hk, helements, hp] at hplaces
        have hmod := modify_bindings row (.start shell isBindings row) shell.openerTokens
          shell.closerTokens bindings hm htrue (Nat.zero_le _) (by rw [hp]; rfl)
        show (breakBeforeEach _ (form :: forms)).modify bindings breakBindings = _
        -- the body is broken first, as its places are those of the row before
        have hbody : breakBeforeEach (shell.enclose row.tokens) (form :: forms) =
            breakBeforeEach (shell.enclose row.tokens)
              ((first :: bindings :: form :: forms).drop 2) := rfl
        rw [hbody, ← hplaces, hbreak]
        refine hmod.trans ?_
        rw [Shell.enclose, List.append_assoc]

/-- What the pass does to a row of which some gaps may have been edited in advance. -/
theorem realizes_letForms :
    Realizes (whenHeaded ["let", "let*"] breakLet) never letRule prepareBindings where
  verbatim kind hk ts := by
    refine whenHeaded_of_ne ?_ _ _ ts
    rintro rfl
    cases hk
  inRow shell isBindings row hm := by
    have hm1 := row.matched_editOwn Breaker.bindings.rule (.start shell isBindings row) hm
    have hcompose : (row.editOwn never Breaker.bindings.rule leave
          (.start shell isBindings row)).editOwn never Breaker.letBody.rule prepareBindings
            (.start shell isBindings row) =
        row.editOwn never letRule prepareBindings (.start shell isBindings row) :=
      row.editOwn_editOwn ..
    have hstart := Reach.start_editOwn shell isBindings Breaker.bindings.rule
      (.start shell isBindings row) row
    have hlet := @breakLet_enclose shell _ hm1 isBindings
    rw [prepareBindings_eq, whenHeaded_enclose hm1 _ _ isBindings, ← hcompose]
    rw [hstart] at hlet ⊢
    split
    next hh => exact hlet hh
    next hh =>
      rw [editOwn_letBody_eq_self _ (.start shell isBindings row)]
      simp [Reach.isLet, hh]
  quoted gap form := whenHeaded_of_ne (by decide) _ _ _
  bareQuote gap := whenHeaded_of_ne (by decide) _ _ _

end ExactLisp.Layout
