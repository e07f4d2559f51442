import ExactLisp.Proofs.Datum.Accepting
import ExactLisp.Proofs.Lexeme.Continued

/-!
# What a fault says about more text

A text that cannot be read is incomplete, or it is wrong. Which of the two does not
depend on what comes after it:

* an incomplete text can be continued on the next line so that all of it can be read,
  because a string that is pending can be closed, and then the open forms can be closed
  one after the other, each of them within the limit (`Progress.exists_completion`);
* in a wrong text the reader has met a lexeme it refuses, and it meets that lexeme
  whatever follows (`Progress.readAll_append`). Only the last lexeme changes when a text
  goes on, if it is a string with no end, and what is refused there is not the string
  but any form in its place (`Progress.read_str_of_refused`).
-/

namespace ExactLisp.Datum

namespace Progress

/-! ## One lexeme -/

/-- Where a form is expected, only a string with no end is incomplete. -/
theorem exists_str_of_readForm {limit : Nat} {p : Progress} {x : Lexeme} {fault : ReadFault}
    (h : readForm limit p x = .error fault) (hk : fault.kind = .incomplete) :
    ∃ raw, x = .str raw false := by
  unfold readForm at h
  split at h
  · cases h
    cases hk
  cases x with
  | str raw closed =>
    cases closed with
    | true => cases h
    | false => exact ⟨raw, rfl⟩
  | closing b =>
    cases h
    cases hk
  | quote =>
    dsimp only at h
    split at h
    · cases h
      cases hk
    · cases h
  | opening b => cases b <;> cases h
  | word | space | comment => cases h

/-- Inside an array, only a string with no end is incomplete. -/
theorem exists_str_of_readElement {reversed : List Literal} {frames : List Frame}
    {forms : List Datum} {x : Lexeme} {fault : ReadFault}
    (h : readElement reversed frames forms x = .error fault) (hk : fault.kind = .incomplete) :
    ∃ raw, x = .str raw false := by
  cases x with
  | str raw closed =>
    cases closed with
    | true => cases h
    | false => exact ⟨raw, rfl⟩
  | closing b =>
    cases b with
    | square => cases h
    | round =>
      cases h
      cases hk
  | word w =>
    rw [readElement] at h
    split at h
    · cases h
    · cases h
      cases hk
  | opening | quote =>
    cases h
    cases hk
  | space | comment => cases h

/-- A reader is incomplete before the end of its text only after a string with no end. -/
theorem exists_str_of_incomplete {limit : Nat} {p : Progress} {x : Lexeme} {fault : ReadFault}
    (h : read limit p x = .error fault) (hk : fault.kind = .incomplete) :
    ∃ raw, x = .str raw false := by
  unfold read at h
  split at h
  · cases h
  split at h
  · exact exists_str_of_readElement h hk
  · split at h
    · cases h
    · cases h
      cases hk
    · exact exists_str_of_readForm h hk
  · exact exists_str_of_readForm h hk

/-- A string that is refused for its place is refused there whatever it is. -/
theorem read_str_of_refused {limit : Nat} {p : Progress} {raw : List Char} {closed : Bool}
    {fault : ReadFault} (h : read limit p (.str raw closed) = .error fault)
    (hk : fault.kind ≠ .incomplete) (other : List Char) (ends : Bool) :
    read limit p (.str other ends) = .error fault := by
  rw [read_str] at h ⊢
  cases hopen : Cursor.openString limit p with
  | error refused =>
    rw [hopen] at h
    exact h
  | ok cursor =>
    rw [hopen] at h
    cases closed with
    | true => cases h
    | false =>
      cases h
      exact absurd rfl hk

/-- Where a string with no end is read as incomplete, a closed one is read. -/
theorem read_str_of_incomplete {limit : Nat} {p : Progress} {raw : List Char} {fault : ReadFault}
    (h : read limit p (.str raw false) = .error fault) (hk : fault.kind = .incomplete)
    (other : List Char) : ∃ next, read limit p (.str other true) = .ok next := by
  rw [read_str] at h ⊢
  cases hopen : Cursor.openString limit p with
  | error refused =>
    rw [hopen] at h
    cases h
    -- a string is not opened only where nothing may be nested
    unfold Cursor.openString at hopen
    split at hopen
    · cases hopen
    · split at hopen
      · cases hopen
        cases hk
      · cases hopen
  | ok cursor => exact ⟨_, rfl⟩

/-! ## Many lexemes -/

theorem readAll_append (limit : Nat) (p : Progress) (xs ys : List Lexeme) :
    readAll limit p (xs ++ ys) =
      match readAll limit p xs with
      | .ok next => readAll limit next ys
      | .error fault => .error fault := by
  induction xs generalizing p with
  | nil => rfl
  | cons x rest ih =>
    rw [List.cons_append, readAll, readAll]
    cases read limit p x with
    | ok next => exact ih next
    | error fault => rfl

/-- Only a string with no end makes a text incomplete before its end. -/
theorem exists_mem_of_incomplete {limit : Nat} {p : Progress} {xs : List Lexeme}
    {fault : ReadFault} (h : readAll limit p xs = .error fault) (hk : fault.kind = .incomplete) :
    ∃ raw, .str raw false ∈ xs := by
  induction xs generalizing p with
  | nil => cases h
  | cons x rest ih =>
    rw [readAll] at h
    split at h
    · obtain ⟨raw, hmem⟩ := ih h
      exact ⟨raw, List.mem_cons_of_mem x hmem⟩
    next refused hread =>
      cases h
      obtain ⟨raw, rfl⟩ := exists_str_of_incomplete hread hk
      exact ⟨raw, List.mem_cons_self⟩

theorem outcome_of_readAll {limit : Nat} {p next : Progress} {xs : List Lexeme}
    (h : readAll limit p xs = .ok next) (ys : List Lexeme) :
    p.outcome limit (xs ++ ys) = next.outcome limit ys := by
  rw [outcome, outcome, readAll_append, h]

/-- A text that ends in a string with no end is incomplete at that string. -/
theorem exists_read_last {limit : Nat} {xs : List Lexeme} {raw : List Char} {fault : ReadFault}
    (h : Progress.empty.outcome limit (xs ++ [.str raw false]) = .error fault)
    (hk : fault.kind = .incomplete) (hended : ∀ raw, .str raw false ∉ xs) :
    ∃ p, readAll limit .empty xs = .ok p ∧ read limit p (.str raw false) = .error fault := by
  rw [outcome, readAll_append] at h
  cases hp : readAll limit .empty xs with
  | error refused =>
    rw [hp] at h
    cases h
    obtain ⟨other, hmem⟩ := exists_mem_of_incomplete hp hk
    exact absurd hmem (hended other)
  | ok p =>
    refine ⟨p, rfl, ?_⟩
    rw [hp] at h
    dsimp only at h
    rw [readAll] at h
    cases hread : read limit p (.str raw false) with
    | ok next =>
      rw [read_str] at hread
      split at hread <;> cases hread
    | error refused =>
      rw [hread] at h
      cases h
      rfl

/-- A text is incomplete whenever it ends inside a form. -/
theorem kind_of_finish_eq_error {p : Progress} {fault : ReadFault} (h : p.finish = .error fault) :
    fault.kind = .incomplete := by
  unfold finish at h
  split at h <;> cases h <;> rfl

/-! ## Closing what is open -/

theorem length_frames_deliver_le (d : Datum) (frames : List Frame) (forms : List Datum) :
    (deliver d frames forms).frames.length ≤ frames.length := by
  induction frames generalizing d with
  | nil => exact Nat.le_refl _
  | cons frame frames ih =>
    cases frame with
    | quote => exact Nat.le_trans (ih (quoting d)) (Nat.le_succ _)
    | list | array => exact Nat.le_refl _

/-- The innermost open form can be closed within the limit. -/
theorem exists_closing {limit : Nat} {frame : Frame} {frames : List Frame} {forms : List Datum}
    {xs : List Lexeme} (hc : Covers limit (frame :: frames) forms xs) :
    ∃ (cs : List Char) (x : Lexeme) (d : Datum), x.isSpace = false ∧
      (∀ text, x ≠ .comment text) ∧
      (∀ more, Lexeme.scanFrom .engine .idle (cs ++ '\n' :: more) =
        x :: .space '\n' :: Lexeme.scanFrom .engine .idle more) ∧
      read limit ⟨frame :: frames, forms⟩ x = .ok (deliver d frames forms) := by
  cases frame with
  | list reversed =>
    exact ⟨[')'], .closing .round, .list reversed.reverse, rfl, by simp, fun _ => rfl, rfl⟩
  | array reversed =>
    exact ⟨[']'], .closing .square, .array reversed.reverse, rfl, by simp, fun _ => rfl, rfl⟩
  | quote =>
    -- whatever word it is that the mark quotes
    obtain ⟨before, -, -, hroom, -⟩ := hc
    refine ⟨['x'], .word ['x'], quoting (ofWord ['x']), rfl, by simp, fun _ => rfl, ?_⟩
    have hread : read limit ⟨.quote :: frames, forms⟩ (.word ['x']) =
        readForm limit ⟨.quote :: frames, forms⟩ (.word ['x']) := rfl
    rw [hread, readForm, if_neg (by simp only [List.length_cons]; omega)]
    rfl

/--
**All open forms can be closed** one after the other, the innermost first. That they can
be closed within the limit is part of what is known of everything that has been read.
-/
theorem exists_completion {limit : Nat} : ∀ (n : Nat) {p : Progress} {xs : List Lexeme},
    p.frames.length ≤ n → Covers limit p.frames p.forms xs →
      ∃ more forms, p.outcome limit (Lexeme.scanFrom .engine .idle more) = .ok forms
  | n, ⟨[], forms⟩, _, _, _ => ⟨[], forms.reverse, rfl⟩
  | n + 1, ⟨frame :: frames, forms⟩, xs, hn, hc => by
    obtain ⟨cs, x, d, hs, hx, hscan, hread⟩ := exists_closing hc
    have hcovers := covers_read hc hs hx hread
    have hlen : (deliver d frames forms).frames.length ≤ n := by
      have hle := length_frames_deliver_le d frames forms
      simp only [List.length_cons] at hn
      omega
    obtain ⟨more, result, hmore⟩ := exists_completion n hlen hcovers
    refine ⟨cs ++ '\n' :: more, result, ?_⟩
    rw [hscan, outcome_cons, hread]
    have hspace : read limit (deliver d frames forms) (.space '\n') =
        .ok (deliver d frames forms) := rfl
    dsimp only
    rw [outcome_cons, hspace]
    exact hmore

end Progress

/-! ## Texts -/

open Progress

/-- The kind of the fault that a text cannot be read for, if there is one. -/
def failure? (limit : Nat) (text : String) : Option ParseErrorKind :=
  match readWithin limit text with
  | .ok _ => none
  | .error e => some e.kind

theorem failure?_eq_some_iff {limit : Nat} {text : String} {kind : ParseErrorKind} :
    failure? limit text = some kind ↔
      ∃ fault, readForms limit text = .error fault ∧ fault.kind = kind := by
  rw [failure?, readWithin]
  cases readForms limit text with
  | ok forms => simp
  | error fault => simp [ReadFault.report, ParseError.withContext]

theorem readForms_of_not_blank {limit : Nat} {text : String}
    (h : ¬ (Lexeme.scan .engine text).all Lexeme.isSpace = true) :
    readForms limit text = Progress.empty.outcome limit (Lexeme.scan .engine text) := by
  rw [readForms, if_neg h]
  rfl

theorem outcome_eq_error {limit : Nat} {p : Progress} {xs : List Lexeme} {fault : ReadFault}
    (h : p.outcome limit xs = .error fault) :
    readAll limit p xs = .error fault ∨ ∃ last, readAll limit p xs = .ok last ∧
      last.finish = .error fault := by
  rw [outcome] at h
  split at h
  next last hlast => exact Or.inr ⟨last, hlast, h⟩
  next hread =>
    cases h
    exact Or.inl hread

/-- What has been read by the end of a text, when it started with nothing. -/
theorem covers_text {limit : Nat} {text : String} {xs ys : List Lexeme} {last : Progress}
    (hscan : Lexeme.scan .engine text = xs ++ ys) (h : readAll limit .empty xs = .ok last) :
    ∃ zs, Covers limit last.frames last.forms zs := by
  have hempty : Covers limit Progress.empty.frames Progress.empty.forms [] :=
    ⟨.nil, Nat.zero_le _⟩
  have hcomment : ∀ cs, .comment cs ∉ xs := fun cs hcs =>
    comment_not_mem_scan text cs (hscan ▸ List.mem_append_left ys hcs)
  exact ⟨_, covers_readAll hempty hcomment h⟩

theorem not_blank_of_mem {xs : List Lexeme} {x : Lexeme} (h : x ∈ xs) (hx : x.isSpace = false) :
    ¬ xs.all Lexeme.isSpace = true := by
  intro hall
  rw [List.all_eq_true.mp hall x h] at hx
  cases hx

/-- **An incomplete text can be completed** on the next line. -/
theorem exists_readForms_of_incomplete {limit : Nat} {text : String} {fault : ReadFault}
    (h : readForms limit text = .error fault) (hk : fault.kind = .incomplete) :
    ∃ more forms, readForms limit (text ++ "\n" ++ more) = .ok forms := by
  have hblank : ¬ (Lexeme.scan .engine text).all Lexeme.isSpace = true := by
    intro hb
    rw [readForms, if_pos hb] at h
    cases h
    cases hk
  rw [readForms_of_not_blank hblank] at h
  cases Lexeme.continues .engine text with
  | apart hended happart =>
    rcases outcome_eq_error h with hread | ⟨last, hlast, hfinish⟩
    · obtain ⟨raw, hmem⟩ := exists_mem_of_incomplete hread hk
      exact absurd hmem (hended raw)
    · -- all lexemes were read, and what is missing closes the frames that are open
      obtain ⟨zs, hcovers⟩ := covers_text (List.append_nil _).symm hlast
      obtain ⟨more, forms, hmore⟩ := exists_completion _ (Nat.le_refl _) hcovers
      refine ⟨String.ofList more, forms, ?_⟩
      have hscan : Lexeme.scan .engine (text ++ "\n" ++ String.ofList more) =
          Lexeme.scan .engine text ++ .space '\n' :: Lexeme.scanFrom .engine .idle more := by
        rw [happart, Lexeme.scan, Lexeme.scan, String.toList_ofList]
      rw [readForms_of_not_blank, hscan, outcome_of_readAll hlast]
      · exact hmore
      · rw [hscan, List.all_append]
        simp [hblank]
  | inStr hended hscan hany hclosed =>
    rw [hscan] at h
    -- the text ends in a string, which is closed first
    obtain ⟨p, hp, hread⟩ := exists_read_last h hk hended
    obtain ⟨other, hother⟩ := hclosed
    obtain ⟨next, hnext⟩ := read_str_of_incomplete hread hk other
    obtain ⟨zs, hcovers⟩ := covers_text hscan hp
    have hcovers := covers_read hcovers rfl (by simp) hnext
    obtain ⟨more, forms, hmore⟩ := exists_completion _ (Nat.le_refl _) hcovers
    refine ⟨String.ofList (quotationMark :: more), forms, ?_⟩
    rw [readForms_of_not_blank, hother, outcome_of_readAll hp, outcome_cons, hnext]
    · exact hmore
    · rw [hother]
      exact not_blank_of_mem (List.mem_append_right _ List.mem_cons_self) rfl

/-- **A wrong text stays wrong** whatever is on the next lines, and for the same reason. -/
theorem readForms_eq_error_of_refused {limit : Nat} {text : String} {fault : ReadFault}
    (hblank : ¬ (Lexeme.scan .engine text).all Lexeme.isSpace = true)
    (h : readForms limit text = .error fault) (hk : fault.kind ≠ .incomplete) (more : String) :
    readForms limit (text ++ "\n" ++ more) = .error fault := by
  rw [readForms_of_not_blank hblank] at h
  have hread : readAll limit .empty (Lexeme.scan .engine text) = .error fault := by
    rcases outcome_eq_error h with hread | ⟨last, -, hfinish⟩
    · exact hread
    · exact absurd (kind_of_finish_eq_error hfinish) hk
  cases Lexeme.continues .engine text with
  | apart hended happart =>
    have hnext : ¬ (Lexeme.scan .engine (text ++ "\n" ++ more)).all Lexeme.isSpace = true := by
      rw [happart, List.all_append]
      simp [hblank]
    rw [readForms_of_not_blank hnext, outcome, happart, readAll_append, hread]
  | @inStr xs raw hended hscan hany hclosed =>
    obtain ⟨other, closed, rest, hother⟩ := hany more
    have hnext : ¬ (Lexeme.scan .engine (text ++ "\n" ++ more)).all Lexeme.isSpace = true := by
      rw [hother]
      exact not_blank_of_mem (List.mem_append_right _ List.mem_cons_self) rfl
    rw [hscan, readAll_append] at hread
    rw [readForms_of_not_blank hnext, outcome, hother, readAll_append]
    cases hp : readAll limit .empty xs with
    | error refused =>
      rw [hp] at hread
      cases hread
      rfl
    | ok p =>
      rw [hp] at hread
      have hlast : p.read limit (.str raw false) = .error fault := by
        dsimp only at hread
        rw [readAll] at hread
        split at hread
        · cases hread
        next refused hrefused =>
          cases hread
          exact hrefused
      dsimp only
      rw [readAll, read_str_of_refused hlast hk]

/--
**The kind of a fault tells whether more text can help.** An incomplete text can be
continued on the next line so that it is read; a text with a token in it that is refused,
for its syntax or its nesting, is refused in the same way however it is continued.
-/
theorem failure_append_line (limit : Nat) (text : String) :
    (failure? limit text = some .incomplete →
      ∃ more d, readWithin limit (text ++ "\n" ++ more) = .ok d) ∧
    (tokenize text ≠ [] → ∀ kind, kind = .invalidSyntax ∨ kind = .tooDeeplyNested →
      failure? limit text = some kind →
        ∀ more, failure? limit (text ++ "\n" ++ more) = some kind) := by
  constructor
  · intro h
    obtain ⟨fault, hfault, hk⟩ := failure?_eq_some_iff.mp h
    obtain ⟨more, forms, hforms⟩ := exists_readForms_of_incomplete hfault hk
    exact ⟨more, ofForms forms, by rw [readWithin, hforms]⟩
  · intro htokens kind hkind h more
    obtain ⟨fault, hfault, rfl⟩ := failure?_eq_some_iff.mp h
    have hblank : ¬ (Lexeme.scan .engine text).all Lexeme.isSpace = true := by
      rw [← isEmpty_tokenize, List.isEmpty_iff]
      exact htokens
    have hk : fault.kind ≠ .incomplete := by
      rcases hkind with hkind | hkind <;> rw [hkind] <;> exact ParseErrorKind.noConfusion
    exact failure?_eq_some_iff.mpr ⟨fault, readForms_eq_error_of_refused hblank hfault hk more, rfl⟩

/-- For instance in the middle of a string, after a backslash, and at a bracket of the wrong kind. -/
theorem failure_append_line_list :
    (failure? 3 "('[\"b\\" = some .incomplete ∧
      ∃ more d, readWithin 3 ("('[\"b\\" ++ "\n" ++ more) = .ok d) ∧
    (failure? 3 "(a]\"" = some .invalidSyntax ∧
      ∀ more, failure? 3 ("(a]\"" ++ "\n" ++ more) = some .invalidSyntax) := by
  have hopen : failure? 3 "('[\"b\\" = some .incomplete := by decide
  have hwrong : failure? 3 "(a]\"" = some .invalidSyntax := by decide
  refine ⟨⟨hopen, (failure_append_line 3 _).1 hopen⟩, hwrong, ?_⟩
  exact (failure_append_line 3 _).2 (by decide) _ (Or.inl rfl) hwrong

end ExactLisp.Datum
