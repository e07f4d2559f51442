import ExactLisp.Proofs.Datum.Reading
import ExactLisp.Proofs.Datum.Tokens

/-!
# Reading accepts only what is derived

`Covers` is the invariant of the reader: what it has read is the top-level forms, then
for every open form, outermost first, the lexeme that opened it and what it holds so
far. Each open form has room for what it holds under the limit. Only the innermost open
form can be an array, as nothing opens inside one.

One lexeme preserves it (`covers_read`), so it holds of every run (`covers_readAll`).
When no form is open it says that all that was read is derived, and with the opposite
direction from `Reading` the reader and the grammar agree (`readForms_eq_ok_iff`).
-/

namespace ExactLisp.Datum

namespace Progress

/-- Some lexemes are the complete forms and the open ones of a reader. -/
def Covers (limit : Nat) : List Frame → List Datum → List Lexeme → Prop
  | [], forms, xs => DerivesAll xs forms.reverse ∧ depths forms ≤ limit
  | .quote :: frames, forms, xs => ∃ before, xs = before ++ [.quote] ∧ TakesForms frames ∧
      frames.length + 1 < limit ∧ Covers limit frames forms before
  | .list reversed :: frames, forms, xs => ∃ before inside,
      xs = before ++ .opening .round :: inside ∧ DerivesAll inside reversed.reverse ∧
      TakesForms frames ∧ frames.length + 1 + depths reversed ≤ limit ∧
      Covers limit frames forms before
  | .array reversed :: frames, forms, xs => ∃ before inside,
      xs = before ++ .opening .square :: inside ∧ DerivesElements inside reversed.reverse ∧
      TakesForms frames ∧ frames.length < limit ∧ Covers limit frames forms before

/-- A derived form may be delivered where forms are taken. -/
theorem covers_deliver {limit : Nat} {frames : List Frame} {forms : List Datum}
    {before ys : List Lexeme} {d : Datum} (hc : Covers limit frames forms before)
    (hf : TakesForms frames) (hy : Derives ys d) (hd : frames.length + d.depth ≤ limit) :
    Covers limit (deliver d frames forms).frames (deliver d frames forms).forms
      (before ++ ys) := by
  induction frames generalizing before ys d with
  | nil =>
    obtain ⟨hall, hlimit⟩ := hc
    refine ⟨?_, ?_⟩
    · simpa [deliver] using hall.append hy.all
    · simp only [List.length_nil] at hd
      simp only [deliver, depths]
      omega
  | cons frame frames ih =>
    simp only [List.length_cons] at hd
    cases frame with
    | quote =>
      -- the quote that waited is complete now, and is delivered in its turn
      obtain ⟨outer, rfl, hframes, -, hc⟩ := hc
      have h := ih hc hframes (.quoted hy) (by rw [depth_quoting]; omega)
      simpa [deliver] using h
    | list reversed =>
      obtain ⟨outer, inside, rfl, hinside, hframes, hlimit, hc⟩ := hc
      refine ⟨outer, inside ++ ys, by simp, ?_, hframes, ?_, hc⟩
      · simpa using hinside.append hy.all
      · simp only [depths]
        omega
    | array reversed => exact absurd rfl (hf reversed)

/-- A lexeme that is read where a form is expected. -/
theorem covers_readForm {limit : Nat} {p q : Progress} {xs : List Lexeme} {x : Lexeme}
    (hc : Covers limit p.frames p.forms xs) (hf : TakesForms p.frames) (hs : x.isSpace = false)
    (hx : ∀ text, x ≠ .comment text) (h : readForm limit p x = .ok q) :
    Covers limit q.frames q.forms (xs ++ [x]) := by
  unfold readForm at h
  split at h
  · cases h
  next hlimit =>
  cases x with
  | opening b =>
    cases b <;> cases h
    · exact ⟨xs, [], rfl, .nil, hf, by simp only [depths]; omega, hc⟩
    · exact ⟨xs, [], rfl, .nil, hf, by omega, hc⟩
  | closing b => cases h
  | quote =>
    dsimp only at h
    split at h
    · cases h
    · cases h
      exact ⟨xs, rfl, hf, by omega, hc⟩
  | word w =>
    cases h
    exact covers_deliver hc hf (.word w) (by rw [depth_ofWord]; omega)
  | str raw closed =>
    cases closed with
    | false => cases h
    | true =>
      cases h
      exact covers_deliver hc hf (.str raw) (by simp only [depth]; omega)
  | space c => cases hs
  | comment text => exact absurd rfl (hx text)

/-- A lexeme that is read inside an array. -/
theorem covers_readElement {limit : Nat} {reversed : List Literal} {frames : List Frame}
    {forms : List Datum} {q : Progress} {xs : List Lexeme} {x : Lexeme}
    (hc : Covers limit (.array reversed :: frames) forms xs) (hs : x.isSpace = false)
    (hx : ∀ text, x ≠ .comment text) (h : readElement reversed frames forms x = .ok q) :
    Covers limit q.frames q.forms (xs ++ [x]) := by
  obtain ⟨before, inside, rfl, hinside, hframes, hlimit, hc⟩ := hc
  cases x with
  | closing b =>
    cases b with
    | round => cases h
    | square =>
      cases h
      have hd := covers_deliver hc hframes (.array hinside) (by simp only [depth]; omega)
      simpa using hd
  | str raw closed =>
    cases closed with
    | false => cases h
    | true =>
      cases h
      refine ⟨before, inside ++ [.str raw true], by simp, ?_, hframes, hlimit, hc⟩
      simpa using hinside.append (.str raw .nil)
  | word w =>
    rw [readElement] at h
    split at h
    next l hw =>
      cases h
      refine ⟨before, inside ++ [.word w], by simp, ?_, hframes, hlimit, hc⟩
      simpa using hinside.append (.word hw .nil)
    · cases h
  | space c => cases hs
  | comment text => exact absurd rfl (hx text)
  | opening b => cases h
  | quote => cases h

/-- **Preserved by every lexeme** that is read. -/
theorem covers_read {limit : Nat} {p q : Progress} {xs : List Lexeme} {x : Lexeme}
    (hc : Covers limit p.frames p.forms xs) (hs : x.isSpace = false)
    (hx : ∀ text, x ≠ .comment text) (h : read limit p x = .ok q) :
    Covers limit q.frames q.forms (xs ++ [x]) := by
  rw [read, if_neg (by simp [hs])] at h
  obtain ⟨frames, forms⟩ := p
  cases frames with
  | nil => exact covers_readForm hc (takesForms_of_inRow trivial) hs hx h
  | cons frame frames =>
    cases frame with
    | array reversed => exact covers_readElement hc hs hx h
    | quote => exact covers_readForm hc (takesForms_quote frames) hs hx h
    | list reversed =>
      cases x with
      | closing b =>
        cases b with
        | square => cases h
        | round =>
          cases h
          obtain ⟨before, inside, rfl, hinside, hframes, hlimit, hc⟩ := hc
          have hd := covers_deliver hc hframes (.list hinside) (by
            have hrev : depths reversed.reverse ≤ limit - frames.length - 1 := by
              rw [depths_le_iff]
              intro d hmem
              exact depths_le_iff.mp (by omega) d (List.mem_reverse.mp hmem)
            simp only [depth]
            omega)
          simpa using hd
      | _ => exact covers_readForm hc (takesForms_of_inRow trivial) hs hx h

/-- What a reader has read by the end of a text. -/
theorem covers_readAll {limit : Nat} {p q : Progress} {xs ys : List Lexeme}
    (hc : Covers limit p.frames p.forms xs) (hy : ∀ text, .comment text ∉ ys)
    (h : readAll limit p ys = .ok q) :
    Covers limit q.frames q.forms (xs ++ ys.filter fun y => !y.isSpace) := by
  induction ys generalizing p xs with
  | nil =>
    cases h
    simpa using hc
  | cons y rest ih =>
    have hrest : ∀ text, .comment text ∉ rest := fun text hm => hy text (List.mem_cons_of_mem _ hm)
    rw [readAll] at h
    split at h
    next next hread =>
      by_cases hs : y.isSpace = true
      · rw [read, if_pos hs] at hread
        cases hread
        rw [List.filter_cons_of_neg (by simp [hs])]
        exact ih hc hrest h
      · have hs : y.isSpace = false := Bool.not_eq_true _ ▸ hs
        have hone := covers_read hc hs (fun text he => hy text (he ▸ List.mem_cons_self)) hread
        rw [List.filter_cons_of_pos (by simp [hs])]
        simpa using ih hone hrest h
    · cases h

/-- White space is passed over. -/
theorem readAll_filter (limit : Nat) (p : Progress) (xs : List Lexeme) :
    readAll limit p (xs.filter fun x => !x.isSpace) = readAll limit p xs := by
  induction xs generalizing p with
  | nil => rfl
  | cons x rest ih =>
    by_cases hs : x.isSpace = true
    · have hread : read limit p x = .ok p := by rw [read, if_pos hs]
      rw [List.filter_cons_of_neg (by simp [hs]), readAll_cons hread, ih]
    · rw [List.filter_cons_of_pos (by simp [hs]), readAll, readAll]
      cases read limit p x with
      | ok next => exact ih next
      | error fault => rfl

/-- With room enough, derived forms are read as the top-level forms. -/
theorem outcome_of_derivesAll {limit : Nat} {xs : List Lexeme} {ds : List Datum}
    (h : DerivesAll xs ds) (hd : depths ds ≤ limit) : Progress.empty.outcome limit xs = .ok ds := by
  have hall := @readAll_forms limit xs ds h [] trivial (by simpa using hd) [] []
  rw [List.append_nil, deliverAll_nil_frames] at hall
  rw [outcome, Progress.empty, hall]
  simp [readAll, finish]

end Progress

/-- The same lexemes are not two different sequences of forms. -/
theorem DerivesAll.unique {xs : List Lexeme} {ds es : List Datum} (hd : DerivesAll xs ds)
    (he : DerivesAll xs es) : ds = es := by
  have h1 := Progress.outcome_of_derivesAll hd (Nat.le_max_left (depths ds) (depths es))
  have h2 := Progress.outcome_of_derivesAll he (Nat.le_max_right (depths ds) (depths es))
  exact Except.ok.inj (h1.symm.trans h2)

/-! ## Texts -/

theorem code_eq_nil_iff {text : String} :
    Lexeme.code text = [] ↔ (Lexeme.scan .engine text).all Lexeme.isSpace = true := by
  simp [Lexeme.code]

/-- There are no comments for the reader. -/
theorem comment_not_mem_scan (text : String) (cs : List Char) :
    .comment cs ∉ Lexeme.scan .engine text := by
  intro h
  have hm : Mode.engine = .source := ((Lexeme.canonical_scan .engine text).spelled _ h).1
  cases hm

theorem Derives.ne_nil {xs : List Lexeme} {d : Datum} (h : Derives xs d) : xs ≠ [] := by
  cases h <;> simp

theorem DerivesAll.eq_nil_iff {xs : List Lexeme} {ds : List Datum} (h : DerivesAll xs ds) :
    xs = [] ↔ ds = [] := by
  cases h with
  | nil => exact iff_of_true rfl rfl
  | cons hx hs => exact iff_of_false (fun he => hx.ne_nil (List.append_eq_nil_iff.mp he).1) (by simp)

/-- The forms that a text is read as are those that it derives, if there are any with room. -/
theorem readForms_eq_ok_iff {limit : Nat} {text : String} {ds : List Datum} :
    readForms limit text = .ok ds ↔
      ds ≠ [] ∧ DerivesAll (Lexeme.code text) ds ∧ depths ds ≤ limit := by
  have hout : Progress.empty.outcome limit (Lexeme.code text) =
      Progress.empty.outcome limit (Lexeme.scan .engine text) := by
    rw [Progress.outcome, Lexeme.code, Progress.readAll_filter]
    rfl
  constructor
  · intro h
    rw [readForms] at h
    split at h
    · cases h
    next hblank =>
    have hforms : DerivesAll (Lexeme.code text) ds ∧ depths ds ≤ limit := by
      split at h
      next p hp =>
        -- no frame is open at the end, so what has been read are forms and nothing else
        have hc := @Progress.covers_readAll limit .empty p [] (Lexeme.scan .engine text)
          ⟨DerivesAll.nil, Nat.zero_le _⟩ (comment_not_mem_scan text) hp
        obtain ⟨frames, forms⟩ := p
        cases frames with
        | cons frame frames => cases frame <;> cases h
        | nil =>
          cases h
          obtain ⟨hall, hlimit⟩ := hc
          refine ⟨hall, depths_le_iff.mpr fun d hd => ?_⟩
          exact depths_le_iff.mp hlimit d (List.mem_reverse.mp hd)
      · cases h
    refine ⟨fun hnil => hblank ?_, hforms⟩
    exact code_eq_nil_iff.mp (hforms.1.eq_nil_iff.mpr hnil)
  · rintro ⟨hne, hall, hlimit⟩
    have hblank : ¬ (Lexeme.scan .engine text).all Lexeme.isSpace = true :=
      fun hb => hne (hall.eq_nil_iff.mp (code_eq_nil_iff.mpr hb))
    rw [readForms, if_neg hblank]
    exact hout.symm.trans (Progress.outcome_of_derivesAll hall hlimit)

/-- A text is read as what its forms denote. -/
theorem readWithin_eq_ok {limit : Nat} {text : String} {d : Datum} :
    readWithin limit text = .ok d ↔
      ∃ forms, readForms limit text = .ok forms ∧ ofForms forms = d := by
  rw [readWithin]
  cases readForms limit text <;> simp

/--
**The reader accepts exactly its grammar.** A text is read as a datum exactly if its
lexemes, but for white space, derive one or more forms none of which nests deeper than
the limit, and the datum is what these forms denote. Reading the flat tokens of the text
comes to the same, whatever the strings in it hold.
-/
theorem readWithin_eq_ok_iff (limit : Nat) (text : String) (d : Datum) :
    (readWithin limit text = .ok d ↔
      ∃ forms, forms ≠ [] ∧ DerivesAll (Lexeme.code text) forms ∧
        (∀ form ∈ forms, form.depth ≤ limit) ∧ ofForms forms = d) ∧
    readTokens limit (tokenize text) = readForms limit text := by
  refine ⟨?_, readTokens_tokenize limit text⟩
  rw [readWithin]
  constructor
  · intro h
    split at h
    next forms hforms =>
      cases h
      obtain ⟨hne, hall, hlimit⟩ := readForms_eq_ok_iff.mp hforms
      exact ⟨forms, hne, hall, depths_le_iff.mp hlimit, rfl⟩
    · cases h
  · rintro ⟨forms, hne, hall, hlimit, rfl⟩
    rw [readForms_eq_ok_iff.mpr ⟨hne, hall, depths_le_iff.mpr hlimit⟩]

end ExactLisp.Datum
