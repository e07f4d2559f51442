import ExactLisp.Proofs.Datum.Grammar

/-!
# Reading what is derived

Where the innermost open form takes forms, the lexemes of a derived form are read as
one delivery of its datum (`Derives.readAll_append`), whatever follows them. The frames
below do not matter, only how many there are: they count against the limit.
-/

namespace ExactLisp.Datum.Progress

/-- Whether the innermost open form takes forms, rather than elements of an array. -/
def TakesForms (frames : List Frame) : Prop :=
  ∀ reversed, frames.head? ≠ some (.array reversed)

/-- Whether forms follow one another where the next one is delivered. -/
def InRow : List Frame → Prop
  | [] | .list _ :: _ => True
  | .quote :: _ | .array _ :: _ => False

theorem takesForms_of_inRow {frames : List Frame} (h : InRow frames) : TakesForms frames := by
  intro reversed hf
  cases frames with
  | nil => cases hf
  | cons frame frames =>
    cases hf
    exact h

theorem takesForms_quote (frames : List Frame) : TakesForms (.quote :: frames) := by
  intro reversed hf
  cases hf

/-- Hand some complete forms to the innermost open one. -/
def deliverAll (ds : List Datum) (p : Progress) : Progress :=
  ds.foldl (fun p d => deliver d p.frames p.forms) p

theorem deliverAll_nil_frames (ds forms : List Datum) :
    deliverAll ds ⟨[], forms⟩ = ⟨[], ds.reverse ++ forms⟩ := by
  induction ds generalizing forms with
  | nil => rfl
  | cons d rest ih =>
    refine (ih (d :: forms)).trans ?_
    simp

theorem deliverAll_list (ds reversed : List Datum) (frames : List Frame) (forms : List Datum) :
    deliverAll ds ⟨.list reversed :: frames, forms⟩ =
      ⟨.list (ds.reverse ++ reversed) :: frames, forms⟩ := by
  induction ds generalizing reversed with
  | nil => rfl
  | cons d rest ih =>
    refine (ih (d :: reversed)).trans ?_
    simp

theorem inRow_deliver {frames : List Frame} (h : InRow frames) (d : Datum) (forms : List Datum) :
    InRow (deliver d frames forms).frames ∧
      (deliver d frames forms).frames.length = frames.length := by
  cases frames with
  | nil => exact ⟨trivial, rfl⟩
  | cons frame frames =>
    cases frame with
    | list reversed => exact ⟨trivial, rfl⟩
    | quote | array => exact absurd h id

/-! ## One lexeme -/

theorem readAll_cons {limit : Nat} {p next : Progress} {x : Lexeme} (h : read limit p x = .ok next)
    (rest : List Lexeme) : readAll limit p (x :: rest) = readAll limit next rest := by
  rw [readAll, h]

/-- A lexeme that closes nothing is read as part of a form. -/
theorem read_of_takesForms {limit : Nat} {p : Progress} {x : Lexeme} (h : TakesForms p.frames)
    (hs : x.isSpace = false) (hc : ∀ b, x ≠ .closing b) :
    read limit p x = readForm limit p x := by
  rw [read, if_neg (by simp [hs])]
  obtain ⟨frames, forms⟩ := p
  cases frames with
  | nil => rfl
  | cons frame frames =>
    cases frame with
    | array reversed => exact absurd rfl (h reversed)
    | quote => rfl
    | list reversed =>
      cases x with
      | closing b => exact absurd rfl (hc b)
      | _ => rfl

/-! ## Many lexemes -/

/-- The elements of an array are read whatever the limit is. -/
theorem readAll_elements {limit : Nat} {xs : List Lexeme} {ls : List Literal}
    (h : DerivesElements xs ls) (reversed : List Literal) (frames : List Frame)
    (forms : List Datum) (rest : List Lexeme) :
    readAll limit ⟨.array reversed :: frames, forms⟩ (xs ++ rest) =
      readAll limit ⟨.array (ls.reverse ++ reversed) :: frames, forms⟩ rest := by
  match h with
  | .nil => rfl
  | @DerivesElements.str raw xs ls hs =>
    rw [List.cons_append, readAll_cons rfl, readAll_elements hs]
    simp
  | @DerivesElements.word w l xs ls hw hs =>
    have hread : read limit ⟨.array reversed :: frames, forms⟩ (.word w) =
        .ok ⟨.array (l :: reversed) :: frames, forms⟩ := by
      simp [read, Lexeme.isSpace, readElement, hw]
    rw [List.cons_append, readAll_cons hread, readAll_elements hs]
    simp

mutual

/-- **A derived form is read as one delivery** where a form is expected. -/
theorem readAll_form {limit : Nat} {xs : List Lexeme} {d : Datum} (h : Derives xs d)
    {frames : List Frame} (hf : TakesForms frames) (hd : frames.length + d.depth ≤ limit)
    (forms : List Datum) (rest : List Lexeme) :
    readAll limit ⟨frames, forms⟩ (xs ++ rest) = readAll limit (deliver d frames forms) rest := by
  -- a form that fits leaves room for one more frame
  have hlt : ¬ limit ≤ (Progress.mk frames forms).frames.length := by
    have := one_le_depth d
    simp only
    omega
  have hread : ∀ x : Lexeme, x.isSpace = false → (∀ b, x ≠ .closing b) →
      read limit ⟨frames, forms⟩ x = readForm limit ⟨frames, forms⟩ x :=
    fun x => read_of_takesForms hf
  match h with
  | .word w =>
    refine readAll_cons ?_ rest
    rw [hread _ rfl (by simp), readForm, if_neg hlt]
  | .str raw =>
    refine readAll_cons ?_ rest
    rw [hread _ rfl (by simp), readForm, if_neg hlt]
    rfl
  | @Derives.quoted xs inner hx =>
    rw [depth_quoting] at hd
    have hone := one_le_depth inner
    have hquote : read limit ⟨frames, forms⟩ .quote = .ok ⟨.quote :: frames, forms⟩ := by
      rw [hread _ rfl (by simp), readForm, if_neg hlt]
      exact if_neg (by simp only; omega)
    rw [List.cons_append, readAll_cons hquote,
      readAll_form hx (takesForms_quote frames) (by simp only [List.length_cons]; omega)]
    rfl
  | @Derives.list xs ds hxs =>
    have hopen : read limit ⟨frames, forms⟩ (.opening .round) = .ok ⟨.list [] :: frames, forms⟩ := by
      rw [hread _ rfl (by simp), readForm, if_neg hlt]
    have hdepth : frames.length + 1 + depths ds ≤ limit := by
      simp only [depth] at hd
      omega
    -- the items are delivered to the open list, which its closing bracket delivers as a whole
    have hitems := @readAll_forms limit xs ds hxs (.list [] :: frames) trivial hdepth forms
      (.closing .round :: rest)
    rw [deliverAll_list, List.append_nil] at hitems
    simp only [List.cons_append, List.append_assoc, List.nil_append]
    rw [readAll_cons hopen, hitems]
    refine readAll_cons ?_ rest
    simp [read, Lexeme.isSpace]
  | @Derives.array xs ls hxs =>
    have hopen : read limit ⟨frames, forms⟩ (.opening .square) =
        .ok ⟨.array [] :: frames, forms⟩ := by
      rw [hread _ rfl (by simp), readForm, if_neg hlt]
    simp only [List.cons_append, List.append_assoc, List.nil_append]
    rw [readAll_cons hopen, readAll_elements hxs]
    refine readAll_cons ?_ rest
    simp [read, Lexeme.isSpace, readElement]

/-- **Derived forms are read as deliveries in order** where forms follow one another. -/
theorem readAll_forms {limit : Nat} {xs : List Lexeme} {ds : List Datum} (h : DerivesAll xs ds)
    {frames : List Frame} (hf : InRow frames) (hd : frames.length + depths ds ≤ limit)
    (forms : List Datum) (rest : List Lexeme) :
    readAll limit ⟨frames, forms⟩ (xs ++ rest) =
      readAll limit (deliverAll ds ⟨frames, forms⟩) rest := by
  match h with
  | .nil => rfl
  | @DerivesAll.cons xs ys d ds hx hxs =>
    simp only [depths] at hd
    obtain ⟨hrow, hlen⟩ := inRow_deliver hf d forms
    rw [List.append_assoc, readAll_form hx (takesForms_of_inRow hf) (by omega)]
    exact readAll_forms hxs hrow (by omega) _ rest

end

end ExactLisp.Datum.Progress
