import ExactLisp.Proofs.Layout.Rendering
import Mathlib.Logic.Relation

/-!
# The column of the writer

The writer is a recursion over the tree. Here it goes in single moves (`Writing.step`): its state
is what it has written and the stack of the aggregates around, each with how many of its
children are done. It comes to the same end (`Writing.reached_write`), and to every child of every
aggregate on the way (`Writing.exists_reached_of_at?`).

At every moment its column is the number of characters in the last line of what it has written
(`Writing.Reached.aligned`), so the indentation of an aggregate, which is fixed by the column when the
writer comes to it, is that of its place in the text, whatever is written before a line break in
it. What this says of line breaks is `breaks_indent`.
-/

namespace ExactLisp.Layout

namespace Written

/-- What has been written, in order. -/
def output (w : Written) : List Char := w.reversed.reverse

/-- The number of characters since the last line break. -/
def lineLength (w : Written) : Nat := (w.reversed.takeWhile (· ≠ '\n')).length

theorem output_push (w : Written) (text : List Char) : (w.push text).output = w.output ++ text := by
  simp [output, push]

theorem output_newLine (w : Written) (indent : Nat) :
    (w.newLine indent).output = w.output ++ '\n' :: List.replicate indent ' ' := by
  rw [newLine_eq, output_push]

theorem lineLength_push (w : Written) (text : List Char) :
    (w.push text).lineLength = columnAfter w.lineLength text := by
  induction text generalizing w with
  | nil => rfl
  | cons c rest ih =>
    have hone : (w.push [c]).lineLength = if c = '\n' then 0 else w.lineLength + 1 := by
      by_cases hc : c = '\n' <;> simp [lineLength, push, hc]
    rw [← List.singleton_append, ← push_push, ih, hone, List.singleton_append, columnAfter]

/-- Whether the column is the number of characters since the last line break. -/
def Aligned (w : Written) : Prop := w.column = w.lineLength

theorem Aligned.push {w : Written} (h : w.Aligned) (text : List Char) : (w.push text).Aligned := by
  rw [Aligned, lineLength_push, column_push, h]

theorem Aligned.newLine {w : Written} (h : w.Aligned) (indent : Nat) :
    (w.newLine indent).Aligned := by
  rw [newLine_eq]
  exact h.push _

end Written

/-! ## Places in a tree -/

/-- A node of a tree by the numbers of the children on the way to it. -/
def Token.at? : Token → List Nat → Option Token
  | t, [] => some t
  | .atom .., _ :: _ => none
  | .aggregate _ children, n :: place => (children[n]?).bind fun child => child.at? place

theorem Token.at?_concat {t : Token} {place : List Nat} {kind : Kind} {children : List Token}
    (h : t.at? place = some (.aggregate kind children)) (n : Nat) :
    t.at? (place ++ [n]) = children[n]? := by
  induction place generalizing t with
  | nil =>
    obtain rfl := Option.some.inj h
    rw [List.nil_append, at?]
    cases children[n]? <;> rfl
  | cons i place ih =>
    cases t with
    | atom => cases h
    | aggregate k siblings =>
      obtain ⟨child, hchild, hat⟩ := Option.bind_eq_some_iff.mp h
      rw [List.cons_append, at?, hchild]
      exact ih hat

/-! ## The writer in single moves -/

theorem isSpace_of_isSourceNewline {t : Token} (h : isSourceNewline t = true) :
    t.isSpace = false := by
  cases t with
  | aggregate => rfl
  | atom text lineBreak =>
    obtain ⟨-, htext⟩ := Bool.and_eq_true_iff.mp h
    rw [beq_iff_eq] at htext
    subst htext
    simp [Token.isSpace, Token.isNewline, hasNewline]

/-- An aggregate that is being written. -/
structure Frame where
  kind : Kind
  children : List Token
  /-- What had been written when the writer came to it. -/
  start : Written
  /-- How many of its children are done. -/
  done : Nat
  /-- Whether the spaces that follow are dropped, as they are after a source line break. -/
  skipping : Bool

namespace Frame

/-- An aggregate that has been come to. -/
def enter (kind : Kind) (children : List Token) (w : Written) : Frame :=
  ⟨kind, children, w, 0, false⟩

/-- The indentation of its lines, by the column in which it starts. -/
def indent (frame : Frame) : Nat := frame.kind.indent frame.start.column

/-- The child that comes next. -/
def child? (frame : Frame) : Option Token := frame.children[frame.done]?

/-- The children after that. -/
def following (frame : Frame) : List Token := frame.children.drop (frame.done + 1)

theorem child?_of_drop {frame : Frame} {t : Token} {rest : List Token}
    (h : frame.children.drop frame.done = t :: rest) :
    frame.child? = some t ∧ frame.following = rest := by
  constructor
  · rw [child?, ← List.head?_drop, h, List.head?_cons]
  · rw [following, ← List.drop_drop, h, List.drop_one, List.tail_cons]

/-- One more child is done. -/
def advance (frame : Frame) (skipping : Bool) : Frame :=
  { frame with done := frame.done + 1, skipping := skipping }

end Frame

/-- The writer between two moves: what it has written, and the aggregates around it. -/
structure Writing where
  written : Written
  /-- The aggregates around, innermost first. -/
  frames : List Frame

namespace Writing

/-- The aggregates around once a node in them is done. -/
def leave : List Frame → List Frame
  | [] => []
  | frame :: outer => frame.advance false :: outer

/-- Write an atom, or come to an aggregate. -/
def come (w : Written) (outer : List Frame) (indent : Nat) : Token → Writing
  | .atom text true => ⟨(w.newLine indent).push (withoutNewline text), leave outer⟩
  | .atom text false => ⟨w.push text, leave outer⟩
  | .aggregate kind children => ⟨w, .enter kind children w :: outer⟩

/-- The first move is to the tree itself. -/
def begin (t : Token) : Writing := come .empty [] 0 t

/-- The next move, if the tree is not done. -/
def step (m : Writing) : Option Writing :=
  match m.frames with
  | [] => none
  | frame :: outer =>
    match frame.child? with
    | none => some ⟨m.written, leave outer⟩
    | some child =>
      if frame.kind.isVerbatim then some (come m.written (frame :: outer) frame.indent child)
      else if frame.skipping && child.isSpace then
        some ⟨m.written, frame.advance true :: outer⟩
      else if isSourceNewline child then
        let indent :=
          if wantsIndent (isClosed frame.kind frame.children) frame.following then frame.indent
          else 0
        some ⟨m.written.newLine indent, frame.advance true :: outer⟩
      else some (come m.written (frame :: outer) frame.indent child)

/-- Any number of moves. -/
def Steps : Writing → Writing → Prop := Relation.ReflTransGen fun m next => m.step = some next

/-- A state the writer of a tree comes to. -/
def Reached (t : Token) (m : Writing) : Prop := Steps (begin t) m

/-- Where in the tree the writer is: the numbers of the children that come next. -/
def placeOf (frames : List Frame) : List Nat := (frames.map Frame.done).reverse

variable {w : Written} {frame : Frame} {outer : List Frame} {child : Token} {m next : Writing}

/-! ## What a move does -/

theorem step_of_child?_eq_none (h : frame.child? = none) :
    step ⟨w, frame :: outer⟩ = some ⟨w, leave outer⟩ := by
  simp only [step, h]

/-- The indentation of the source is dropped after a source line break. -/
theorem step_of_isSpace (hkind : frame.kind.isVerbatim = false) (hskipping : frame.skipping = true)
    (hchild : frame.child? = some child) (h : child.isSpace = true) :
    step ⟨w, frame :: outer⟩ = some ⟨w, frame.advance true :: outer⟩ := by
  simp [step, hchild, hkind, hskipping, h]

theorem step_of_isSourceNewline (w : Written) (outer : List Frame)
    (hkind : frame.kind.isVerbatim = false) (hchild : frame.child? = some child)
    (h : isSourceNewline child = true) :
    step ⟨w, frame :: outer⟩ =
      some ⟨w.newLine (if wantsIndent (isClosed frame.kind frame.children) frame.following then
        frame.indent else 0), frame.advance true :: outer⟩ := by
  simp [step, hchild, hkind, h, isSpace_of_isSourceNewline h]

/-- Everything else is come to. -/
theorem step_of_come (hchild : frame.child? = some child)
    (h : frame.kind.isVerbatim = true ∨
      (frame.skipping && child.isSpace) = false ∧ isSourceNewline child = false) :
    step ⟨w, frame :: outer⟩ = some (come w (frame :: outer) frame.indent child) := by
  rcases h with h | ⟨hspace, hnewline⟩
  · simp [step, hchild, h]
  · simp only [step, hchild, hspace, hnewline]
    split <;> rfl

/-- The kinds of moves: to the end of an aggregate, past white space, or to the next child. -/
theorem step_cases (h : m.step = some next) :
    ∃ frame outer, m.frames = frame :: outer ∧
      ((frame.child? = none ∧ next = ⟨m.written, leave outer⟩) ∨
        (∃ indents : Option Nat, next.frames = frame.advance true :: outer ∧
          next.written = indents.elim m.written m.written.newLine) ∨
        ∃ child, frame.child? = some child ∧
          next = come m.written m.frames frame.indent child) := by
  obtain ⟨w, frames⟩ := m
  cases frames with
  | nil => cases h
  | cons frame outer =>
    refine ⟨frame, outer, rfl, ?_⟩
    simp only [step] at h
    split at h
    · next hnone => exact Or.inl ⟨hnone, (Option.some.inj h).symm⟩
    · next child hchild =>
      split at h
      · exact Or.inr (Or.inr ⟨child, hchild, (Option.some.inj h).symm⟩)
      · split at h
        · obtain rfl := Option.some.inj h
          exact Or.inr (Or.inl ⟨none, rfl, rfl⟩)
        · split at h
          · obtain rfl := Option.some.inj h
            exact Or.inr (Or.inl ⟨some _, rfl, rfl⟩)
          · exact Or.inr (Or.inr ⟨child, hchild, (Option.some.inj h).symm⟩)

theorem Steps.step (h : m.step = some next) : Steps m next := Relation.ReflTransGen.single h

/-! ## The whole run -/

mutual

/-- Moving through a node writes it. -/
theorem steps_come : ∀ (t : Token) (w : Written) (outer : List Frame) (indent : Nat),
    Steps (come w outer indent t) ⟨write indent w t, leave outer⟩
  | .atom _ true, _, _, _ => Relation.ReflTransGen.refl
  | .atom _ false, _, _, _ => Relation.ReflTransGen.refl
  | .aggregate kind children, w, outer, indent => by
    have hchildren := steps_children children (.enter kind children w) w outer rfl
    rw [come, write]
    exact hchildren

/-- Moving through the rest of the children of an aggregate writes them. -/
theorem steps_children : ∀ (rest : List Token) (frame : Frame) (w : Written) (outer : List Frame),
    frame.children.drop frame.done = rest →
    Steps ⟨w, frame :: outer⟩
      ⟨if frame.kind.isVerbatim then writeVerbatim frame.indent w rest
        else writeChildren (isClosed frame.kind frame.children) frame.indent frame.skipping w rest,
        leave outer⟩
  | [], frame, w, outer, h => by
    have hnone : frame.child? = none := by
      rw [Frame.child?, List.getElem?_eq_none (List.drop_eq_nil_iff.mp h)]
    refine .step ?_
    rw [step_of_child?_eq_none hnone, writeVerbatim, writeChildren, ite_self]
  | child :: rest, frame, w, outer, h => by
    obtain ⟨hchild, hfollowing⟩ := Frame.child?_of_drop h
    have ih (skipping : Bool) (w : Written) : Steps ⟨w, frame.advance skipping :: outer⟩
        ⟨if frame.kind.isVerbatim then writeVerbatim frame.indent w rest
          else writeChildren (isClosed frame.kind frame.children) frame.indent skipping w rest,
          leave outer⟩ :=
      steps_children rest (frame.advance skipping) w outer hfollowing
    have hcome := steps_come child w (frame :: outer) frame.indent
    rw [writeVerbatim, writeChildren]
    cases hkind : frame.kind.isVerbatim with
    | true =>
      -- every child of a string or a comment is written as it is
      rw [hkind] at ih
      exact .head (step_of_come hchild (Or.inl hkind)) (hcome.trans (ih false _))
    | false =>
      rw [hkind] at ih
      cases hspace : frame.skipping && child.isSpace with
      | true =>
        -- indentation of the source is passed over
        obtain ⟨hskipping, hspace⟩ := Bool.and_eq_true_iff.mp hspace
        exact .head (step_of_isSpace hkind hskipping hchild hspace) (ih true w)
      | false =>
        cases hnewline : isSourceNewline child with
        | true =>
          rw [← hfollowing] at ih ⊢
          exact .head (step_of_isSourceNewline w outer hkind hchild hnewline) (ih true _)
        | false =>
          exact .head (step_of_come hchild (Or.inr ⟨hspace, hnewline⟩)) (hcome.trans (ih false _))

end

/-- **Move by move** the writer comes to what it writes for the tree. -/
theorem reached_write (t : Token) : Reached t ⟨write 0 .empty t, []⟩ := steps_come t .empty [] 0

theorem exists_step (w : Written) (outer : List Frame) (hchild : frame.child? = some child) :
    ∃ next, step ⟨w, frame :: outer⟩ = some next := by
  simp only [step, hchild]
  split_ifs <;> exact ⟨_, rfl⟩

/-- The writer gets past a child. -/
theorem steps_advance (w : Written) (outer : List Frame) (hchild : frame.child? = some child) :
    ∃ w' skipping, Steps ⟨w, frame :: outer⟩ ⟨w', frame.advance skipping :: outer⟩ := by
  obtain ⟨⟨w', frames⟩, hstep⟩ := exists_step w outer hchild
  obtain ⟨_, _, hframes, ⟨hnone, -⟩ | ⟨_, rfl, -⟩ | ⟨other, -, hcome⟩⟩ := step_cases hstep
  all_goals obtain ⟨rfl, rfl⟩ := List.cons_eq_cons.mp hframes
  · rw [hchild] at hnone
    cases hnone
  · exact ⟨w', true, .step hstep⟩
  · rw [hcome] at hstep
    exact ⟨_, false, .head hstep (steps_come other w (frame :: outer) frame.indent)⟩

/-- The writer gets to every child of the aggregate that it is in. -/
theorem steps_to_child (w : Written) (frame : Frame) (outer : List Frame) {n : Nat}
    (h : frame.done ≤ n) (hn : n < frame.children.length) :
    ∃ w' skipping,
      Steps ⟨w, frame :: outer⟩ ⟨w', { frame with done := n, skipping := skipping } :: outer⟩ := by
  induction n, h using Nat.le_induction with
  | base => exact ⟨w, frame.skipping, .refl⟩
  | succ n _ ih =>
    obtain ⟨w₁, skipping₁, hsteps⟩ := ih (Nat.lt_of_succ_lt hn)
    have hchild : Frame.child? { frame with done := n, skipping := skipping₁ } = some _ :=
      List.getElem?_eq_getElem (Nat.lt_of_succ_lt hn)
    obtain ⟨w₂, skipping₂, hadvance⟩ := steps_advance w₁ outer hchild
    exact ⟨w₂, skipping₂, hsteps.trans hadvance⟩

theorem placeOf_cons (frame : Frame) (outer : List Frame) :
    placeOf (frame :: outer) = placeOf outer ++ [frame.done] := by
  simp [placeOf]

/-- The writer comes to every aggregate inside the one it comes to. -/
theorem steps_to_place (w : Written) (outer : List Frame) {place : List Nat} {kind kind' : Kind}
    {children children' : List Token}
    (h : (Token.aggregate kind children).at? place = some (.aggregate kind' children')) :
    ∃ w' outer', Steps ⟨w, .enter kind children w :: outer⟩
      ⟨w', .enter kind' children' w' :: outer'⟩ ∧ placeOf outer' = placeOf outer ++ place := by
  induction place generalizing kind children w outer with
  | nil =>
    obtain ⟨rfl, rfl⟩ := Token.aggregate.inj (Option.some.inj h)
    exact ⟨w, outer, .refl, (List.append_nil _).symm⟩
  | cons n place ih =>
    obtain ⟨child, hchild, hat⟩ := Option.bind_eq_some_iff.mp h
    obtain ⟨hn, -⟩ := List.getElem?_eq_some_iff.mp hchild
    obtain ⟨w₁, skipping, hsteps⟩ :=
      steps_to_child w (.enter kind children w) outer (Nat.zero_le n) hn
    cases child with
    | atom => cases place <;> cases hat
    | aggregate k grandchildren =>
      obtain ⟨w', outer', hinner, hplace⟩ := ih w₁
        ({ Frame.enter kind children w with done := n, skipping := skipping } :: outer) hat
      refine ⟨w', outer', hsteps.trans (.head (step_of_come hchild ?_) hinner), ?_⟩
      · exact Or.inr ⟨Bool.and_false _, rfl⟩
      · rw [hplace, placeOf_cons, List.append_assoc]
        rfl

/-- **The writer comes to every child** of every aggregate. -/
theorem exists_reached_of_at? {t : Token} {place : List Nat} {kind : Kind} {children : List Token}
    {n : Nat} (h : t.at? place = some (.aggregate kind children)) (hn : n < children.length) :
    ∃ m, Reached t m ∧ placeOf m.frames = place ++ [n] := by
  cases t with
  | atom => cases place <;> cases h
  | aggregate k siblings =>
    obtain ⟨w, outer, hsteps, hplace⟩ := steps_to_place .empty [] h
    obtain ⟨w', skipping, hchild⟩ :=
      steps_to_child w (.enter kind children w) outer (Nat.zero_le n) hn
    refine ⟨_, hsteps.trans hchild, ?_⟩
    rw [placeOf_cons, hplace]
    rfl

/-! ## What holds at every moment -/

theorem aligned_come (h : w.Aligned) (outer : List Frame) (indent : Nat) (t : Token) :
    (come w outer indent t).written.Aligned := by
  match t with
  | .atom text true => exact (h.newLine indent).push _
  | .atom text false => exact h.push text
  | .aggregate .. => exact h

theorem aligned_step (h : m.step = some next) (hm : m.written.Aligned) : next.written.Aligned := by
  obtain ⟨frame, outer, -, ⟨-, rfl⟩ | ⟨indents, -, hwritten⟩ | ⟨child, -, rfl⟩⟩ := step_cases h
  · exact hm
  · rw [hwritten]
    cases indents with
    | none => exact hm
    | some indent => exact hm.newLine indent
  · exact aligned_come hm m.frames frame.indent child

/-- **The column** is at every moment the number of characters since the last line break. -/
theorem Reached.aligned {t : Token} (h : Reached t m) : m.written.Aligned := by
  induction h with
  | refl => exact aligned_come (w := .empty) rfl [] 0 t
  | tail _ hstep ih => exact aligned_step hstep ih

theorem output_isPrefix_come (w : Written) (outer : List Frame) (indent : Nat) (t : Token) :
    w.output <+: (come w outer indent t).written.output := by
  match t with
  | .atom text true =>
    rw [come, Written.output_push, Written.output_newLine, List.append_assoc]
    exact List.prefix_append _ _
  | .atom text false =>
    rw [come, Written.output_push]
    exact List.prefix_append _ _
  | .aggregate .. => exact List.prefix_rfl

/-- Nothing that has been written is taken back. -/
theorem Steps.output_isPrefix (h : Steps m next) : m.written.output <+: next.written.output := by
  induction h with
  | refl => exact List.prefix_rfl
  | tail _ hstep ih =>
    refine ih.trans ?_
    obtain ⟨frame, outer, -, ⟨-, rfl⟩ | ⟨indents, -, hwritten⟩ | ⟨child, -, rfl⟩⟩ :=
      step_cases hstep
    · exact List.prefix_rfl
    · rw [hwritten]
      cases indents with
      | none => exact List.prefix_rfl
      | some indent =>
        rw [Option.elim_some, Written.output_newLine]
        exact List.prefix_append _ _
    · exact output_isPrefix_come _ _ _ child

theorem Reached.output_isPrefix {t : Token} (h : Reached t m) :
    m.written.output <+: t.write.toList := by
  have hfinal : Steps m ⟨write 0 .empty t, []⟩ := by
    rcases Relation.ReflTransGen.total_of_right_unique
      (fun _ _ _ h₁ h₂ => Option.some.inj (h₁.symm.trans h₂)) h (reached_write t) with h | h
    · exact h
    · rcases Relation.ReflTransGen.cases_head h with h | ⟨_, hstep, -⟩
      · rw [h]
        exact .refl
      · cases hstep
  rw [Token.write, Written.text, String.toList_ofList]
  exact hfinal.output_isPrefix

/--
Whether the aggregates around are those on the way to a place of a tree, each begun with what had
been written when the writer came to that place.
-/
def Placed (t : Token) : List Frame → Prop
  | [] => True
  | frame :: outer =>
    (t.at? (placeOf outer) = some (.aggregate frame.kind frame.children) ∧
      ((frame.start = .empty ∧ outer = []) ∨ Reached t ⟨frame.start, outer⟩)) ∧ Placed t outer

theorem Placed.leave {t : Token} (h : Placed t outer) : Placed t (leave outer) := by
  cases outer with
  | nil => exact h
  | cons => exact h

theorem Placed.step {t : Token} (hm : Reached t m) (h : Placed t m.frames)
    (hstep : m.step = some next) : Placed t next.frames := by
  obtain ⟨frame, outer, hframes, ⟨-, rfl⟩ | ⟨-, hnext, -⟩ | ⟨child, hchild, rfl⟩⟩ :=
    step_cases hstep
  · rw [hframes] at h
    exact h.2.leave
  · rw [hframes] at h
    rw [hnext]
    exact h
  · match child with
    | .atom _ true => exact h.leave
    | .atom _ false => exact h.leave
    | .aggregate kind children =>
      refine ⟨⟨?_, Or.inr hm⟩, h⟩
      rw [hframes] at h ⊢
      rw [placeOf_cons, Token.at?_concat h.1.1]
      exact hchild

theorem Reached.placed {t : Token} (h : Reached t m) : Placed t m.frames := by
  induction h with
  | refl =>
    match t with
    | .atom _ true => trivial
    | .atom _ false => trivial
    | .aggregate .. => exact ⟨⟨rfl, Or.inl ⟨rfl, rfl⟩⟩, trivial⟩
  | tail hm hstep ih => exact ih.step hm hstep

/-! ## Line breaks -/

/-- Whether the writer goes on by writing a text for some next children of the innermost frame. -/
def Puts (m : Writing) (count : Nat) (text : List Char) : Prop :=
  ∃ frame outer w skipping, m.frames = frame :: outer ∧
    Steps m ⟨w, { frame with done := frame.done + count, skipping := skipping } :: outer⟩ ∧
    w.output = m.written.output ++ text

theorem puts_lineBreak {text : List Char} (hchild : frame.child? = some (.atom text true)) :
    Puts ⟨w, frame :: outer⟩ 1
      ('\n' :: (List.replicate frame.indent ' ' ++ withoutNewline text)) := by
  refine ⟨frame, outer, (w.newLine frame.indent).push (withoutNewline text), false, rfl,
    .step (step_of_come hchild (Or.inr ⟨?_, rfl⟩)), ?_⟩
  · rw [Token.isSpace, Token.isNewline, Bool.true_or, Bool.not_true, Bool.and_false, Bool.and_false]
  · rw [Written.output_push, Written.output_newLine, List.append_assoc, List.cons_append]

/-- A line break before something other than white space or the closing delimiter is indented. -/
theorem wantsIndent_append {closed : Bool} {run after : List Token} {next : Token}
    (hrun : ∀ u ∈ run, u.isSpace = true) (hspace : next.isSpace = false)
    (hnewline : next.isNewline = false) (h : ¬ (run = [] ∧ after = [] ∧ closed = true)) :
    wantsIndent closed (run ++ next :: after) = true := by
  rw [wantsIndent, List.dropWhile_append_of_pos hrun, List.dropWhile_cons_of_neg (by simp [hspace])]
  cases run with
  | nil =>
    cases closed with
    | false => simp [hnewline]
    | true =>
      have hafter : after ≠ [] := fun hafter => h ⟨rfl, hafter, rfl⟩
      simp [hnewline, hspace, hafter]
  | cons u run => simp [hnewline, hrun u List.mem_cons_self]

/-- The spaces after a source line break are dropped. -/
theorem steps_spaces (w : Written) (frame : Frame) (outer : List Frame) {run rest : List Token}
    (hkind : frame.kind.isVerbatim = false) (hskipping : frame.skipping = true)
    (hrun : ∀ u ∈ run, u.isSpace = true) (h : frame.children.drop frame.done = run ++ rest) :
    Steps ⟨w, frame :: outer⟩
      ⟨w, { frame with done := frame.done + run.length, skipping := true } :: outer⟩ := by
  induction run generalizing frame with
  | nil =>
    obtain ⟨kind, children, start, done, skipping⟩ := frame
    obtain rfl : skipping = true := hskipping
    exact .refl
  | cons u run ih =>
    obtain ⟨hu, hrun⟩ := List.forall_mem_cons.mp hrun
    obtain ⟨hchild, hrest⟩ := Frame.child?_of_drop h
    have hsteps := ih (frame.advance true) hkind rfl hrun hrest
    rw [Frame.advance, Nat.add_assoc, Nat.add_comm 1] at hsteps
    exact .head (step_of_isSpace hkind hskipping hchild hu) hsteps

theorem puts_sourceNewline {run after : List Token} {next : Token}
    (hkind : frame.kind.isVerbatim = false)
    (h : frame.children.drop frame.done = .plain ['\n'] :: (run ++ next :: after))
    (hrun : ∀ u ∈ run, u.isSpace = true) (hspace : next.isSpace = false)
    (hnewline : next.isNewline = false)
    (hcloser : ¬ (run = [] ∧ after = [] ∧ isClosed frame.kind frame.children = true)) :
    Puts ⟨w, frame :: outer⟩ (1 + run.length) ('\n' :: List.replicate frame.indent ' ') := by
  obtain ⟨hchild, hfollowing⟩ := Frame.child?_of_drop h
  have hstep := step_of_isSourceNewline w outer hkind hchild rfl
  rw [hfollowing, wantsIndent_append hrun hspace hnewline hcloser, if_pos rfl] at hstep
  have hspaces := steps_spaces (w.newLine frame.indent) (frame.advance true) outer hkind rfl hrun
    hfollowing
  rw [Frame.advance, Nat.add_assoc] at hspaces
  exact ⟨frame, outer, _, true, rfl, .head hstep hspaces, Written.output_newLine w frame.indent⟩

end Writing

/-- The indentation of an aggregate that starts after what has been written. -/
def Frame.margin (frame : Frame) : Nat :=
  if frame.kind = .root then 0 else frame.start.lineLength + 1

open Writing

theorem Frame.indent_eq_margin {frame : Frame} (h : frame.start.Aligned) :
    frame.indent = frame.margin := by
  rw [indent, margin, Kind.indent, h]

/--
**Indentation follows the enclosing aggregate.** The writer goes through any tree move by move,
up to what it writes for the whole tree, and on its way comes to every child of every aggregate.
At every moment its column is the number of characters since the last line break of what it has
written, also within a move that starts a line, and what it has written is the start of the text.
The aggregates around are those of the tree, each begun with what had been written when the
writer came to its place.

A marked line break is written as a line break, the indentation of the innermost aggregate around
it, which is one more than the length of the last line when that aggregate started and none under
the root, and the rest of its text. A line break of the source outside strings and comments is
written with the same indentation, in place of the spaces that follow it, unless another line
break, the end of the aggregate, or, with no space before it, the closing delimiter comes next.
-/
theorem breaks_indent (t : Token) :
    Reached t ⟨write 0 .empty t, []⟩ ∧
    (∀ m, Reached t m → m.written.Aligned ∧ (∀ indent, (m.written.newLine indent).Aligned) ∧
      m.written.output <+: t.write.toList) ∧
    (∀ place kind children n, t.at? place = some (.aggregate kind children) →
      n < children.length → ∃ m, Reached t m ∧ placeOf m.frames = place ++ [n]) ∧
    (∀ text, t = .atom text true → t.write.toList = '\n' :: withoutNewline text) ∧
    ∀ m frame outer, Reached t m → m.frames = frame :: outer →
      t.at? (placeOf outer) = some (.aggregate frame.kind frame.children) ∧
      ((frame.start = .empty ∧ outer = []) ∨ Reached t ⟨frame.start, outer⟩) ∧
      (∀ text, frame.child? = some (.atom text true) →
        m.Puts 1 ('\n' :: (List.replicate frame.margin ' ' ++ withoutNewline text))) ∧
      ∀ run next after, frame.kind.isVerbatim = false →
        frame.children.drop frame.done = .plain ['\n'] :: (run ++ next :: after) →
        (∀ u ∈ run, u.isSpace = true) → next.isSpace = false → next.isNewline = false →
        ¬ (run = [] ∧ after = [] ∧ isClosed frame.kind frame.children = true) →
        m.Puts (1 + run.length) ('\n' :: List.replicate frame.margin ' ') := by
  refine ⟨reached_write t, fun m hm => ⟨hm.aligned, hm.aligned.newLine, hm.output_isPrefix⟩,
    fun _ _ _ _ => exists_reached_of_at?, ?_, fun m frame outer hm hframes => ?_⟩
  · rintro text rfl
    rw [Token.write, Written.text, String.toList_ofList]
    exact (Written.output_push _ _).trans (by rw [Written.output_newLine]; rfl)
  · obtain ⟨w, frames⟩ := m
    obtain rfl : frames = frame :: outer := hframes
    obtain ⟨hat, hstart⟩ := hm.placed.1
    have hindent : frame.indent = frame.margin := by
      refine Frame.indent_eq_margin ?_
      rcases hstart with ⟨hstart, -⟩ | hstart
      · rw [hstart]
        rfl
      · exact hstart.aligned
    rw [← hindent]
    exact ⟨hat, hstart, fun _ => puts_lineBreak, fun _ _ _ => puts_sourceNewline⟩

/-- For instance in a list in the second column, at a marked line break and at one of the source. -/
theorem breaks_indent_list :
    let children : List Token :=
      [.char '(', .newline, .plain ['b'], .char '\n', .space, .plain ['c'], .char ')']
    let t : Token := .aggregate .root [.plain ['a'], .aggregate .list children]
    let outer : List Frame := [⟨.root, [.plain ['a'], .aggregate .list children], .empty, 1, false⟩]
    let first : Frame := ⟨.list, children, ⟨['a'], 1⟩, 1, false⟩
    let second : Frame := ⟨.list, children, ⟨['a'], 1⟩, 3, false⟩
    let m : Writing := ⟨⟨['(', 'a'], 2⟩, first :: outer⟩
    let later : Writing := ⟨⟨['b', ' ', ' ', '\n', '(', 'a'], 3⟩, second :: outer⟩
    ((t.at? [1] = some (.aggregate .list children) ∧ 1 < children.length) ∧
      ∃ m, Reached t m ∧ placeOf m.frames = [1, 1]) ∧
    ((Reached t m ∧ first.child? = some (.atom ['\n'] true)) ∧ m.Puts 1 ['\n', ' ', ' ']) ∧
    ((Reached t later ∧ second.kind.isVerbatim = false ∧
        second.children.drop second.done =
          .plain ['\n'] :: ([.space] ++ .plain ['c'] :: [.char ')']) ∧
        (∀ u ∈ [Token.space], u.isSpace = true) ∧ (Token.plain ['c']).isSpace = false ∧
        (Token.plain ['c']).isNewline = false ∧
        ¬ ([Token.space] = [] ∧ [Token.char ')'] = [] ∧
          isClosed second.kind second.children = true)) ∧
      later.Puts 2 ['\n', ' ', ' ']) := by
  intro children t outer first second m later
  have hm : Reached t m := .tail (.tail (.tail .refl rfl) rfl) rfl
  have hlater : Reached t later := .tail (.tail hm rfl) rfl
  have hspaces : ∀ u ∈ [Token.space], u.isSpace = true := by simp; decide
  have hcloser : ¬ ([Token.space] = [] ∧ [Token.char ')'] = [] ∧
      isClosed second.kind second.children = true) := fun h => absurd h.1 (List.cons_ne_nil _ _)
  obtain ⟨-, -, hplaces, -, hbreaks⟩ := breaks_indent t
  obtain ⟨-, -, hmarked, -⟩ := hbreaks m first outer hm rfl
  obtain ⟨-, -, -, hsource⟩ := hbreaks later second outer hlater rfl
  refine ⟨⟨⟨rfl, by decide⟩, hplaces [1] .list children 1 rfl (by decide)⟩,
    ⟨⟨hm, rfl⟩, hmarked ['\n'] rfl⟩, ?_⟩
  exact ⟨⟨hlater, rfl, rfl, hspaces, rfl, rfl, hcloser⟩,
    hsource [.space] (.plain ['c']) [.char ')'] rfl rfl hspaces rfl rfl hcloser⟩

end ExactLisp.Layout
