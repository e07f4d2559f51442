import ExactLisp.Proofs.Layout.Indexed
import ExactLisp.Proofs.Layout.Rules
import Mathlib.Data.List.Sort

/-!
# The passes stay within bounds

By index (`Indexed`) an edit has a result only if every child it takes, every part it cuts out
and every run it replaces is within the list as it is at that moment. The edits of the standard
layout always have one, whatever the children are, and it is what the passes make of them.

Where places are computed from the list that is edited, this is plain. The others are those at
which the line is broken (`Indexed.breakBeforeEach_eq`): they are in order, and something other
than white space stands at each of them. The last one is done first, and a break only replaces
white space directly before its place, so it leaves the places before it valid.

A pass keeps the skeleton of every node, so it adds no levels to a tree, and a walk over all that
it makes of the tree comes to an end (`Indexed.walks_standard`).
-/

namespace ExactLisp.Layout

variable {kind : Kind} {children changed : List Token} {place : Nat}

/-! ## The parts of an aggregate -/

theorem two_le_length_of_isClosed (h : isClosed kind children = true) : 2 ≤ children.length := by
  rw [isClosed] at h
  split at h
  · exact of_decide_eq_true (Bool.and_eq_true_iff.mp h).1
  · cases h

theorem innerEnd_le_length (kind : Kind) (children : List Token) :
    innerEnd kind children ≤ children.length := by
  have hstart : innerStart kind children ≤ children.length := Nat.min_le_right _ _
  rw [innerEnd]
  split <;> omega

theorem Indexed.placeBefore_length (h : isClosed kind children = true) :
    placeBefore children.length = some (children.length - 1) := by
  obtain ⟨n, hn⟩ := Nat.exists_eq_add_of_le (two_le_length_of_isClosed h)
  rw [hn, Nat.add_comm]
  rfl

theorem Indexed.innerRange_eq (kind : Kind) (children : List Token) :
    innerRange kind children = some (innerStart kind children, innerEnd kind children) := by
  rw [innerRange, innerEnd]
  cases hclosed : isClosed kind children with
  | false => rfl
  | true =>
    rw [if_pos rfl, placeBefore_length hclosed]
    rfl

/-- Places that pass a test are places of children that do. -/
theorem mem_innerPlaces {test : Token → Bool} :
    place ∈ innerPlaces kind children test ↔
      innerStart kind children ≤ place ∧ place < innerEnd kind children ∧
        ∃ t, children[place]? = some t ∧ test t = true := by
  simp only [innerPlaces, List.mem_map, List.mem_filter, List.mem_zipIdx_iff_getElem?,
    Bool.and_eq_true, decide_eq_true_eq]
  constructor
  · rintro ⟨⟨t, i⟩, ⟨ht, ⟨hstart, hstop⟩, htest⟩, rfl⟩
    exact ⟨hstart, hstop, t, ht, htest⟩
  · rintro ⟨hstart, hstop, t, ht, htest⟩
    exact ⟨⟨t, place⟩, ⟨ht, ⟨hstart, hstop⟩, htest⟩, rfl⟩

theorem pairwise_innerPlaces (kind : Kind) (children : List Token) (test : Token → Bool) :
    (innerPlaces kind children test).Pairwise (· < ·) := by
  have hzip : (children.zipIdx.map Prod.snd).Pairwise (· < ·) := by
    rw [List.zipIdx_map_snd]
    exact List.pairwise_lt_range'
  exact hzip.sublist (List.filter_sublist.map _)

theorem Indexed.pick_eq {test : Token → Bool} {places : List Nat}
    (h : ∀ place ∈ places, place < children.length) :
    pick children test places =
      some (places.filter fun place => children[place]?.any test) := by
  induction places with
  | nil => rfl
  | cons place rest ih =>
    obtain ⟨hplace, hrest⟩ := List.forall_mem_cons.mp h
    rw [pick, ih hrest, List.getElem?_eq_getElem hplace, List.filter_cons,
      List.getElem?_eq_getElem hplace]
    rfl

theorem innerPlaces_eq_filter (kind : Kind) (children : List Token) (test : Token → Bool) :
    innerPlaces kind children test =
      (List.range' (innerStart kind children)
        (innerEnd kind children - innerStart kind children)).filter
          fun place => children[place]?.any test := by
  refine List.Pairwise.eq_of_mem_iff (pairwise_innerPlaces kind children test)
    (List.Pairwise.filter _ List.pairwise_lt_range') fun place => ?_
  rw [mem_innerPlaces, List.mem_filter, List.mem_range'_1, Option.any_eq_true]
  constructor
  · rintro ⟨hstart, hstop, htest⟩
    exact ⟨⟨hstart, by omega⟩, htest⟩
  · rintro ⟨⟨hstart, hstop⟩, htest⟩
    exact ⟨hstart, by omega, htest⟩

theorem Indexed.elements_eq (kind : Kind) (children : List Token) :
    elements kind children = some (Layout.elements kind children) := by
  have hend := innerEnd_le_length kind children
  rw [elements, innerRange_eq, Layout.elements, innerPlaces_eq_filter]
  exact pick_eq fun place h => by rw [List.mem_range'_1] at h; omega

theorem Indexed.head_eq (kind : Kind) (children : List Token) :
    head kind children = some (head? kind children) := by
  rw [head, elements_eq, head?]
  cases h : Layout.elements kind children with
  | nil => rfl
  | cons first rest =>
    obtain ⟨-, -, t, ht, -⟩ := mem_innerPlaces.mp (h ▸ List.mem_cons_self : first ∈ _)
    simp [ht]

/-! ## Breaking lines -/

/-- Whether something other than white space stands at a place. -/
def SolidAt (children : List Token) (place : Nat) : Prop :=
  ∃ t, children[place]? = some t ∧ t.isWhitespace = false

theorem SolidAt.lt_length (h : SolidAt children place) : place < children.length := by
  obtain ⟨t, ht, -⟩ := h
  exact (List.getElem?_eq_some_iff.mp ht).1

theorem solidAt_of_mem_innerPlaces {test : Token → Bool}
    (htest : ∀ t, t.isWhitespace = true → test t = false)
    (h : place ∈ innerPlaces kind children test) : SolidAt children place := by
  obtain ⟨-, -, t, ht, hpass⟩ := mem_innerPlaces.mp h
  refine ⟨t, ht, ?_⟩
  by_contra hwhite
  rw [htest t (by simpa using hwhite)] at hpass
  cases hpass

theorem trimEnd_isPrefix (ts : List Token) : trimEnd ts <+: ts := by
  rw [trimEnd, ← List.reverse_suffix, List.reverse_reverse]
  exact List.dropWhile_suffix _

theorem trimEnd_concat (ts : List Token) (t : Token) :
    trimEnd (ts ++ [t]) = if t.isWhitespace then trimEnd ts else ts ++ [t] := by
  rw [trimEnd, List.reverse_append, List.reverse_singleton, List.singleton_append,
    List.dropWhile_cons]
  split
  · rfl
  · rw [List.reverse_cons, List.reverse_reverse]

/-- What does not end in white space stays when more is put after it and the end is trimmed. -/
theorem prefix_trimEnd {ts us : List Token} (h : ts <+: us) (htight : Tight ts) :
    ts <+: trimEnd us := by
  obtain ⟨rest, rfl⟩ := h
  induction rest using List.reverseRecOn with
  | nil =>
    cases ts using List.reverseRecOn with
    | nil => exact List.nil_prefix
    | append_singleton ts t =>
      rw [List.append_nil, trimEnd_concat, htight t List.getLast?_concat]
      exact List.prefix_rfl
  | append_singleton rest t ih =>
    rw [← List.append_assoc, trimEnd_concat]
    split
    · exact ih
    · rw [List.append_assoc]
      exact List.prefix_append _ _

theorem Indexed.runStart_eq (h : place ≤ children.length) :
    runStart children place = some (trimEnd (children.take place)).length := by
  induction place with
  | zero => rfl
  | succ place ih =>
    have hchild := List.getElem?_eq_getElem h
    rw [runStart, hchild, List.take_add_one, hchild, Option.toList_some, trimEnd_concat]
    simp only [Option.bind_eq_bind, Option.bind_some]
    split
    · exact ih (Nat.le_of_succ_le h)
    · rw [List.length_append, List.length_take, Nat.min_eq_left (Nat.le_of_succ_le h)]
      rfl

/-- The run before a place can be cut out and replaced. -/
theorem length_trimEnd_le (h : place ≤ children.length) :
    (trimEnd (children.take place)).length ≤ place := by
  have hle := (trimEnd_isPrefix (children.take place)).length_le
  rwa [List.length_take, Nat.min_eq_left h] at hle

theorem take_length_trimEnd (children : List Token) (place : Nat) :
    children.take (trimEnd (children.take place)).length = trimEnd (children.take place) :=
  (List.prefix_iff_eq_take.mp
    ((trimEnd_isPrefix (children.take place)).trans (List.take_prefix place children))).symm

theorem Indexed.breakBefore_eq (h : place ≤ children.length) (extra : Nat) :
    breakBefore children place extra = some (Layout.breakBefore children place extra) := by
  rw [breakBefore, runStart_eq h]
  simp only [Option.bind_eq_bind, Option.bind_some]
  rw [splice, if_pos ⟨length_trimEnd_le h, h⟩, take_length_trimEnd]
  rfl

/-- What comes before a break, up to something other than white space, stays in its place. -/
theorem take_breakBefore {i : Nat} (hi : SolidAt children i) (hlt : i < place) (extra : Nat) :
    (breakBefore children place extra).take (i + 1) = children.take (i + 1) := by
  have hstart : children.take (i + 1) <+: trimEnd (children.take place) := by
    refine prefix_trimEnd (List.take_prefix_take_left hlt) ?_
    obtain ⟨t, ht, hsolid⟩ := hi
    rw [List.take_add_one, ht, Option.toList_some]
    intro u hu
    rw [List.getLast?_concat] at hu
    cases hu
    exact hsolid
  have hlength : (children.take (i + 1)).length = i + 1 := by
    rw [List.length_take, Nat.min_eq_left hi.lt_length]
  have htake := List.prefix_iff_eq_take.mp (hstart.trans (List.prefix_append _ _ :
    _ <+: breakBefore children place extra))
  rw [hlength] at htake
  exact htake.symm

/-- A place that is among the first ones of both lists holds the same in both. -/
theorem getElem?_of_take_eq {i n : Nat} (h : changed.take n = children.take n) (hi : i < n) :
    changed[i]? = children[i]? := by
  rw [← List.getElem?_take_of_lt hi, h, List.getElem?_take_of_lt hi]

theorem SolidAt.of_take_eq {i n : Nat} (hsolid : SolidAt children i)
    (h : changed.take n = children.take n) (hi : i < n) : SolidAt changed i := by
  obtain ⟨t, ht, hwhite⟩ := hsolid
  exact ⟨t, (getElem?_of_take_eq h hi).trans ht, hwhite⟩

/-- What comes before all breaks, up to something other than white space, stays in its place. -/
theorem take_breakBeforeEach {i : Nat} {places : List Nat} (hi : SolidAt children i)
    (h : ∀ place ∈ places, i < place) :
    (breakBeforeEach children places).take (i + 1) = children.take (i + 1) := by
  induction places with
  | nil => rfl
  | cons place rest ih =>
    obtain ⟨hplace, hrest⟩ := List.forall_mem_cons.mp h
    have hsolid := hi.of_take_eq (ih hrest) (Nat.lt_succ_self i)
    exact (take_breakBefore hsolid hplace 0).trans (ih hrest)

theorem SolidAt.breakBeforeEach {i : Nat} {places : List Nat} (hi : SolidAt children i)
    (h : ∀ place ∈ places, i < place) : SolidAt (breakBeforeEach children places) i :=
  hi.of_take_eq (take_breakBeforeEach hi h) (Nat.lt_succ_self i)

/--
**Places stay valid.** Breaking the line before places from left to right, none of them white
space, stays within bounds.
-/
theorem Indexed.breakBeforeEach_eq {places : List Nat} (hsorted : places.Pairwise (· < ·))
    (hsolid : ∀ place ∈ places, SolidAt children place) :
    breakBeforeEach children places = some (Layout.breakBeforeEach children places) := by
  induction places with
  | nil => rfl
  | cons place rest ih =>
    obtain ⟨hlater, hsorted⟩ := List.pairwise_cons.mp hsorted
    obtain ⟨hplace, hsolid⟩ := List.forall_mem_cons.mp hsolid
    rw [breakBeforeEach, List.foldrM_cons, ← breakBeforeEach, ih hsorted hsolid]
    -- the later breaks have left this place as it was
    exact breakBefore_eq (Nat.le_of_lt (hplace.breakBeforeEach hlater).lt_length) 0

/-! ## Spacing -/

theorem separateAll_cons (t : Token) (rest : List Token) :
    ∃ others, separateAll (t :: rest) = t :: others := by
  cases rest with
  | nil => exact ⟨[], rfl⟩
  | cons u rest =>
    rw [separateAll]
    split <;> exact ⟨_, rfl⟩

theorem Indexed.splice_append {α : Type} (before after new : List α) :
    splice (before ++ after) before.length before.length new = some (before ++ (new ++ after)) := by
  rw [splice, if_pos ⟨Nat.le_refl _, by rw [List.length_append]; exact Nat.le_add_right _ _⟩,
    List.take_left, List.drop_left]

/-- Putting spaces in from the right, one place at a time, separates all neighbours. -/
theorem Indexed.foldrM_separateAt (before middle after : List Token) :
    (List.range' (before.length + 1) (middle.length - 1)).foldrM separateAt
        (before ++ (middle ++ after)) =
      some (before ++ (separateAll middle ++ after)) := by
  induction middle generalizing before with
  | nil => rfl
  | cons a middle ih =>
    cases middle with
    | nil => rfl
    | cons b middle =>
      have ih := ih (before ++ [a])
      simp only [List.length_append, List.length_cons, List.length_nil, List.append_assoc,
        List.cons_append, List.nil_append] at ih ⊢
      rw [Nat.add_sub_cancel, Nat.zero_add] at ih
      rw [Nat.add_sub_cancel, List.range'_succ, List.foldrM_cons, ih]
      obtain ⟨others, hothers⟩ := separateAll_cons b middle
      have ha : (before ++ a :: (separateAll (b :: middle) ++ after))[before.length]? = some a := by
        simp
      have hb : (before ++ a :: (separateAll (b :: middle) ++ after))[before.length + 1]? =
          some b := by
        rw [hothers, List.getElem?_append_right (Nat.le_add_right ..), Nat.add_sub_cancel_left]
        rfl
      have hinsert := splice_append (before ++ [a]) (separateAll (b :: middle) ++ after) [.space]
      simp only [List.length_append, List.length_cons, List.length_nil, List.append_assoc,
        List.cons_append, List.nil_append, Nat.zero_add] at hinsert
      simp only [separateAt, placeBefore, Option.bind_eq_bind, Option.bind_some, ha, hb, hinsert]
      rw [separateAll]
      cases a.isWhitespace <;> cases b.isWhitespace <;> rfl

theorem Indexed.separateElements_eq (kind : Kind) (children : List Token) :
    separateElements kind children = some (Layout.separateElements kind children) := by
  have hstart : innerStart kind children ≤ children.length := Nat.min_le_right _ _
  have hend := innerEnd_le_length kind children
  have hle := innerStart_le_innerEnd kind children
  have hsplit : children = children.take (innerStart kind children) ++
      ((children.take (innerEnd kind children)).drop (innerStart kind children) ++
        children.drop (innerEnd kind children)) := by
    rw [← List.append_assoc, List.drop_take, ← List.take_add,
      Nat.add_sub_cancel' hle, List.take_append_drop]
  have hfold := foldrM_separateAt (children.take (innerStart kind children))
    ((children.take (innerEnd kind children)).drop (innerStart kind children))
    (children.drop (innerEnd kind children))
  rw [← hsplit] at hfold
  rw [separateElements, innerRange_eq, Layout.separateElements, List.append_assoc, ← hfold]
  simp only [Option.bind_eq_bind, Option.bind_some, List.length_take, List.length_drop,
    Nat.min_eq_left hstart, Nat.min_eq_left hend, Nat.sub_sub]

theorem Indexed.trimOpening_eq (children : List Token) :
    trimOpening children = some (Layout.trimOpening children) := by
  rw [trimOpening]
  match children with
  | [] => rfl
  | [_] => rfl
  | opener :: .aggregate .. :: rest => rfl
  | opener :: .atom text lineBreak :: rest =>
    rw [Layout.trimOpening]
    by_cases h : text = [' ']
    · subst h
      rfl
    · rw [if_neg h]
      exact if_neg fun heq => h (Option.some.inj heq)

theorem Indexed.spaceOut_eq (kind : Kind) (children : List Token) :
    spaceOut kind children = some (Layout.spaceOut kind children) := by
  cases kind with
  | root | str | comment => rfl
  | quote =>
    rw [spaceOut, Layout.spaceOut, trimOpening_eq]
    split <;> rfl
  | list => rw [spaceOut, Layout.spaceOut, trimOpening_eq]; exact separateElements_eq .list _
  | array => rw [spaceOut, Layout.spaceOut, trimOpening_eq]; exact separateElements_eq .array _

/-! ## Special forms -/

/-- A pass over lists that start with a word only meets lists with an element. -/
theorem Indexed.whenHeaded_eq {heads : List String} {edit? : List Token → Option (List Token)}
    {edit : List Token → List Token}
    (h : ∀ children, Layout.elements .list children ≠ [] → edit? children = some (edit children))
    (kind : Kind) (children : List Token) :
    whenHeaded heads edit? kind children = some (Layout.whenHeaded heads edit kind children) := by
  rw [whenHeaded, Layout.whenHeaded]
  by_cases hkind : kind = .list
  · subst hkind
    rw [if_pos rfl, head_eq]
    simp only [Option.bind_eq_bind, Option.bind_some, true_and]
    split
    · next hhead =>
      refine h children fun hnil => ?_
      rw [head?, hnil] at hhead
      cases hhead
    · rfl
  · rw [if_neg hkind, if_neg fun h => hkind h.1]

theorem pairwise_elements (kind : Kind) (children : List Token) :
    (elements kind children).Pairwise (· < ·) :=
  pairwise_innerPlaces kind children isElement

theorem solidAt_of_mem_elements (h : place ∈ elements kind children) : SolidAt children place :=
  solidAt_of_mem_innerPlaces isElement_of_isWhitespace h

/-- Breaking the line before all elements but the first ones. -/
theorem Indexed.breakBeforeEach_drop (kind : Kind) (children : List Token) (n : Nat) :
    breakBeforeEach children ((Layout.elements kind children).drop n) =
      some (Layout.breakBeforeEach children ((Layout.elements kind children).drop n)) :=
  breakBeforeEach_eq ((pairwise_elements kind children).sublist (List.drop_sublist _ _))
    fun _ h => solidAt_of_mem_elements (List.mem_of_mem_drop h)

theorem Indexed.slice_length {α : Type} {xs : List α} {start : Nat} (h : start ≤ xs.length) :
    slice xs start xs.length = some (xs.drop start) := by
  rw [slice, if_pos ⟨h, Nat.le_refl _⟩, List.take_length]

theorem Indexed.breakSequence_eq (h : Layout.elements .list children ≠ []) :
    breakSequence children = some (Layout.breakSequence children) := by
  rw [breakSequence, elements_eq]
  simp only [Option.bind_eq_bind, Option.bind_some]
  rw [slice_length (List.length_pos_iff.mpr h)]
  exact breakBeforeEach_drop .list children 1

theorem Indexed.breakLambda_eq (children : List Token) :
    breakLambda children = some (Layout.breakLambda children) := by
  rw [breakLambda, elements_eq]
  exact breakBeforeEach_drop .list children 2

theorem Indexed.breakBindings_eq (t : Token) :
    breakBindings t = some (Layout.breakBindings t) := by
  match t with
  | .atom .. => rfl
  | .aggregate kind children =>
    cases kind with
    | list =>
      rw [breakBindings, elements_eq]
      simp only [Option.bind_eq_bind, Option.bind_some]
      rw [breakBeforeEach_drop]
      rfl
    | root | array | str | comment | quote => rfl

theorem Indexed.breakLet_eq (children : List Token) :
    breakLet children = some (Layout.breakLet children) := by
  have hbreak := breakBeforeEach_drop .list children 2
  have hsorted := pairwise_elements .list children
  rw [breakLet, elements_eq, Layout.breakLet]
  simp only [Option.bind_eq_bind, Option.bind_some]
  rcases helements : Layout.elements .list children with
    _ | ⟨first, _ | ⟨bindings, _ | ⟨third, body⟩⟩⟩
  · rfl
  · rfl
  · rfl
  · rw [helements] at hbreak hsorted
    -- the bindings come before all breaks
    have hlater := (List.pairwise_cons.mp (List.pairwise_cons.mp hsorted).2).1
    have hmem : bindings ∈ Layout.elements .list children := by simp [helements]
    obtain ⟨t, ht, -⟩ := (solidAt_of_mem_elements hmem).breakBeforeEach hlater
    rw [if_neg (by simp), slice_length (by simp), Option.bind_some, hbreak]
    simp only [Option.bind_some, List.drop_succ_cons, List.drop_zero, List.getElem?_cons_succ,
      List.getElem?_cons_zero, ht, breakBindings_eq]
    rw [List.modify_eq_set_getElem?, ht]
    rfl

theorem Indexed.closerPlace_eq (kind : Kind) (children : List Token) :
    closerPlace kind children =
      some (if isClosed kind children then some (children.length - 1) else none) := by
  rw [closerPlace]
  cases hclosed : isClosed kind children with
  | false => rfl
  | true =>
    rw [placeBefore_length hclosed]
    rfl

/-- The closing delimiter comes after all elements. -/
theorem ne_closer_of_mem_elements (h : place ∈ elements kind children) :
    some place ≠ if isClosed kind children then some (children.length - 1) else none := by
  obtain ⟨hstart, hend, -⟩ := mem_innerPlaces.mp h
  split
  · next hclosed =>
    rw [innerEnd, if_pos hclosed] at hend
    have hlt : place < children.length - 1 := by omega
    exact fun heq => Nat.ne_of_lt hlt (Option.some.inj heq)
  · exact Option.some_ne_none place

theorem Indexed.breakConditional_eq (children : List Token) :
    breakConditional children = some (Layout.breakConditional children) := by
  obtain ⟨closer, hcloser⟩ : ∃ closer, closer =
      if isClosed .list children then some (children.length - 1) else none := ⟨_, rfl⟩
  have hbreak := breakBeforeEach_drop .list children 3
  have hsorted := pairwise_elements .list children
  have hne : ∀ place ∈ Layout.elements .list children, some place ≠ closer :=
    fun place h => hcloser ▸ ne_closer_of_mem_elements h
  rw [breakConditional, elements_eq, closerPlace_eq, ← hcloser, Layout.breakConditional]
  simp only [Option.bind_eq_bind, Option.bind_some]
  rcases helements : Layout.elements .list children with
    _ | ⟨first, _ | ⟨condition, _ | ⟨consequent, alternatives⟩⟩⟩
  · cases closer <;> rfl
  · cases closer <;> rfl
  -- without branches, only the closing bracket is left to move
  · cases hclosed : isClosed .list children with
    | false =>
      rw [hclosed] at hcloser
      subst hcloser
      rfl
    | true =>
      rw [hclosed, if_pos rfl] at hcloser
      subst hcloser
      have hnone : breakBeforeEach children [] = some children := rfl
      rw [if_neg (by simp), slice_length (by simp)]
      simp only [Option.bind_some, Option.toList_some, List.cons_append, List.nil_append,
        List.drop_succ_cons, List.drop_nil, List.filter_nil, List.getElem?_cons_succ,
        List.getElem?_cons_zero, hnone, if_true]
      exact breakBefore_eq (Nat.sub_le _ _) 0
  · rw [helements] at hbreak hsorted hne
    have hlater :=
      (List.pairwise_cons.mp (List.pairwise_cons.mp (List.pairwise_cons.mp hsorted).2).2).1
    have hmem : consequent ∈ Layout.elements .list children := by simp [helements]
    have hlength := ((solidAt_of_mem_elements hmem).breakBeforeEach hlater).lt_length
    have hfilter : ((alternatives ++ closer.toList).filter fun place => some place != closer) =
        alternatives := by
      rw [List.filter_append, List.filter_eq_self.mpr fun place h => bne_iff_ne.mpr
        (hne place (by simp [h]))]
      cases closer <;> simp
    rw [List.drop_succ_cons, List.drop_succ_cons, List.drop_succ_cons, List.drop_zero] at hbreak
    rw [if_neg (by simp), slice_length (by simp)]
    simp only [Option.bind_some, List.cons_append, List.drop_succ_cons, List.drop_zero,
      List.getElem?_cons_succ, List.getElem?_cons_zero, hfilter, hbreak]
    rw [if_neg (hne consequent (by simp))]
    exact breakBefore_eq (Nat.le_of_lt hlength) 1

/-! ## Comments and continuations -/

theorem hasContent_self (children : List Token) (start : Nat) :
    hasContent children start start = false := by
  rw [hasContent, List.drop_eq_nil_of_le (List.length_take_le _ _)]
  rfl

theorem hasContent_succ {start : Nat} {child : Token} (hstart : start ≤ place)
    (hchild : children[place]? = some child) :
    hasContent children start (place + 1) =
      (hasContent children start place || !child.isWhitespace) := by
  have hplace := (List.getElem?_eq_some_iff.mp hchild).1
  have hlength : start ≤ (children.take place).length := by
    rwa [List.length_take, Nat.min_eq_left (Nat.le_of_lt hplace)]
  rw [hasContent, hasContent, List.take_add_one, hchild, Option.toList_some,
    List.drop_append_of_le_length hlength, List.any_append, List.any_cons, List.any_nil,
    Bool.or_false]

/-- What has been seen on the way to a place is what stands before it. -/
theorem Indexed.lineComments_eq {start n : Nat} (hstart : start ≤ place)
    (h : place + n ≤ children.length) :
    lineComments children (hasContent children start place) (List.range' place n) =
      some (((List.range' place n).filter fun i => children[i]?.any isLineComment).filter
        (hasContent children start)) := by
  induction n generalizing place with
  | zero => rfl
  | succ n ih =>
    have hchild := List.getElem?_eq_getElem (show place < children.length by omega)
    have ih := ih (Nat.le_succ_of_le hstart) (show place + 1 + n ≤ children.length by omega)
    rw [hasContent_succ hstart hchild] at ih
    rw [List.range'_succ, lineComments, hchild]
    simp only [Option.bind_eq_bind, Option.bind_some, ih, List.filter_cons, hchild,
      Option.any_some]
    cases isLineComment children[place] <;>
      cases hcontent : hasContent children start place <;> simp [hcontent]

theorem Indexed.breakLineComments_eq (kind : Kind) (children : List Token) :
    breakLineComments kind children =
      some (Layout.breakBeforeEach children
        ((innerPlaces kind children isLineComment).filter
          (hasContent children (innerStart kind children)))) := by
  have hend := innerEnd_le_length kind children
  have hle := innerStart_le_innerEnd kind children
  have hcomments := lineComments_eq (Nat.le_refl (innerStart kind children))
    (show innerStart kind children + (innerEnd kind children - innerStart kind children) ≤
      children.length by omega)
  rw [hasContent_self, ← innerPlaces_eq_filter] at hcomments
  rw [breakLineComments, innerRange_eq]
  simp only [Option.bind_eq_bind, Option.bind_some, hcomments]
  exact breakBeforeEach_eq ((pairwise_innerPlaces kind children isLineComment).filter _)
    fun _ h => solidAt_of_mem_innerPlaces isLineComment_of_isWhitespace (List.mem_of_mem_filter h)

theorem Indexed.breakComments_eq (kind : Kind) (children : List Token) :
    breakComments kind children = some (Layout.breakComments kind children) := by
  cases kind with
  | root => exact breakLineComments_eq .root children
  | list => exact breakLineComments_eq .list children
  | array => exact breakLineComments_eq .array children
  | str | comment | quote => rfl

theorem Indexed.alreadyBroken_eq (h : place ≤ children.length) :
    alreadyBroken children place = some (Layout.alreadyBroken children place) := by
  have hrun : (children.take place).drop (trimEnd (children.take place)).length =
      trailingWhitespace (children.take place) := by
    have hsplit := congrArg (List.drop (trimEnd (children.take place)).length)
      (trimEnd_append_trailingWhitespace (children.take place))
    rw [List.drop_left] at hsplit
    exact hsplit.symm
  rw [alreadyBroken, runStart_eq h]
  simp only [Option.bind_eq_bind, Option.bind_some]
  rw [slice, if_pos ⟨length_trimEnd_le h, h⟩, hrun]
  rfl

theorem Indexed.continuationPlaces_eq {pairs : List (Nat × Nat)}
    (h : ∀ p ∈ pairs, p.1 < children.length ∧ p.2 < children.length) :
    continuationPlaces children pairs =
      some ((pairs.filter fun p =>
        children[p.1]?.any Token.spansLines && !Layout.alreadyBroken children p.2).map
          Prod.snd) := by
  induction pairs with
  | nil => rfl
  | cons p rest ih =>
    obtain ⟨place, next⟩ := p
    obtain ⟨⟨hplace, hnext⟩, hrest⟩ := List.forall_mem_cons.mp h
    have hcontinues : continues children place next = some
        (children[place]?.any Token.spansLines && !Layout.alreadyBroken children next) := by
      rw [continues, List.getElem?_eq_getElem hplace, alreadyBroken_eq (Nat.le_of_lt hnext)]
      simp only [Option.bind_eq_bind, Option.bind_some, Option.any_some, Option.map_some]
      cases children[place].spansLines <;> rfl
    rw [continuationPlaces, hcontinues, ih hrest, List.filter_cons]
    simp only [Option.bind_eq_bind, Option.bind_some]
    split <;> simp

theorem map_snd_neighbours (places : List Nat) :
    (neighbours places).map Prod.snd = places.tail := by
  induction places with
  | nil => rfl
  | cons a places ih =>
    cases places with
    | nil => rfl
    | cons b places => rw [neighbours, List.map_cons, ih]; rfl

theorem mem_of_mem_neighbours {places : List Nat} {p : Nat × Nat} (h : p ∈ neighbours places) :
    p.1 ∈ places ∧ p.2 ∈ places := by
  induction places with
  | nil => cases h
  | cons a places ih =>
    cases places with
    | nil => cases h
    | cons b places =>
      rcases List.mem_cons.mp h with rfl | h
      · exact ⟨List.mem_cons_self, List.mem_cons_of_mem _ List.mem_cons_self⟩
      · exact ⟨List.mem_cons_of_mem _ (ih h).1, List.mem_cons_of_mem _ (ih h).2⟩

theorem Indexed.breakContinuations_eq (kind : Kind) (children : List Token) :
    breakContinuations kind children = some (Layout.breakContinuations kind children) := by
  cases kind with
  | root | array | str | comment | quote => rfl
  | list =>
    have hbounds : ∀ p ∈ neighbours (Layout.elements .list children),
        p.1 < children.length ∧ p.2 < children.length := fun p hp =>
      ⟨(solidAt_of_mem_elements (mem_of_mem_neighbours hp).1).lt_length,
        (solidAt_of_mem_elements (mem_of_mem_neighbours hp).2).lt_length⟩
    rw [breakContinuations, elements_eq]
    simp only [Option.bind_eq_bind, Option.bind_some, continuationPlaces_eq hbounds]
    refine breakBeforeEach_eq ?_ fun place h => ?_
    · have hsecond : ((neighbours (Layout.elements .list children)).map Prod.snd).Pairwise
          (· < ·) := by
        rw [map_snd_neighbours]
        exact (pairwise_elements .list children).sublist (List.tail_sublist _)
      exact hsecond.sublist (List.filter_sublist.map _)
    · obtain ⟨p, hp, rfl⟩ := List.mem_map.mp h
      exact solidAt_of_mem_elements (mem_of_mem_neighbours (List.mem_of_mem_filter hp)).2

/-! ## The walk -/

theorem one_le_heights (ts : List Token) : 1 ≤ Token.heights ts := by
  cases ts with
  | nil => exact Nat.le_refl 1
  | cons t ts => exact Nat.le_trans (one_le_height t) (Nat.le_max_left ..)

theorem height_le_heights {ts : List Token} {t : Token} (h : t ∈ ts) :
    t.height ≤ Token.heights ts := by
  induction ts with
  | nil => cases h
  | cons u ts ih =>
    rcases List.mem_cons.mp h with rfl | h
    · exact Nat.le_max_left ..
    · exact Nat.le_trans (ih h) (Nat.le_max_right ..)

mutual

/-- White space adds nothing to the height of a tree. -/
theorem height_skeleton : ∀ t : Token, t.skeleton.height = t.height
  | .atom .. => rfl
  | .aggregate kind children => by
    rw [Token.skeleton, Token.height, Token.height, heights_skeletons kind.isVerbatim children]

theorem heights_skeletons (verbatim : Bool) : ∀ ts : List Token,
    Token.heights (Token.skeletons verbatim ts) = Token.heights ts
  | [] => rfl
  | t :: rest => by
    have ih := heights_skeletons verbatim rest
    rw [Token.skeletons, Token.heights]
    split
    · next hwhite =>
      have hle : t.height ≤ Token.heights rest := by
        cases t with
        | atom => exact one_le_heights rest
        | aggregate => cases hwhite
      rw [ih, Nat.max_eq_right hle]
    · rw [Token.heights, height_skeleton, ih]

end

theorem Indexed.walksAll_iff {edit : Edit} {f : Token → Token} {ts walked : List Token}
    (h : ∀ t ∈ ts, ∀ u, Walks edit t u ↔ u = f t) :
    WalksAll edit ts walked ↔ walked = ts.map f := by
  induction ts generalizing walked with
  | nil =>
    constructor
    · rintro ⟨⟩
      rfl
    · rintro rfl
      exact .nil
  | cons t ts ih =>
    obtain ⟨hfirst, hrest⟩ := List.forall_mem_cons.mp h
    rw [List.map_cons]
    constructor
    · rintro (_ | ⟨ht, hts⟩)
      rw [(hfirst _).mp ht, (ih hrest).mp hts]
    · rintro rfl
      exact .cons ((hfirst _).mpr rfl) ((ih hrest).mpr rfl)

/-- A pass that keeps the skeleton adds no levels, so it is shown all that it makes of a tree. -/
theorem Indexed.walks_iff_walkWithin {edit : Edit} {ofEdit : Kind → List Token → List Token}
    (hedit : ∀ kind children, edit kind children = some (ofEdit kind children))
    (hkeeps : (Pass.ofChildren ofEdit).KeepsSkeleton) {levels : Nat} {t walked : Token}
    (h : t.height ≤ levels) (parent : Option Kind) (depth : Nat) :
    Walks edit t walked ↔
      walked = Pass.walkWithin (Pass.ofChildren ofEdit) levels parent depth t := by
  induction levels generalizing t walked parent depth with
  | zero => exact absurd (one_le_height t) (Nat.not_le.mpr (Nat.lt_succ_of_le h))
  | succ levels ih =>
    cases t with
    | atom text lineBreak =>
      constructor
      · rintro ⟨⟩
        rfl
      · rintro rfl
        exact .atom text lineBreak
    | aggregate kind children =>
      have hheight := congrArg Token.height (hkeeps parent depth (.aggregate kind children))
      rw [height_skeleton, height_skeleton, Pass.ofChildren] at hheight
      rw [← hheight, Token.height] at h
      have hall {us : List Token} : WalksAll edit (ofEdit kind children) us ↔
          us = (ofEdit kind children).map
            (Pass.walkWithin (Pass.ofChildren ofEdit) levels (some kind) (depth + 1)) :=
        walksAll_iff fun child hchild _ =>
          ih (Nat.le_trans (height_le_heights hchild) (Nat.le_of_succ_le_succ h)) _ _
      constructor
      · rintro (_ | ⟨hchanged, hwalked⟩)
        rw [hedit] at hchanged
        obtain rfl := Option.some.inj hchanged
        rw [hall.mp hwalked]
        rfl
      · rintro rfl
        exact .aggregate (hedit kind children) (hall.mpr rfl)

/--
**The passes stay within bounds.** Walking any pass of the standard layout over any tree by index
goes through to the end, and gives what the pass gives and nothing else.
-/
theorem Indexed.walks_standard :
    List.Forall₂ (fun edit pass => ∀ t walked, Walks edit t walked ↔ walked = Pass.walk pass t)
      standard Pass.standard := by
  have hwalks {edit : Edit} {ofEdit : Kind → List Token → List Token} (i : Nat)
      (hpass : Pass.standard[i]? = some (Pass.ofChildren ofEdit))
      (hedit : ∀ kind children, edit kind children = some (ofEdit kind children))
      (t walked : Token) : Walks edit t walked ↔ walked = Pass.walk (Pass.ofChildren ofEdit) t :=
    walks_iff_walkWithin hedit (Pass.keepsSkeleton_of_mem_standard (List.mem_of_getElem? hpass))
      (Nat.le_refl t.height) none 0
  refine .cons ?spacing <| .cons ?letForms <| .cons ?conditionals <| .cons ?sequences <|
    .cons ?lambdas <| .cons ?comments <| .cons ?continuations .nil
  case spacing => exact hwalks 0 rfl spaceOut_eq
  case letForms => exact hwalks 1 rfl (whenHeaded_eq fun children _ => breakLet_eq children)
  case conditionals =>
    exact hwalks 2 rfl (whenHeaded_eq fun children _ => breakConditional_eq children)
  case sequences => exact hwalks 3 rfl (whenHeaded_eq fun _ => breakSequence_eq)
  case lambdas => exact hwalks 4 rfl (whenHeaded_eq fun children _ => breakLambda_eq children)
  case comments => exact hwalks 5 rfl breakComments_eq
  case continuations => exact hwalks 6 rfl breakContinuations_eq

end ExactLisp.Layout
