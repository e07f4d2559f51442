import ExactLisp.Proofs.Layout.Bounds

/-!
# Breaking lines at several places at once

Breaking the line before several places is done at one place after the other, the last one first,
and each break moves whatever comes after it. All the same it is one replacement in the children as
they were (`breakBeforeEach_eq_flatMap`): what becomes of a child depends on where it is, on the
places, and on the white space around it before anything has been changed.

The reason is that no white space lies directly before two of the places. Something else stands at
each of them, so that the run before a later place ends there at the latest.
-/

namespace ExactLisp.Layout

variable {children : List Token} {places : List Nat} {place : Nat}

/-! ## What becomes of one child -/

/-- Whether a child belongs to the white space directly before a place. -/
def inRunBefore (children : List Token) (place i : Nat) : Bool :=
  i < place && !hasContent children i place

/--
What becomes of a child where lines are broken: a line break comes before it if the line is broken
there, it goes if it is white space directly before such a place, and else it stays.
-/
def replacement (children : List Token) (places : List Nat) (p : Token × Nat) : List Token :=
  if p.2 ∈ places then [.newline, p.1]
  else if places.any fun place => inRunBefore children place p.2 then []
  else [p.1]

/-- A run of white space is over at the place it comes before. -/
theorem inRunBefore_of_le {i : Nat} (h : place ≤ i) : inRunBefore children place i = false := by
  rw [inRunBefore, decide_eq_false (Nat.not_lt.mpr h), Bool.false_and]

/-- What is not white space has no run before a later place on its left. -/
theorem inRunBefore_eq_false {i j : Nat} (h : SolidAt children i) (hj : j ≤ i) (hi : i < place) :
    inRunBefore children place j = false := by
  obtain ⟨t, ht, hsolid⟩ := h
  have hmem : t ∈ (children.take place).drop j := by
    refine List.mem_of_getElem? (i := i - j) ?_
    rw [List.getElem?_drop, Nat.add_sub_cancel' hj, List.getElem?_take_of_lt hi, ht]
  have hcontent : hasContent children j place = true :=
    List.any_eq_true.mpr ⟨t, hmem, by rw [hsolid]; rfl⟩
  rw [inRunBefore, hcontent, Bool.not_true, Bool.and_false]

theorem SolidAt.length_take (h : SolidAt children place) :
    (children.take place).length = place := by
  rw [List.length_take, Nat.min_eq_left (Nat.le_of_lt h.lt_length)]

theorem any_inRunBefore_eq_false {i : Nat} (h : SolidAt children place)
    (hlater : ∀ other ∈ places, place < other) (hi : i ≤ place) :
    (places.any fun other => inRunBefore children other i) = false :=
  List.any_eq_false.mpr fun other hother => by
    rw [inRunBefore_eq_false h hi (hlater other hother)]
    exact Bool.false_ne_true

/-! ## Children one by one -/

/-- Children that stay are all there, in order. -/
theorem flatMap_zipIdx_eq_self {ts : List Token} {n : Nat} {f : Token × Nat → List Token}
    (h : ∀ p ∈ ts.zipIdx n, f p = [p.1]) : (ts.zipIdx n).flatMap f = ts := by
  rw [List.flatMap_congr h, ← List.map_eq_flatMap, List.zipIdx_map_fst]

/-- What is done to each child can be told apart by whether the child is before a place. -/
theorem flatMap_zipIdx_split (h : place ≤ children.length) (f : Token × Nat → List Token) :
    children.zipIdx.flatMap f =
      (children.take place).zipIdx.flatMap f ++ ((children.drop place).zipIdx place).flatMap f := by
  have hzip : (children.take place ++ children.drop place).zipIdx =
      (children.take place).zipIdx ++ (children.drop place).zipIdx place := by
    rw [List.zipIdx_append, List.length_take, Nat.min_eq_left h, Nat.zero_add]
  rw [← List.flatMap_append, ← hzip, List.take_append_drop]

theorem hasContent_append (ts us : List Token) {start stop : Nat} (h : stop ≤ ts.length) :
    hasContent (ts ++ us) start stop = hasContent ts start stop := by
  rw [hasContent, hasContent, List.take_append_of_le_length h]

/-- To trim the end is to keep the children that are, or come before, something else. -/
theorem flatMap_hasContent (ts : List Token) :
    (ts.zipIdx.flatMap fun p => if hasContent ts p.2 ts.length then [p.1] else []) =
      trimEnd ts := by
  induction ts using List.reverseRecOn with
  | nil => rfl
  | append_singleton ts t ih =>
    -- the last child is content after all those before it, unless it is white space
    have hcontent : ∀ p ∈ (ts ++ [t]).zipIdx, hasContent (ts ++ [t]) p.2 (ts ++ [t]).length =
        (hasContent ts p.2 ts.length || !t.isWhitespace) := by
      intro p hp
      have hle : p.2 ≤ ts.length := by
        have hlt := List.snd_lt_of_mem_zipIdx hp
        rw [List.length_append] at hlt
        exact Nat.le_of_lt_succ hlt
      rw [List.length_append, List.length_singleton,
        hasContent_succ hle (by simp : (ts ++ [t])[ts.length]? = some t),
        hasContent_append ts [t] (Nat.le_refl _)]
    rw [List.flatMap_congr fun p hp => by rw [hcontent p hp], trimEnd_concat, List.zipIdx_append,
      List.flatMap_append, ← ih]
    cases t.isWhitespace with
    | true => simp [hasContent_self]
    | false => simp [flatMap_zipIdx_eq_self]

/-! ## One more place, before all others -/

/-- The children before a place stay as they are if all lines are broken after it. -/
theorem flatMap_replacement_take (h : SolidAt children place)
    (hlater : ∀ other ∈ places, place < other) :
    (children.take place).zipIdx.flatMap (replacement children places) = children.take place := by
  refine flatMap_zipIdx_eq_self fun p hp => ?_
  have hlt : p.2 < place := (List.snd_lt_of_mem_zipIdx hp).trans_le (List.length_take_le _ _)
  have hnot : p.2 ∉ places := fun hmem => Nat.lt_asymm hlt (hlater _ hmem)
  rw [replacement, if_neg hnot, any_inRunBefore_eq_false h hlater (Nat.le_of_lt hlt)]
  rfl

/-- If the line is broken at the place as well, they lose the white space at their end. -/
theorem flatMap_replacement_take_cons (h : SolidAt children place)
    (hlater : ∀ other ∈ places, place < other) :
    (children.take place).zipIdx.flatMap (replacement children (place :: places)) =
      trimEnd (children.take place) := by
  rw [← flatMap_hasContent, h.length_take]
  refine List.flatMap_congr fun p hp => ?_
  have hlt : p.2 < place := h.length_take ▸ List.snd_lt_of_mem_zipIdx hp
  have hnot : p.2 ∉ place :: places := fun hmem => by
    rcases List.mem_cons.mp hmem with heq | hmem
    · exact Nat.ne_of_lt hlt heq
    · exact Nat.lt_asymm hlt (hlater _ hmem)
  have hsame : hasContent (children.take place) p.2 place = hasContent children p.2 place := by
    rw [hasContent, hasContent, List.take_take, Nat.min_self]
  rw [replacement, if_neg hnot, List.any_cons,
    any_inRunBefore_eq_false h hlater (Nat.le_of_lt hlt), inRunBefore, decide_eq_true hlt, hsame]
  cases hasContent children p.2 place <;> rfl

/-- From the place on, all that is new is the line break before it. -/
theorem flatMap_replacement_drop_cons (h : SolidAt children place)
    (hlater : ∀ other ∈ places, place < other) :
    ((children.drop place).zipIdx place).flatMap (replacement children (place :: places)) =
      .newline :: ((children.drop place).zipIdx place).flatMap (replacement children places) := by
  have hself : place ∉ places := fun hmem => Nat.lt_irrefl _ (hlater _ hmem)
  have hrest : ∀ p ∈ (children.drop (place + 1)).zipIdx (place + 1),
      replacement children (place :: places) p = replacement children places p := by
    intro p hp
    have hlt : place < p.2 := List.le_snd_of_mem_zipIdx hp
    simp only [replacement, List.mem_cons, Nat.ne_of_gt hlt, false_or, List.any_cons,
      inRunBefore_of_le (Nat.le_of_lt hlt), Bool.false_or]
  rw [List.drop_eq_getElem_cons h.lt_length, List.zipIdx_cons, List.flatMap_cons,
    List.flatMap_cons, List.flatMap_congr hrest]
  simp [replacement, hself, any_inRunBefore_eq_false h hlater (Nat.le_refl place)]

/-! ## All places -/

/-- **The breaks are one replacement**, in which every child is looked at as it was. -/
theorem breakBeforeEach_eq_flatMap (hsorted : places.Pairwise (· < ·))
    (hsolid : ∀ place ∈ places, SolidAt children place) :
    breakBeforeEach children places = children.zipIdx.flatMap (replacement children places) := by
  induction places with
  | nil => exact (flatMap_zipIdx_eq_self fun p _ => rfl).symm
  | cons place rest ih =>
    obtain ⟨hlater, hsorted⟩ := List.pairwise_cons.mp hsorted
    obtain ⟨h, hsolid⟩ := List.forall_mem_cons.mp hsolid
    -- the later breaks leave what comes before the place, and this one only adds to the rest
    have hsplit := flatMap_zipIdx_split (Nat.le_of_lt h.lt_length)
    have htail := ih hsorted hsolid
    rw [hsplit, flatMap_replacement_take h hlater] at htail
    rw [hsplit, flatMap_replacement_take_cons h hlater, flatMap_replacement_drop_cons h hlater,
      breakBeforeEach, List.foldr_cons, ← breakBeforeEach, htail, breakBefore,
      List.take_left' h.length_take, List.drop_left' h.length_take]
    rfl

/--
**Lines are broken at all places at once.** Also when white space is spliced out by index, one
place after the other, the children stay in order, each place gets exactly one line break for all
the white space directly before it, and no other child is touched.
-/
theorem lines_broken_at_once (hsorted : places.Pairwise (· < ·))
    (hsolid : ∀ place ∈ places, SolidAt children place) :
    breakBeforeEach children places = children.zipIdx.flatMap (replacement children places) ∧
      Indexed.breakBeforeEach children places =
        some (children.zipIdx.flatMap (replacement children places)) := by
  have hbreaks := breakBeforeEach_eq_flatMap hsorted hsolid
  exact ⟨hbreaks, hbreaks ▸ Indexed.breakBeforeEach_eq hsorted hsolid⟩

/-- For instance before the first child, after two blanks, after none, and not after the last. -/
theorem lines_broken_at_once_runs :
    let children : List Token :=
      [.plain ['a'], .space, .char '\n', .plain ['b'], .plain ['c'], .space, .plain ['d']]
    [0, 3, 4].Pairwise (· < ·) ∧ (∀ place ∈ [0, 3, 4], SolidAt children place) ∧
      Indexed.breakBeforeEach children [0, 3, 4] =
        some [.newline, .plain ['a'], .newline, .plain ['b'], .newline, .plain ['c'], .space,
          .plain ['d']] := by
  intro children
  have hsorted : [0, 3, 4].Pairwise (· < ·) := by decide
  have hsolid : ∀ place ∈ [0, 3, 4], SolidAt children place := by
    intro place h
    simp only [List.mem_cons, List.not_mem_nil, or_false] at h
    rcases h with rfl | rfl | rfl <;> exact ⟨_, rfl, rfl⟩
  exact ⟨hsorted, hsolid, (lines_broken_at_once hsorted hsolid).2.trans rfl⟩

end ExactLisp.Layout
