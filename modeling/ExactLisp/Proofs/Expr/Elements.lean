import ExactLisp.Expr.Basic
import Mathlib.Data.List.Basic

/-!
# Elements of arrays

An array keeps its elements as integers, as floats or as atoms, and arrays that keep them in
different ways are never equal. What matters everywhere else are the atoms. The atoms that an
array is made of are the ones that it has (`atoms_ofAtoms`), and how it keeps them depends only
on which numbers they are (`arrayKind_ofAtoms`). So arrays that were made of atoms are equal
exactly if the atoms are (`ofAtoms_beq_ofAtoms`). The host program may keep them in a wider way.
-/

namespace ExactLisp

namespace ArrayKind

theorem eq_int_of_mem {numbers : List (Option Number)} (h : of numbers = int) :
    ∀ n ∈ numbers, ∃ k, n = some (.int k) := by
  intro n hn
  unfold of at h
  dsimp only at h
  split at h
  · cases h
  · split at h
    next hall =>
      have hint := List.all_eq_true.mp hall n hn
      split at hint
      next k => exact ⟨k, rfl⟩
      next => cases hint
    · split at h <;> cases h

theorem eq_float_of_mem {numbers : List (Option Number)} (h : of numbers = float) :
    ∀ n ∈ numbers, ∃ x, n = some (.float x) := by
  intro n hn
  unfold of at h
  dsimp only at h
  split at h
  · cases h
  · split at h
    · cases h
    · split at h
      next hall =>
        have hfloat := List.all_eq_true.mp hall n hn
        split at hfloat
        next x => exact ⟨x, rfl⟩
        next => cases hfloat
      next => cases h

end ArrayKind

theorem Atom.eq_of_number? {a : Atom} {n : Number} (h : a.number? = some n) : a = .number n := by
  cases a <;> cases h
  rfl

namespace Elements

/-- Picking out what every element has loses none of them. -/
theorem map_filterMap_eq_self {α : Type} {pick : Atom → Option α} {make : α → Atom}
    {as : List Atom} (h : ∀ a ∈ as, (pick a).map make = some a) :
    (as.filterMap pick).map make = as := by
  rw [List.map_filterMap, List.filterMap_congr h, List.filterMap_some]

/-- **An array has the atoms that it is made of.** -/
@[simp] theorem atoms_ofAtoms (as : List Atom) : (ofAtoms as).atoms = as := by
  unfold ofAtoms
  split
  next hkind =>
    refine map_filterMap_eq_self fun a ha => ?_
    obtain ⟨k, hk⟩ := ArrayKind.eq_int_of_mem hkind _ (List.mem_map_of_mem ha)
    rw [Atom.eq_of_number? hk]
    rfl
  next hkind =>
    refine map_filterMap_eq_self fun a ha => ?_
    obtain ⟨x, hx⟩ := ArrayKind.eq_float_of_mem hkind _ (List.mem_map_of_mem ha)
    rw [Atom.eq_of_number? hx]
    rfl
  next => rfl

theorem mem_ofAtoms {as : List Atom} {a : Atom} : a ∈ (ofAtoms as).atoms ↔ a ∈ as := by
  rw [atoms_ofAtoms]

@[simp] theorem map_ofAtoms {α : Type} (f : Atom → α) (as : List Atom) :
    (ofAtoms as).map f = as.map f := by
  rw [map, atoms_ofAtoms]

/-- Whether an array keeps its elements as one that is made of them does. -/
def IsNarrow (elements : Elements) : Prop := ofAtoms elements.atoms = elements

theorem isNarrow_ofAtoms (as : List Atom) : (ofAtoms as).IsNarrow :=
  congrArg ofAtoms (atoms_ofAtoms as)

/-- How an array that is made of atoms keeps them. -/
theorem arrayKind_ofAtoms (as : List Atom) :
    Expr.arrayKind (ofAtoms as) = .of (as.map Atom.number?) := by
  unfold ofAtoms
  split <;> rename_i hkind <;> exact hkind.symm

/-! ## Equality -/

theorem map_beq_map {α : Type} [BEq α] (make : α → Atom)
    (h : ∀ x y, (make x == make y) = (x == y)) :
    ∀ xs ys : List α, (xs.map make == ys.map make) = (xs == ys)
  | [], [] | [], _ :: _ | _ :: _, [] => rfl
  | x :: xs, y :: ys => by
    rw [List.map_cons, List.map_cons, List.cons_beq_cons, List.cons_beq_cons, h,
      map_beq_map make h xs ys]

/-- Equality goes by the atoms, and by how they are kept. -/
theorem beq_eq (a b : Elements) :
    (a == b) = (Expr.arrayKind a == Expr.arrayKind b && a.atoms == b.atoms) := by
  cases a with
  | ints m =>
    cases b with
    | ints n => exact (map_beq_map (fun n => .number (.int n)) (fun _ _ => rfl) m n).symm
    | floats | mixed => rfl
  | floats xs =>
    cases b with
    | floats ys => exact (map_beq_map (fun x => .number (.float x)) (fun _ _ => rfl) xs ys).symm
    | ints | mixed => rfl
  | mixed as => cases b <;> rfl

/-- A test that equal atoms pass alike is passed alike by all of equal lists. -/
theorem all_number?_of_beq {test : Option Number → Bool}
    (htest : ∀ a b : Atom, (a == b) = true → test a.number? = test b.number?) :
    ∀ {as bs : List Atom}, (as == bs) = true →
      (as.map Atom.number?).all test = (bs.map Atom.number?).all test
  | [], [], _ => rfl
  | a :: as, b :: bs, h => by
    rw [List.cons_beq_cons, Bool.and_eq_true] at h
    rw [List.map_cons, List.map_cons, List.all_cons, List.all_cons, htest a b h.1,
      all_number?_of_beq htest h.2]

/-- Equal atoms are kept in one way, as equal numbers have one representation. -/
theorem arrayKind_of_beq {as bs : List Atom} (h : (as == bs) = true) :
    Expr.arrayKind (ofAtoms as) = Expr.arrayKind (ofAtoms bs) := by
  have hempty : (as.map Atom.number?).isEmpty = (bs.map Atom.number?).isEmpty := by
    cases as <;> cases bs <;> first | rfl | cases h
  rw [arrayKind_ofAtoms, arrayKind_ofAtoms]
  unfold ArrayKind.of
  dsimp only
  rw [hempty, all_number?_of_beq _ h, all_number?_of_beq _ h]
  all_goals
    intro a b hab
    cases a <;> cases b <;> first | rfl | cases hab | skip
  all_goals
    rename_i m n
    cases m <;> cases n <;> first | rfl | cases hab

/-- **Arrays that are made of atoms** are equal exactly if the atoms are. -/
theorem ofAtoms_beq_ofAtoms (as bs : List Atom) : (ofAtoms as == ofAtoms bs) = (as == bs) := by
  rw [beq_eq, atoms_ofAtoms, atoms_ofAtoms]
  cases h : as == bs with
  | false => rw [Bool.and_false]
  | true => rw [arrayKind_of_beq h, Bool.and_true, beq_self_eq_true]

/-- The host program may keep no elements as no integers, which is another empty array. -/
example : (ints [] == ofAtoms []) = false := rfl

end Elements

end ExactLisp
