import ExactLisp.Session
import Mathlib.Data.List.Basic

/-!
# The scopes in use

Scopes are taken out of use in rounds: each takes away the scopes that nothing holds on to among
those that are left. There are enough rounds to come to an end, and where they end can be told
without them: a scope stays in use exactly if it is one of some scopes that hold together, each
of them being held by the program or by one of the others (`isLive_releaseUnheld_iff`). So a
scope that holds on to itself stays in use, whether it can still be found or not.
-/

namespace ExactLisp

namespace Store

variable {s : Store} {roots scopes : List ScopeId} {id : ScopeId}

/-- Whether each of some scopes is held, by the program or by one of these scopes. -/
def HoldTogether (s : Store) (roots : List ScopeId) (kept : ScopeId → Prop) : Prop :=
  ∀ id, kept id → id ∈ roots ∨ ∃ j, kept j ∧ id ∈ s.holds j

theorem mem_heldAmong : id ∈ s.heldAmong roots scopes ↔
    id ∈ scopes ∧ (id ∈ roots ∨ ∃ j ∈ scopes, id ∈ s.holds j) := by
  rw [heldAmong, List.mem_filter, List.contains_iff_mem, List.mem_append, List.mem_flatMap]

/-! ## Rounds -/

theorem mem_of_mem_settleHeld {rounds : Nat} (h : id ∈ s.settleHeld roots rounds scopes) :
    id ∈ scopes := by
  induction rounds generalizing scopes with
  | zero => exact h
  | succ rounds ih =>
    rw [settleHeld] at h
    split at h
    · exact h
    · exact (mem_heldAmong.mp (ih h)).1

/-- No round takes away scopes that hold together. -/
theorem mem_settleHeld {kept : ScopeId → Prop} (hkept : s.HoldTogether roots kept)
    (hscopes : ∀ j, kept j → j ∈ scopes) (rounds : Nat) (hid : kept id) :
    id ∈ s.settleHeld roots rounds scopes := by
  induction rounds generalizing scopes with
  | zero => exact hscopes id hid
  | succ rounds ih =>
    rw [settleHeld]
    split
    · exact hscopes id hid
    · refine ih fun j hj => mem_heldAmong.mpr ⟨hscopes j hj, (hkept j hj).imp_right ?_⟩
      rintro ⟨k, hk, hholds⟩
      exact ⟨k, hscopes k hk, hholds⟩

/-- What is left holds together, as each round before the last takes a scope away. -/
theorem holdTogether_settleHeld {rounds : Nat} (h : scopes.length ≤ rounds) :
    s.HoldTogether roots (· ∈ s.settleHeld roots rounds scopes) := by
  induction rounds generalizing scopes with
  | zero =>
    obtain rfl := List.length_eq_zero_iff.mp (Nat.le_zero.mp h)
    intro id hid
    cases hid
  | succ rounds ih =>
    rw [settleHeld]
    split
    next hsame =>
      intro id hid
      have hall := List.length_filter_eq_length_iff.mp hsame id hid
      exact (mem_heldAmong.mp (List.mem_filter.mpr ⟨hid, hall⟩)).2
    next hfewer =>
      have hle : (s.heldAmong roots scopes).length ≤ scopes.length := List.length_filter_le ..
      exact ih (by omega)

/-! ## What stays in use -/

theorem isLive_lt (h : s.isLive id = true) : id < s.scopes.size := by
  rw [isLive] at h
  split at h
  next scope hscope => exact (Array.getElem?_eq_some_iff.mp hscope).1
  next => cases h

/-- **A scope is in use** if it is one of some live scopes that hold together. -/
theorem mem_inUse_iff : id ∈ s.inUse roots ↔ ∃ kept : ScopeId → Prop,
    (∀ j, kept j → s.isLive j = true) ∧ s.HoldTogether roots kept ∧ kept id := by
  constructor
  · intro h
    refine ⟨(· ∈ s.inUse roots), fun j hj => ?_, holdTogether_settleHeld ?_, h⟩
    · exact (List.mem_filter.mp (mem_of_mem_settleHeld hj)).2
    · exact Nat.le_trans (List.length_filter_le ..) (Nat.le_of_eq List.length_range)
  · rintro ⟨kept, hlive, hkept, hid⟩
    refine mem_settleHeld hkept (fun j hj => List.mem_filter.mpr ⟨?_, hlive j hj⟩) _ hid
    exact List.mem_range.mpr (isLive_lt (hlive j hj))

theorem isLive_release (s : Store) (id j : ScopeId) :
    (s.release id).isLive j = (s.isLive j && decide (j ≠ id)) := by
  rw [isLive, isLive, release, Array.getElem?_modify]
  by_cases h : id = j
  · subst h
    cases s.scopes[id]? <;> simp
  · rw [if_neg h]
    simp [Ne.symm h]

theorem isLive_foldl_release (released : List ScopeId) (j : ScopeId) :
    (released.foldl release s).isLive j = (s.isLive j && decide (j ∉ released)) := by
  induction released generalizing s with
  | nil => simp
  | cons id rest ih =>
    rw [List.foldl_cons, ih, isLive_release, Bool.and_assoc]
    simp [not_or]

/--
**A scope stays in use** exactly if it is one of some live scopes each of which is held, by the
program or by one of them.
-/
theorem isLive_releaseUnheld_iff : (s.releaseUnheld roots).isLive id = true ↔
    ∃ kept : ScopeId → Prop,
      (∀ j, kept j → s.isLive j = true) ∧ s.HoldTogether roots kept ∧ kept id := by
  rw [← mem_inUse_iff, releaseUnheld, isLive_foldl_release, Bool.and_eq_true, decide_eq_true_eq,
    List.mem_filter, List.mem_range, Bool.not_eq_true', ← Bool.not_eq_true, List.contains_iff_mem]
  constructor
  · rintro ⟨hlive, hnot⟩
    exact not_not.mp fun h => hnot ⟨isLive_lt hlive, h⟩
  · intro h
    exact ⟨(List.mem_filter.mp (mem_of_mem_settleHeld h)).2, fun hnot => hnot.2 h⟩

/-- A scope stays in use if the program holds on to it, or a closure that it binds. -/
theorem isLive_releaseUnheld (hlive : s.isLive id = true) (h : id ∈ roots ∨ id ∈ s.holds id) :
    (s.releaseUnheld roots).isLive id = true := by
  refine isLive_releaseUnheld_iff.mpr ⟨(· = id), ?_, ?_, rfl⟩
  · rintro j rfl
    exact hlive
  · rintro j rfl
    exact h.imp_right fun hholds => ⟨j, rfl, hholds⟩

end Store

/-- **The scopes of a value kept aside** stay in use, and those that the session can return to. -/
theorem Session.isLive_hold {session : Session} {embedding : Embedding} {name : String}
    {value : Expr} {id : ScopeId} (hget : session.store.get session.current name = .ok value)
    (hlive : session.store.isLive id = true) (h : id ∈ session.scopes ∨ id ∈ value.captured) :
    (session.run embedding (.hold name)).2.store.isLive id = true := by
  have hrun : (session.run embedding (.hold name)).2.store =
      session.store.releaseUnheld (session.scopes ++ value.captured) := by
    rw [run, runBy, hget]
    rfl
  rw [hrun]
  exact Store.isLive_releaseUnheld hlive (Or.inl (List.mem_append.mpr h))

end ExactLisp
