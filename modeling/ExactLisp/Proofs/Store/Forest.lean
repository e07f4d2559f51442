import ExactLisp.Proofs.Eval.Upheld
import Mathlib.Logic.Relation

/-!
# The forest of scopes

A scope records its parent, and nothing in the store itself keeps that from being a scope that
was added later, or the scope itself. It is never one: all that is ever done to a store is made
of five operations (`Store.Operation`), and the only one that records a parent adds a scope
inside one that is there. So parents are older, and the scopes form a forest
(`Store.Forest`).

Values complicate this, as they refer to scopes too: a closure to the one that it was made in,
and that scope may bind the closure. Calling it adds a scope inside the one that it refers to.
So it belongs to the invariant that values refer only to scopes that are there, and it is a
condition of binding a name that its value does (`Expr.RefersBelow`).

An operation only ever adds: scopes stay with their parents, and names stay bound
(`Store.GrowsTo`). Following the recorded parents comes to an end in a forest, after the scopes
of the chain and no others (`Store.Forest.climb_iff`), and so does looking a name up
(`Store.Forest.search_lookup`).
-/

namespace ExactLisp

/-! ## What values refer to -/

/-- Whether the scope that a native function acts on, if it acts on one, is below a bound. -/
def NativeCode.RefersBelow (n : Nat) : NativeCode → Prop
  | eval ambient | exec ambient => ambient < n
  | builtin _ | embedded _ => True

namespace Expr

mutual

/-- Whether all scopes that an expression refers to are below a bound. -/
def RefersBelow (n : Nat) : Expr → Prop
  | list _ items => RefersBelowAll n items
  | native _ f => f.code.RefersBelow n
  | closure _ _ body scope => scope < n ∧ RefersBelowAll n body
  | symbol _ | array .. | atom _ | host .. => True

/-- Whether all scopes that some expressions refer to are below a bound. -/
def RefersBelowAll (n : Nat) : List Expr → Prop
  | [] => True
  | e :: rest => e.RefersBelow n ∧ RefersBelowAll n rest

end

theorem refersBelowAll_iff {n : Nat} {es : List Expr} :
    RefersBelowAll n es ↔ ∀ e ∈ es, e.RefersBelow n := by
  induction es with
  | nil => simp [RefersBelowAll]
  | cons e rest ih => rw [RefersBelowAll, ih, List.forall_mem_cons]

end Expr

variable {n k : Nat}

theorem NativeCode.RefersBelow.mono (hk : n ≤ k) :
    ∀ {code : NativeCode}, code.RefersBelow n → code.RefersBelow k
  | eval _, h | exec _, h => Nat.lt_of_lt_of_le h hk
  | builtin _, _ | embedded _, _ => trivial

mutual

theorem Expr.RefersBelow.mono (hk : n ≤ k) : ∀ {e : Expr}, e.RefersBelow n → e.RefersBelow k
  | .list .., h => RefersBelowAll.mono hk h
  | .native .., h => NativeCode.RefersBelow.mono hk h
  | .closure .., h => ⟨Nat.lt_of_lt_of_le h.1 hk, RefersBelowAll.mono hk h.2⟩
  | .symbol _, _ | .array .., _ | .atom _, _ | .host .., _ => trivial

theorem Expr.RefersBelowAll.mono (hk : n ≤ k) :
    ∀ {es : List Expr}, RefersBelowAll n es → RefersBelowAll k es
  | [], _ => trivial
  | _ :: _, h => ⟨h.1.mono hk, RefersBelowAll.mono hk h.2⟩

end

namespace Store

variable {s t : Store}

/-! ## Forests -/

/-- The parent that a scope has recorded, whichever scope that is. -/
def enclosing? (s : Store) (i : ScopeId) : Option ScopeId := s.scopes[i]?.bind (·.parent)

/-- The scopes of a store form a forest, and its values refer only to scopes that are there. -/
structure Forest (s : Store) : Prop where
  /-- A parent was there before the scopes inside it. -/
  older : ∀ i p, s.enclosing? i = some p → p < i
  values : ∀ (i : ScopeId) (name : String) (value : Expr),
    (s.ownBindings i)[name]? = some value → value.RefersBelow s.scopes.size

/-- What a store grows to: it has all the scopes, with their parents, and binds all the names. -/
structure GrowsTo (s t : Store) : Prop where
  size : s.scopes.size ≤ t.scopes.size
  parent : ∀ i < s.scopes.size, t.enclosing? i = s.enclosing? i
  bound : ∀ i name, name ∈ s.ownBindings i → name ∈ t.ownBindings i

theorem GrowsTo.refl (s : Store) : s.GrowsTo s :=
  ⟨Nat.le_refl _, fun _ _ => rfl, fun _ _ h => h⟩

theorem GrowsTo.trans {u : Store} (h : s.GrowsTo t) (h' : t.GrowsTo u) : s.GrowsTo u where
  size := Nat.le_trans h.size h'.size
  parent i hi := (h'.parent i (Nat.lt_of_lt_of_le hi h.size)).trans (h.parent i hi)
  bound i name hname := h'.bound i name (h.bound i name hname)

theorem forest_empty : empty.Forest := by
  refine ⟨fun i p h => ?_, fun i name value h => ?_⟩
  · simp [enclosing?, empty] at h
  · simp [ownBindings, empty] at h

/-- What a name stands for in a forest refers only to scopes that are there. -/
theorem Forest.refersBelow_of_get (h : s.Forest) {id : ScopeId} {name : String} {value : Expr}
    (hget : s.get id name = .ok value) : value.RefersBelow s.scopes.size := by
  rw [get] at hget
  split at hget
  next v hlookup =>
    cases hget
    obtain ⟨scope, -, hfound⟩ := List.exists_of_findSome?_eq_some hlookup
    exact h.values scope name _ hfound
  · cases hget

/-! ## Operations -/

/-- What can be done to a store. -/
inductive Operation : Store → Store → Prop
  /-- Add a scope, inside one that is there or on its own. -/
  | newScope (s : Store) (parent : Option ScopeId) :
    (∀ p, parent = some p → p < s.scopes.size) → Operation s (s.newScope parent).2
  /-- Bind a name to a value that refers only to scopes that are there. -/
  | bind (s : Store) (scope : ScopeId) (name : String) {value : Expr} :
    value.RefersBelow s.scopes.size → Operation s (s.bind scope name value)
  /-- Take a scope out of use. -/
  | release (s : Store) (scope : ScopeId) : Operation s (s.release scope)
  /-- Hand out a reference. -/
  | fresh (s : Store) : Operation s s.fresh.2
  /-- Add host objects, or change what they contain. -/
  | setCells (s : Store) (cells : Array Int64) : Operation s { s with cells }

/-! ### Binding a name -/

@[simp] theorem size_bind (s : Store) (scope : ScopeId) (name : String) (value : Expr) :
    (s.bind scope name value).scopes.size = s.scopes.size := Array.size_modify

theorem enclosing?_bind (s : Store) (scope : ScopeId) (name : String) (value : Expr)
    (i : ScopeId) : (s.bind scope name value).enclosing? i = s.enclosing? i := by
  unfold enclosing? bind
  rw [Array.getElem?_modify]
  by_cases h : scope = i
  · subst h
    cases s.scopes[scope]? <;> simp
  · rw [if_neg h]

theorem growsTo_bind (s : Store) (scope : ScopeId) (name : String) (value : Expr) :
    s.GrowsTo (s.bind scope name value) := by
  refine ⟨Nat.le_of_eq (size_bind ..).symm, fun i _ => enclosing?_bind .., fun i other h => ?_⟩
  by_cases hi : i = scope
  · subst hi
    by_cases hsize : i < s.scopes.size
    · rw [ownBindings_bind_self hsize]
      exact Std.TreeMap.mem_insert.mpr (Or.inr h)
    · have hnone : s.scopes[i]? = none := Array.getElem?_eq_none (Nat.le_of_not_lt hsize)
      simp [ownBindings, hnone] at h
  · rwa [ownBindings_bind_of_ne s hi]

theorem Forest.bind (h : s.Forest) (scope : ScopeId) (name : String) {value : Expr}
    (hv : value.RefersBelow s.scopes.size) : (s.bind scope name value).Forest := by
  refine ⟨fun i p hp => ?_, fun i other v hfound => ?_⟩
  · rw [enclosing?_bind] at hp
    exact h.older i p hp
  rw [size_bind]
  rcases getElem?_ownBindings_bind hfound with ⟨rfl, rfl⟩ | hbefore
  · exact hv
  · exact h.values i other v hbefore

/-! ### Adding a scope -/

@[simp] theorem size_newScope (s : Store) (parent : Option ScopeId) :
    (s.newScope parent).2.scopes.size = s.scopes.size + 1 := Array.size_push _

theorem enclosing?_newScope_self (s : Store) (parent : Option ScopeId) :
    (s.newScope parent).2.enclosing? s.scopes.size = parent := by
  simp [enclosing?, newScope]

theorem enclosing?_newScope_of_ne (s : Store) (parent : Option ScopeId) {i : ScopeId}
    (hi : i ≠ s.scopes.size) : (s.newScope parent).2.enclosing? i = s.enclosing? i := by
  simp [enclosing?, newScope, Array.getElem?_push, hi]

theorem growsTo_newScope (s : Store) (parent : Option ScopeId) :
    s.GrowsTo (s.newScope parent).2 where
  size := Nat.le_of_lt (Nat.lt_of_lt_of_eq (Nat.lt_succ_self _) (size_newScope s parent).symm)
  parent _ hi := enclosing?_newScope_of_ne s parent (Nat.ne_of_lt hi)
  bound i name h := by rwa [ownBindings_newScope_all]

theorem Forest.newScope (h : s.Forest) {parent : Option ScopeId}
    (hparent : ∀ p, parent = some p → p < s.scopes.size) : (s.newScope parent).2.Forest := by
  refine ⟨fun i p hp => ?_, fun i name v hfound => ?_⟩
  · by_cases hi : i = s.scopes.size
    · subst hi
      rw [enclosing?_newScope_self] at hp
      exact hparent p hp
    · rw [enclosing?_newScope_of_ne s parent hi] at hp
      exact h.older i p hp
  · rw [ownBindings_newScope_all] at hfound
    exact (h.values i name v hfound).mono (growsTo_newScope s parent).size

/-! ### Taking a scope out of use -/

theorem enclosing?_release (s : Store) (scope i : ScopeId) :
    (s.release scope).enclosing? i = s.enclosing? i := by
  unfold enclosing? release
  rw [Array.getElem?_modify]
  by_cases h : scope = i
  · subst h
    cases s.scopes[scope]? <;> simp
  · rw [if_neg h]

theorem ownBindings_release (s : Store) (scope i : ScopeId) :
    (s.release scope).ownBindings i = s.ownBindings i := by
  unfold ownBindings release
  rw [Array.getElem?_modify]
  by_cases h : scope = i
  · subst h
    cases s.scopes[scope]? <;> simp
  · rw [if_neg h]

/-! ### One operation, and many -/

/-- **An operation only adds.** -/
theorem Operation.growsTo (h : Operation s t) : s.GrowsTo t := by
  cases h with
  | newScope parent => exact growsTo_newScope s parent
  | bind scope name => exact growsTo_bind s scope name _
  | release scope =>
    exact ⟨Nat.le_of_eq Array.size_modify.symm, fun i _ => enclosing?_release s scope i,
      fun i name hname => by rwa [ownBindings_release]⟩
  | fresh => exact ⟨Nat.le_refl _, fun _ _ => rfl, fun _ _ h => h⟩
  | setCells cells => exact ⟨Nat.le_refl _, fun _ _ => rfl, fun _ _ h => h⟩

/-- **An operation keeps a forest one.** -/
theorem Operation.forest (h : Operation s t) (hs : s.Forest) : t.Forest := by
  cases h with
  | newScope parent hparent => exact hs.newScope hparent
  | bind scope name hv => exact hs.bind scope name hv
  | release scope =>
    have hsize : (s.release scope).scopes.size = s.scopes.size := Array.size_modify
    refine ⟨fun i p hp => ?_, fun i name v hv => ?_⟩
    · rw [enclosing?_release] at hp
      exact hs.older i p hp
    · rw [ownBindings_release] at hv
      rw [hsize]
      exact hs.values i name v hv
  | fresh => exact ⟨hs.older, hs.values⟩
  | setCells cells => exact ⟨hs.older, hs.values⟩

/-- Operations in any number. -/
abbrev Operations : Store → Store → Prop := Relation.ReflTransGen Operation

theorem Operations.growsTo (h : Operations s t) : s.GrowsTo t := by
  induction h with
  | refl => exact .refl s
  | tail _ hlast ih => exact ih.trans hlast.growsTo

theorem Operations.forest (h : Operations s t) (hs : s.Forest) : t.Forest := by
  induction h with
  | refl => exact hs
  | tail _ hlast ih => exact hlast.forest ih

/-! ## Walks -/

/-- What is visited by following the recorded parents from a scope until there is none. -/
inductive Climb (s : Store) : ScopeId → List ScopeId → Prop
  | root {i : ScopeId} : s.enclosing? i = none → Climb s i [i]
  | inner {i p : ScopeId} {rest : List ScopeId} :
    s.enclosing? i = some p → Climb s p rest → Climb s i (i :: rest)

/-- What is visited, and found, by following the recorded parents until a name is bound. -/
inductive Search (s : Store) (name : String) : ScopeId → List ScopeId → Option Expr → Prop
  | found {i : ScopeId} {value : Expr} :
    (s.ownBindings i)[name]? = some value → Search s name i [i] (some value)
  | missing {i : ScopeId} :
    (s.ownBindings i)[name]? = none → s.enclosing? i = none → Search s name i [i] none
  | outward {i p : ScopeId} {rest : List ScopeId} {result : Option Expr} :
    (s.ownBindings i)[name]? = none → s.enclosing? i = some p → Search s name p rest result →
      Search s name i (i :: rest) result

/-- In a forest, the recorded parent is the one that counts. -/
theorem Forest.parent?_eq (h : s.Forest) (i : ScopeId) :
    (s.parent? i).map Subtype.val = s.enclosing? i := by
  have holder := h.older i
  unfold enclosing? at holder ⊢
  unfold parent?
  generalize s.scopes[i]? = found at holder ⊢
  cases found with
  | none => rfl
  | some scope =>
    cases hparent : scope.parent with
    | none => simp [hparent]
    | some p =>
      have hlt : p < i := holder p hparent
      simp [hparent, hlt]

theorem Forest.chain_of_root (h : s.Forest) {i : ScopeId} (hi : s.enclosing? i = none) :
    s.chain i = [i] := by
  rw [← h.parent?_eq, Option.map_eq_none_iff] at hi
  exact Store.chain_of_root hi

theorem Forest.chain_of_inner (h : s.Forest) {i p : ScopeId} (hi : s.enclosing? i = some p) :
    s.chain i = i :: s.chain p := by
  rw [← h.parent?_eq] at hi
  obtain ⟨q, hq, rfl⟩ := Option.map_eq_some_iff.mp hi
  exact chain_of_parent hq

/-- A climb comes to an end after the scopes of the chain. -/
theorem Forest.climb_chain (h : s.Forest) (i : ScopeId) : s.Climb i (s.chain i) := by
  -- parents are older, so the induction is on the age of the scope
  induction i using Nat.strongRecOn with
  | ind i ih =>
    cases hi : s.enclosing? i with
    | none =>
      rw [h.chain_of_root hi]
      exact .root hi
    | some p =>
      rw [h.chain_of_inner hi]
      exact .inner hi (ih p (h.older i p hi))

/-- **In a forest, a climb visits the scopes of the chain**, and no others. -/
theorem Forest.climb_iff (h : s.Forest) {i : ScopeId} {visited : List ScopeId} :
    s.Climb i visited ↔ visited = s.chain i := by
  constructor
  · intro hclimb
    induction hclimb with
    | root hi => rw [h.chain_of_root hi]
    | inner hi _ ih => rw [h.chain_of_inner hi, ih]
  · rintro rfl
    exact h.climb_chain i

/-- A search comes to an end with what the name stands for. -/
theorem Forest.search_lookup (h : s.Forest) (name : String) (i : ScopeId) :
    ∃ visited, s.Search name i visited (s.lookup i name) := by
  -- a search goes on in the parent, which is older
  induction i using Nat.strongRecOn with
  | ind i ih =>
    cases hown : (s.ownBindings i)[name]? with
    | some value =>
      have hlookup : s.lookup i name = some value := by
        rw [lookup, chain]
        split <;> rw [List.findSome?_cons, hown]
      rw [hlookup]
      exact ⟨[i], .found hown⟩
    | none =>
      cases hi : s.enclosing? i with
      | none =>
        have hlookup : s.lookup i name = none := by
          rw [lookup, h.chain_of_root hi, List.findSome?_cons, hown, List.findSome?_nil]
        rw [hlookup]
        exact ⟨[i], .missing hown hi⟩
      | some p =>
        have hlookup : s.lookup i name = s.lookup p name := by
          rw [lookup, h.chain_of_inner hi, List.findSome?_cons, hown, lookup]
        obtain ⟨rest, hrest⟩ := ih p (h.older i p hi)
        rw [hlookup]
        exact ⟨i :: rest, .outward hown hi hrest⟩

/-- **In a forest, a search visits the first scopes of the chain**, and finds what is looked up. -/
theorem Forest.search_eq (h : s.Forest) {name : String} {i : ScopeId} {visited : List ScopeId}
    {result : Option Expr} (hsearch : s.Search name i visited result) :
    visited <+: s.chain i ∧ result = s.lookup i name := by
  induction hsearch with
  | @found i value hown =>
    rw [lookup, chain]
    split <;> simp [hown]
  | missing hown hi =>
    rw [lookup, h.chain_of_root hi]
    simp [hown]
  | outward hown hi _ ih =>
    obtain ⟨hvisited, hresult⟩ := ih
    rw [lookup, h.chain_of_inner hi, List.findSome?_cons, hown]
    exact ⟨(List.cons_prefix_cons).mpr ⟨rfl, hvisited⟩, hresult⟩

end Store

end ExactLisp
