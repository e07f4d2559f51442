import ExactLisp.Store

/-!
# What binding changes

A store is seen through three views: the bindings that a scope makes itself, its
parent, and its chain. Binding a name changes the first of them in one scope and
leaves the other two alone, and a new scope leaves all scopes before it as they
were. So the chain from a scope never changes, and a name looked up after it was
bound is found.
-/

namespace ExactLisp.Store

/-! ## Chains -/

theorem chain_of_parent {s : Store} {id : ScopeId} {p : { p : ScopeId // p < id }}
    (h : s.parent? id = some p) : s.chain id = id :: s.chain p := by
  rw [chain, h]

theorem chain_of_root {s : Store} {id : ScopeId} (h : s.parent? id = none) :
    s.chain id = [id] := by
  rw [chain, h]

/-- A chain only goes to older scopes. -/
theorem le_of_mem_chain {s : Store} {id i : ScopeId} (h : i ∈ s.chain id) : i ≤ id := by
  fun_induction chain s id with
  | case1 id p _ ih =>
    rcases List.mem_cons.mp h with rfl | h
    · exact Nat.le_refl _
    · exact Nat.le_trans (ih h) (Nat.le_of_lt p.2)
  | case2 id _ => exact Nat.le_of_eq (List.mem_singleton.mp h)

/-- A chain visits every scope at most once. -/
theorem pairwise_chain (s : Store) (id : ScopeId) : (s.chain id).Pairwise (· > ·) := by
  fun_induction chain s id with
  | case1 id p _ ih =>
    exact List.pairwise_cons.mpr ⟨fun i h => Nat.lt_of_le_of_lt (le_of_mem_chain h) p.2, ih⟩
  | case2 => exact List.pairwise_singleton _ _

/-- The chain follows from the parents alone. -/
theorem chain_congr {s t : Store} (h : ∀ i, s.parent? i = t.parent? i) (id : ScopeId) :
    s.chain id = t.chain id := by
  fun_induction chain s id with
  | case1 id p hp ih => rw [chain_of_parent ((h id).symm.trans hp), ih]
  | case2 id hp => rw [chain_of_root ((h id).symm.trans hp)]

/-! ## Binding a name -/

@[simp] theorem parent?_bind (s : Store) (id i : ScopeId) (name : String) (value : Expr) :
    (s.bind id name value).parent? i = s.parent? i := by
  unfold parent? bind
  rw [Array.getElem?_modify]
  by_cases h : id = i
  · subst h
    cases s.scopes[id]? <;> simp
  · simp [h]

@[simp] theorem chain_bind (s : Store) (id i : ScopeId) (name : String) (value : Expr) :
    (s.bind id name value).chain i = s.chain i :=
  chain_congr (fun _ => parent?_bind ..) i

theorem ownBindings_bind_self {s : Store} {id : ScopeId} (h : id < s.scopes.size)
    (name : String) (value : Expr) :
    (s.bind id name value).ownBindings id = (s.ownBindings id).insert name value := by
  simp [ownBindings, bind, Array.getElem_modify, h]

theorem ownBindings_bind_of_ne (s : Store) {id i : ScopeId} (h : i ≠ id)
    (name : String) (value : Expr) :
    (s.bind id name value).ownBindings i = s.ownBindings i := by
  simp [ownBindings, bind, Array.getElem?_modify, Ne.symm h]

/-- A name that has been bound in a scope has the new value there. -/
theorem lookup_bind_self {s : Store} {id : ScopeId} (h : id < s.scopes.size)
    (name : String) (value : Expr) :
    (s.bind id name value).lookup id name = some value := by
  have own : ((s.bind id name value).ownBindings id)[name]? = some value := by
    rw [ownBindings_bind_self h, Std.TreeMap.getElem?_insert_self]
  rw [lookup, chain]
  split <;> simp [own]

/-- Looking up another name gives what it gave before. -/
theorem lookup_bind_of_ne (s : Store) (id i : ScopeId) {name other : String}
    (h : other ≠ name) (value : Expr) :
    (s.bind id name value).lookup i other = s.lookup i other := by
  have own (j : ScopeId) :
      ((s.bind id name value).ownBindings j)[other]? = (s.ownBindings j)[other]? := by
    by_cases hj : j = id
    · subst hj
      by_cases hs : j < s.scopes.size
      · rw [ownBindings_bind_self hs, Std.TreeMap.getElem?_insert]
        simp [Ne.symm h]
      · simp [ownBindings, bind, hs]
    · rw [ownBindings_bind_of_ne s hj]
  simp [lookup, own]

/-! ## Adding a scope -/

theorem parent?_newScope {s : Store} {i : ScopeId} (h : i < s.scopes.size)
    (parent : Option ScopeId) : (s.newScope parent).2.parent? i = s.parent? i := by
  simp [parent?, newScope, Array.getElem?_push, Nat.ne_of_lt h]

theorem ownBindings_newScope {s : Store} {i : ScopeId} (h : i < s.scopes.size)
    (parent : Option ScopeId) : (s.newScope parent).2.ownBindings i = s.ownBindings i := by
  simp [ownBindings, newScope, Array.getElem?_push, Nat.ne_of_lt h]

end ExactLisp.Store
