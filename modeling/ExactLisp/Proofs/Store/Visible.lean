import ExactLisp.Store.Views
import Mathlib.Data.List.Nodup

/-!
# What is visible from a scope

Three questions can be asked of a scope: what a name stands for there, which bindings are
visible, and which names start in some way. The first is answered from the inside out and stops
at the first scope that binds the name. The other two go over the whole chain, and put the
bindings of all its scopes together, inner ones over outer ones. They agree at every depth and
however names are shadowed (`views_agree`): the bindings that are visible are exactly the names
with what they stand for, in the order of the names.

A definition shows exactly in those scopes that come to it on their way out before any other
binding of the name (`Store.Exposes`).
-/

namespace ExactLisp.Store

variable {s : Store}

/-! ## Looking up -/

theorem getElem?_eq_none_iff {own : Bindings} {name : String} :
    own[name]? = none ↔ name ∉ own := by
  rw [Std.TreeMap.mem_iff_isSome_getElem?, Option.not_isSome_iff_eq_none]

/--
Whether a scope is on the way out from scope `i`, and none of those before it binds a name: what
it binds to the name is what is found from `i`.
-/
def Exposes (s : Store) (id : ScopeId) (name : String) (i : ScopeId) : Prop :=
  ∃ before after, s.chain i = before ++ id :: after ∧ ∀ j ∈ before, name ∉ s.ownBindings j

theorem Exposes.mem_chain {id i : ScopeId} {name : String} (h : s.Exposes id name i) :
    id ∈ s.chain i := by
  obtain ⟨before, after, hchain, -⟩ := h
  rw [hchain]
  exact List.mem_append_right before List.mem_cons_self

/-- A name stands for its value in the nearest scope that binds it. -/
theorem lookup_eq_some_iff {i : ScopeId} {name : String} {value : Expr} :
    s.lookup i name = some value ↔
      ∃ id, s.Exposes id name i ∧ (s.ownBindings id)[name]? = some value := by
  rw [lookup, List.findSome?_eq_some_iff]
  constructor
  · rintro ⟨before, id, after, hchain, hvalue, hbefore⟩
    exact ⟨id, ⟨before, after, hchain, fun j hj => getElem?_eq_none_iff.mp (hbefore j hj)⟩, hvalue⟩
  · rintro ⟨id, ⟨before, after, hchain, hbefore⟩, hvalue⟩
    exact ⟨before, id, after, hchain, hvalue, fun j hj => getElem?_eq_none_iff.mpr (hbefore j hj)⟩

/-! ## All bindings -/

/-- The bindings of a scope put over others: its own ones count first. -/
theorem getElem?_foldl_insert (own all : Bindings) (name : String) :
    (own.foldl (fun acc n v => acc.insert n v) all)[name]? = own[name]?.or all[name]? := by
  have hequiv : Std.TreeMap.Equiv (all.insertMany own.toList)
      (own.toList.foldl (fun acc entry => acc.insert entry.1 entry.2) all) :=
    Std.TreeMap.insertMany_list_equiv_foldl
  rw [Std.TreeMap.foldl_eq_foldl_toList, ← hequiv.getElem?_eq]
  cases hown : own[name]? with
  | some value =>
    exact Std.TreeMap.getElem?_insertMany_list_of_mem Std.ReflCmp.compare_self
      Std.TreeMap.distinct_keys_toList (Std.TreeMap.mem_toList_iff_getElem?_eq_some.mpr hown)
  | none =>
    refine Std.TreeMap.getElem?_insertMany_list_of_contains_eq_false ?_
    rw [Std.TreeMap.map_fst_toList_eq_keys, Std.TreeMap.contains_keys, ← Bool.not_eq_true]
    exact getElem?_eq_none_iff.mp hown

/-- Scopes are put together from the outside in, and looked into from the inside out. -/
theorem getElem?_merged (s : Store) (scopes : List ScopeId) (name : String) :
    (scopes.reverse.foldl (fun (all : Bindings) scope =>
      (s.ownBindings scope).foldl (fun acc n v => acc.insert n v) all) ∅)[name]? =
        scopes.findSome? fun scope => (s.ownBindings scope)[name]? := by
  induction scopes with
  | nil => exact Std.TreeMap.getElem?_emptyc
  | cons id rest ih =>
    rw [List.reverse_cons, List.foldl_append, List.foldl_cons, List.foldl_nil,
      getElem?_foldl_insert, ih, List.findSome?_cons]
    cases (s.ownBindings id)[name]? <;> rfl

/-- **The visible bindings** are the names that stand for something, each with its value. -/
theorem mem_bindings_iff {i : ScopeId} {name : String} {value : Expr} :
    (name, value) ∈ s.bindings i ↔ s.lookup i name = some value := by
  rw [bindings, Std.TreeMap.mem_toList_iff_getElem?_eq_some, getElem?_merged, lookup]

theorem lt_of_compare {a b : String} (h : compare a b = .lt) : a < b :=
  compareOfLessAndEq_eq_lt.mp h

/-- They are in the order of their names. -/
theorem pairwise_bindings (s : Store) (i : ScopeId) :
    (s.bindings i).Pairwise fun a b => a.1 < b.1 :=
  Std.TreeMap.ordered_keys_toList.imp lt_of_compare

/-! ## Names -/

/-- Names put into order are the names that there were. -/
theorem mem_keys_foldl_insert (names : List String) (all : Std.TreeMap String Unit)
    (name : String) :
    name ∈ (names.foldl (fun (all : Std.TreeMap String Unit) n => all.insert n ()) all).keys ↔
      name ∈ names ∨ name ∈ all.keys := by
  induction names generalizing all with
  | nil => simp
  | cons n rest ih =>
    rw [List.foldl_cons, ih, Std.TreeMap.mem_keys, Std.TreeMap.mem_keys, Std.TreeMap.mem_insert,
      Std.compare_eq_iff_eq, List.mem_cons]
    tauto

/-- A name is visible if some scope of the chain binds it. -/
theorem exists_lookup_iff {i : ScopeId} {name : String} :
    (∃ value, s.lookup i name = some value) ↔ ∃ id ∈ s.chain i, name ∈ s.ownBindings id := by
  simp only [lookup, ← Option.isSome_iff_exists, List.findSome?_isSome_iff,
    Std.TreeMap.mem_iff_isSome_getElem?]

theorem mem_complete_iff {i : ScopeId} {stem name : String} :
    name ∈ s.complete i stem ↔
      (∃ value, s.lookup i name = some value) ∧ stem.toList.isPrefixOf name.toList = true := by
  rw [complete, mem_keys_foldl_insert, exists_lookup_iff]
  simp [List.mem_filter, List.mem_flatMap]

theorem pairwise_complete (s : Store) (i : ScopeId) (stem : String) :
    (s.complete i stem).Pairwise (· < ·) :=
  Std.TreeMap.ordered_keys.imp lt_of_compare

/-- **The names that complete a stem** are those of the visible bindings that start with it. -/
theorem complete_eq_filter (s : Store) (i : ScopeId) (stem : String) :
    s.complete i stem =
      ((s.bindings i).map Prod.fst).filter fun name => stem.toList.isPrefixOf name.toList := by
  have hnames : ((s.bindings i).map Prod.fst).Pairwise (· < ·) :=
    List.pairwise_map.mpr (pairwise_bindings s i)
  have hfiltered := hnames.filter fun name => stem.toList.isPrefixOf name.toList
  have hcomplete := pairwise_complete s i stem
  -- both are in strict order, so they are the same if they have the same members
  refine List.Perm.eq_of_pairwise (fun a b _ _ hab hba => absurd hba (String.lt_asymm hab))
    hcomplete hfiltered ?_
  rw [List.perm_ext_iff_of_nodup hcomplete.nodup hfiltered.nodup]
  intro name
  rw [mem_complete_iff, List.mem_filter, List.mem_map]
  simp [mem_bindings_iff]

/-! ## After a definition -/

/-- A chain has a scope in one place only, so a nearer binding hides it. -/
theorem not_exposes_of_nearer {id i j : ScopeId} {name : String} {before after : List ScopeId}
    (hchain : s.chain i = before ++ id :: after) (hj : j ∈ before)
    (hname : name ∈ s.ownBindings j) : ¬ s.Exposes id name i := by
  rintro ⟨before', after', hchain', hbefore⟩
  have hnodup := (s.pairwise_chain i).nodup
  rw [hchain, List.nodup_middle, List.nodup_cons, List.mem_append, not_or] at hnodup
  obtain ⟨⟨hnotBefore, hnotAfter⟩, -⟩ := hnodup
  obtain ⟨rfl, -⟩ :=
    (List.append_cons_inj_of_notMem hnotBefore hnotAfter).mp (hchain.symm.trans hchain')
  exact hbefore j hj hname

/-- Other scopes bind what they did before. -/
theorem findSome?_bind_of_notMem {id : ScopeId} (name : String) (value : Expr)
    {scopes : List ScopeId} (h : id ∉ scopes) :
    (scopes.findSome? fun j => ((s.bind id name value).ownBindings j)[name]?) =
      scopes.findSome? fun j => (s.ownBindings j)[name]? := by
  induction scopes with
  | nil => rfl
  | cons j rest ih =>
    obtain ⟨hj, hrest⟩ := List.ne_and_not_mem_of_not_mem_cons h
    rw [List.findSome?_cons, List.findSome?_cons, ownBindings_bind_of_ne s (Ne.symm hj), ih hrest]

/-- **A definition** is found where it is exposed, and what is found elsewhere stays the same. -/
theorem lookup_bind {id : ScopeId} (hid : id < s.scopes.size) (name : String) (value : Expr)
    (i : ScopeId) :
    (s.Exposes id name i ∧ (s.bind id name value).lookup i name = some value) ∨
      (¬ s.Exposes id name i ∧ (s.bind id name value).lookup i name = s.lookup i name) := by
  rw [lookup, lookup, chain_bind]
  by_cases hmem : id ∈ s.chain i
  · obtain ⟨before, after, hchain, hfirst⟩ := List.eq_append_cons_of_mem hmem
    rw [hchain, List.findSome?_append, List.findSome?_append,
      findSome?_bind_of_notMem name value hfirst]
    -- a scope on the way that binds the name hides the new binding
    cases hbefore : before.findSome? fun j => (s.ownBindings j)[name]? with
    | some nearer =>
      obtain ⟨j, hj, hvalue⟩ := List.exists_of_findSome?_eq_some hbefore
      have hname : name ∈ s.ownBindings j := by
        rw [Std.TreeMap.mem_iff_isSome_getElem?, hvalue]
        rfl
      exact Or.inr ⟨not_exposes_of_nearer hchain hj hname, rfl⟩
    | none =>
      refine Or.inl ⟨⟨before, after, hchain, fun j hj => ?_⟩, ?_⟩
      · exact getElem?_eq_none_iff.mp (List.findSome?_eq_none_iff.mp hbefore j hj)
      · rw [Option.none_or, List.findSome?_cons, ownBindings_bind_self hid,
          Std.TreeMap.getElem?_insert_self]
  · exact Or.inr ⟨mt Exposes.mem_chain hmem, findSome?_bind_of_notMem name value hmem⟩

theorem lookup_bind_of_exposes {id i : ScopeId} {name : String} (hid : id < s.scopes.size)
    (h : s.Exposes id name i) (value : Expr) :
    (s.bind id name value).lookup i name = some value :=
  (s.lookup_bind hid name value i).elim And.right fun hnot => absurd h hnot.1

theorem lookup_bind_of_not_exposes {id i : ScopeId} {name : String} (hid : id < s.scopes.size)
    (h : ¬ s.Exposes id name i) (value : Expr) :
    (s.bind id name value).lookup i name = s.lookup i name :=
  (s.lookup_bind hid name value i).elim (fun hexposes => absurd hexposes.1 h) And.right

/-- A definition that succeeds is a binding. -/
theorem eq_bind_of_define {t : Store} {id : ScopeId} {name : String} {value : Expr}
    (h : s.define id name value = .ok t) : t = s.bind id name value := by
  rw [define] at h
  split at h
  · cases h
  · exact (Except.ok.inj h).symm

/--
**All views of an environment agree.** From any scope of any store, the visible bindings are in
the strict order of their names, and are the names that stand for something, each with its value
in the nearest scope that binds it. The names that complete a stem are those among them that start
with it, in the same order. After a definition in a scope, the name stands for the new value
there and wherever the scope is reached before another binding of the name. Other names, and the
name where the scope is not reached or is behind such a binding, stand for what they did before.
-/
theorem views_agree (s : Store) (i : ScopeId) :
    (s.bindings i).Pairwise (fun a b => a.1 < b.1) ∧
    (∀ name value, (name, value) ∈ s.bindings i ↔ s.lookup i name = some value) ∧
    (∀ name value, s.lookup i name = some value ↔
      ∃ id, s.Exposes id name i ∧ (s.ownBindings id)[name]? = some value) ∧
    (∀ stem : String, s.complete i stem =
      ((s.bindings i).map Prod.fst).filter fun name => stem.toList.isPrefixOf name.toList) ∧
    (∀ name value t, i < s.scopes.size → s.define i name value = .ok t →
      t.lookup i name = some value ∧
      (∀ j, s.Exposes i name j → t.lookup j name = some value) ∧
      (∀ j other, other ≠ name → t.lookup j other = s.lookup j other) ∧
      (∀ j, i ∉ s.chain j → t.lookup j name = s.lookup j name) ∧
      (∀ j before after, s.chain j = before ++ i :: after →
        (∃ k ∈ before, name ∈ s.ownBindings k) → t.lookup j name = s.lookup j name)) := by
  refine ⟨pairwise_bindings s i, fun _ _ => mem_bindings_iff, fun _ _ => lookup_eq_some_iff,
    complete_eq_filter s i, fun name value t hi hdefine => ?_⟩
  obtain rfl := eq_bind_of_define hdefine
  refine ⟨lookup_bind_self hi name value, fun j hj => lookup_bind_of_exposes hi hj value,
    fun j other hother => lookup_bind_of_ne s i j hother value,
    fun j hj => lookup_bind_of_not_exposes hi (mt Exposes.mem_chain hj) value,
    fun j before after hchain hnearer => ?_⟩
  obtain ⟨k, hk, hname⟩ := hnearer
  exact lookup_bind_of_not_exposes hi (not_exposes_of_nearer hchain hk hname) value

/--
For instance with a scope, another inside it that binds the same name, a third inside that, and
a fourth beside them: the name is defined once more in the outermost scope.
-/
theorem views_agree_shadowed :
    let outer := (empty.newScope none).2.bind 0 "x" (.symbol "a")
    let s := (((outer.newScope (some 0)).2.bind 1 "x" (.symbol "b")).newScope (some 1)).2
    let s := ((s.newScope (some 0)).2.newScope none).2
    let t := s.bind 0 "x" (.symbol "c")
    (0 < s.scopes.size ∧ s.define 0 "x" (.symbol "c") = .ok t) ∧
      t.lookup 0 "x" = some (.symbol "c") ∧
      (s.Exposes 0 "x" 3 ∧ t.lookup 3 "x" = some (.symbol "c")) ∧
      ("y" ≠ "x" ∧ t.lookup 2 "y" = s.lookup 2 "y") ∧
      (0 ∉ s.chain 4 ∧ t.lookup 4 "x" = s.lookup 4 "x") ∧
      ((s.chain 2 = [2, 1] ++ 0 :: [] ∧ ∃ k ∈ [2, 1], "x" ∈ s.ownBindings k) ∧
        t.lookup 2 "x" = s.lookup 2 "x") := by
  intro outer s s t
  have hdefine : s.define 0 "x" (.symbol "c") = .ok t := rfl
  have hsize : 0 < s.scopes.size := by decide
  have hzero : s.chain 0 = [0] := chain_of_root rfl
  have hone : s.chain 1 = [1, 0] := by
    rw [chain_of_parent (p := ⟨0, by decide⟩) rfl, hzero]
  have htwo : s.chain 2 = [2, 1] ++ 0 :: [] := by
    rw [chain_of_parent (p := ⟨1, by decide⟩) rfl, hone]
    rfl
  have hthree : s.Exposes 0 "x" 3 := by
    refine ⟨[3], [], ?_, by decide +kernel⟩
    rw [chain_of_parent (p := ⟨0, by decide⟩) rfl, hzero]
    rfl
  have hfour : 0 ∉ s.chain 4 := by
    rw [chain_of_root rfl]
    decide
  have hnearer : ∃ k ∈ [2, 1], "x" ∈ s.ownBindings k := ⟨1, by decide, by decide +kernel⟩
  obtain ⟨-, -, -, -, hafter⟩ := views_agree s 0
  obtain ⟨hself, hexposed, hother, hapart, hhidden⟩ := hafter "x" (.symbol "c") t hsize hdefine
  exact ⟨⟨hsize, hdefine⟩, hself, ⟨hthree, hexposed 3 hthree⟩,
    ⟨by decide, hother 2 "y" (by decide)⟩, ⟨hfour, hapart 4 hfour⟩,
    ⟨⟨htwo, hnearer⟩, hhidden 2 _ _ htwo hnearer⟩⟩

end ExactLisp.Store
