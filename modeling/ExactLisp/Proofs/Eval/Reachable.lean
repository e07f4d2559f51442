import ExactLisp.Proofs.Eval.Operations
import ExactLisp.Proofs.Eval.TrackedSessions
import Mathlib.Data.List.Nodup

/-!
# The scopes that a program can come to have

A program makes environments and scopes inside them, binds names, and evaluates. Each of these
is a sequence of operations on the store (`Store.Step.operations`), so every store that a
program can come to is one that operations lead to, and a forest. From any such store on,
scopes keep their parents and names stay bound, and from every scope there is one way out, on
which no scope is met twice (`scopes_grow`).

The commands of a session are steps as well. So all of this holds of sessions
(`Session.reachable_runAll`).
-/

namespace ExactLisp

variable {embedding : Embedding} {s t : Store}

namespace Store

/-! ## Environments -/

theorem operations_registerNative (s : Store) (scope : ScopeId) {f : Native}
    (hf : f.code.RefersBelow s.scopes.size) : Operations s (s.registerNative scope f) :=
  have hvalue : (Expr.native s.fresh.1 f).RefersBelow s.fresh.2.scopes.size := hf
  .tail (.single (.fresh s)) (.bind s.fresh.2 scope f.name hvalue)

theorem operations_registerHost (s : Store) (scope : ScopeId) (name : String)
    (f : HostFunction) : Operations s (s.registerHost scope name f) :=
  have hvalue : (Expr.host s.fresh.1 f).RefersBelow s.fresh.2.scopes.size := trivial
  .tail (.single (.fresh s)) (.bind s.fresh.2 scope name hvalue)

theorem operations_of_define {scope : ScopeId} {name : String} {value : Expr}
    (hv : value.RefersBelow s.scopes.size) (h : s.define scope name value = .ok t) :
    Operations s t := by
  rw [define] at h
  split at h
  · cases h
  · cases h
    exact .single (.bind s scope name hv)

/-- An alias is bound to what is bound already. -/
theorem operations_of_addAlias (hs : s.Forest) {scope : ScopeId} {source target : String}
    (h : s.addAlias scope source target = .ok t) : Operations s t :=
  (operations_of_leadsTo (tracking.addAlias ⟨rfl, hs⟩ h)).1

/-- A new environment is made by operations, from a scope of its own on. -/
theorem operations_newEnvironment (h : embedding.Operates) (hs : s.Forest) (start : Starting) :
    Operations s (s.newEnvironment embedding start).2 :=
  (operations_of_leadsTo (tracking.newEnvironment h.admits ⟨rfl, hs⟩ start)).1

/-! ## Steps of a program -/

/--
One step of a program: an operation, such as adding a scope inside another, an environment as a
whole, a binding in one of the ways there are, or an evaluation, to any depth. It needs scopes
that are there, and values that refer only to those, as it cannot have others.

As evaluation is a sequence of operations, what it passes through is reached by steps as well.
-/
inductive Step (embedding : Embedding) : Store → Store → Prop
  | operation {s t : Store} : Operation s t → Step embedding s t
  | newEnvironment (s : Store) (start : Starting) :
    Step embedding s (s.newEnvironment embedding start).2
  | define {s t : Store} {scope : ScopeId} {name : String} {value : Expr} :
    value.RefersBelow s.scopes.size → s.define scope name value = .ok t → Step embedding s t
  | addAlias {s t : Store} {scope : ScopeId} {source target : String} :
    s.addAlias scope source target = .ok t → Step embedding s t
  | registerNative (s : Store) (scope : ScopeId) {f : Native} :
    f.code.RefersBelow s.scopes.size → Step embedding s (s.registerNative scope f)
  | registerHost (s : Store) (scope : ScopeId) (name : String) (f : HostFunction) :
    Step embedding s (s.registerHost scope name f)
  | evaluate (s : Store) (depth : Nat) {scope : ScopeId} {e : Expr} :
    scope < s.scopes.size → e.RefersBelow s.scopes.size →
      Step embedding s ((evalWithin embedding depth scope e).runOn s).2
  | execute (s : Store) {scope : ScopeId} (text : String) :
    scope < s.scopes.size → Step embedding s ((execute embedding scope text).runOn s).2
  | call (s : Store) (depth : Nat) {f : Expr} {args : List Expr} :
    f.RefersBelow s.scopes.size → Expr.RefersBelowAll s.scopes.size args →
      Step embedding s ((invokeWithin embedding depth f args).runOn s).2

end Store

open StoreM (Performs)

/-- Reading a text and evaluating it acts by operations only. -/
theorem performs_execute (h : embedding.Operates) {n : Nat} {scope : ScopeId} (hs : scope < n)
    (text : String) : (execute embedding scope text).Performs n Expr.RefersBelow :=
  .of_tracks fun _ hn => Session.tracks_execute h.admits (Nat.lt_of_lt_of_le hs hn) text

namespace Store

/-- **A step is a sequence of operations.** -/
theorem Step.operations (h : embedding.Operates) (hstep : Step embedding s t) (hs : s.Forest) :
    Operations s t := by
  cases hstep with
  | operation hop => exact .single hop
  | newEnvironment start => exact operations_newEnvironment h hs start
  | define hv hdefine => exact operations_of_define hv hdefine
  | addAlias halias => exact operations_of_addAlias hs halias
  | registerNative scope hf => exact operations_registerNative s scope hf
  | registerHost scope name f => exact operations_registerHost s scope name f
  | evaluate depth hscope he =>
    exact ((performs_within h depth).eval hscope he s (Nat.le_refl _) hs).1
  | execute text hscope => exact (performs_execute h hscope text s (Nat.le_refl _) hs).1
  | call depth hf hargs =>
    exact ((performs_within h depth).invoke hf hargs s (Nat.le_refl _) hs).1

/-- What a program can come to from a store, by any number of steps. -/
abbrev Reachable (embedding : Embedding) : Store → Store → Prop :=
  Relation.ReflTransGen (Step embedding)

/-- **A run is a sequence of operations.** -/
theorem Reachable.operations (h : embedding.Operates) (hrun : Reachable embedding s t)
    (hs : s.Forest) : Operations s t := by
  induction hrun with
  | refl => exact .refl
  | tail _ hlast ih => exact ih.trans (hlast.operations h (ih.forest hs))

theorem Reachable.of_operations (hops : Operations s t) : Reachable embedding s t :=
  Relation.ReflTransGen.mono (fun _ _ => .operation) _ _ hops

end Store

/-! ## Operations of an embedding program -/

/-- The function `call1` acts as the function that it calls. -/
theorem Sample.performs_call1 {invoke : Invoke}
    (hinvoke : ∀ {n f args}, Expr.RefersBelow n f → Expr.RefersBelowAll n args →
      (invoke f args).Performs n Expr.RefersBelow) {n : Nat} {args : List Expr}
    (hargs : Expr.RefersBelowAll n args) :
    (Sample.call1.run invoke args).Performs n Expr.RefersBelow := by
  refine .of_tracks fun w hn =>
    Sample.tracks_call1 (fun hf hargs => ?_) (Store.values_worlds.mpr (hargs.mono hn))
  exact (hinvoke hf (Store.values_worlds.mp hargs)).tracks (Nat.le_refl _)

/-- The function `echo` gives back what it was given. -/
theorem Sample.refersBelow_of_echo {n : Nat} {receiver : Option HostObject}
    {args : List HostValue} {cells : Array Int64} {v : HostValue}
    (hargs : HostValue.RefersBelowAll n args)
    (hv : ((Sample.echo.run receiver args).run.run cells).1 = .ok v) : v.RefersBelow n :=
  HostValue.refersBelowAll_iff.mp hargs v (Sample.mem_of_echo hv)

/-! ## The scopes of a program -/

/--
**The scopes of a program are a forest that only grows.** In every store that it can come to, a
parent is older than the scopes inside it. In every store that it can come to from there, all
scopes have the parents that they had, and bind all the names that they bound. Following the
parents from a scope comes to an end, after the scopes of its chain, each of which is met once;
and looking a name up comes to an end with what it stands for, and meets no scope twice.
-/
theorem scopes_grow (h : embedding.Operates) (hs : Store.Reachable embedding .empty s)
    (ht : Store.Reachable embedding s t) :
    (∀ i p, s.enclosing? i = some p → p < i) ∧ s.GrowsTo t ∧
    (∀ i, (s.chain i).Nodup ∧ ∀ visited, s.Climb i visited ↔ visited = s.chain i) ∧
    ∀ i name, (∃ visited, s.Search name i visited (s.lookup i name)) ∧
      ∀ visited result, s.Search name i visited result →
        visited.Nodup ∧ result = s.lookup i name := by
  have hforest : s.Forest := (hs.operations h Store.forest_empty).forest Store.forest_empty
  refine ⟨hforest.older, (ht.operations h hforest).growsTo,
    fun i => ⟨(s.pairwise_chain i).nodup, fun visited => hforest.climb_iff⟩,
    fun i name => ⟨hforest.search_lookup name i, fun visited result hsearch => ?_⟩⟩
  obtain ⟨hvisited, hresult⟩ := hforest.search_eq hsearch
  exact ⟨hvisited.sublist.nodup (s.pairwise_chain i).nodup, hresult⟩

/--
For instance after a `let*` form that binds a closure in the very scope that the closure was made
in, and calls it, and then once more; where an operation of the embedding program and one of the
host are around.
-/
theorem scopes_grow_cycle :
    let embedding : Embedding :=
      { natives := [Sample.call1]
        hosts := [Sample.echo]
        install := fun scope s =>
          (s.registerNative scope (Sample.nativeOf Sample.call1)).registerHost scope "echo"
            (Sample.hostOf Sample.echo none) }
    let function : Expr := .list 0 [.symbol "lambda", .list 1 [], .symbol "f"]
    let form : Expr := .list 2 [.symbol "let*", .list 3 [.list 4 [.symbol "f", function]],
      .list 5 [.symbol "f"]]
    let first : Store := (Store.empty.newEnvironment embedding .bare).2
    let s : Store := ((evalWithin embedding 4 0 form).runOn first).2
    let t : Store := ((evalWithin embedding 4 0 form).runOn s).2
    (embedding.Operates ∧ Store.Reachable embedding .empty s ∧ Store.Reachable embedding s t) ∧
      (∀ i p, s.enclosing? i = some p → p < i) ∧ s.GrowsTo t ∧
      (∀ i, (s.chain i).Nodup ∧ ∀ visited, s.Climb i visited ↔ visited = s.chain i) ∧
      ∀ i name, (∃ visited, s.Search name i visited (s.lookup i name)) ∧
        ∀ visited result, s.Search name i visited result →
          visited.Nodup ∧ result = s.lookup i name := by
  intro embedding function form first s t
  have hoperates : embedding.Operates := by
    refine ⟨?_, ?_, fun scope s _ _ => ?_⟩
    · exact List.forall_mem_singleton.mpr fun _ hinvoke _ _ => Sample.performs_call1 hinvoke
    · exact List.forall_mem_singleton.mpr fun _ _ _ _ _ => Sample.refersBelow_of_echo
    · have hnative := Store.operations_registerNative s scope
        (f := Sample.nativeOf Sample.call1) trivial
      exact hnative.trans (Store.operations_registerHost _ scope _ _)
  have hform : ∀ n, form.RefersBelow n := by
    intro n
    simp [form, function, Expr.RefersBelow, Expr.RefersBelowAll]
  have hfirst : Store.Reachable embedding .empty first := .single (.newEnvironment .empty .bare)
  have hsize : 0 < first.scopes.size := by decide
  have hform₁ : Store.Reachable embedding first s := .single (.evaluate first 4 hsize (hform _))
  -- the scope of the environment is still there for the second evaluation
  have hgrown := (hform₁.operations hoperates
    ((hfirst.operations hoperates Store.forest_empty).forest Store.forest_empty)).growsTo.size
  have hform₂ : Store.Reachable embedding s t :=
    .single (.evaluate s 4 (Nat.lt_of_lt_of_le hsize hgrown) (hform _))
  have hs := hfirst.trans hform₁
  exact ⟨⟨hoperates, hs, hform₂⟩, scopes_grow hoperates hs hform₂⟩

/-! ## Sessions -/

namespace Session

variable {session : Session}

/-- Whether a session is about scopes that are there. -/
structure WellScoped (session : Session) : Prop where
  forest : session.store.Forest
  current : session.current < session.store.scopes.size
  outer : ∀ scope ∈ session.outer, scope < session.store.scopes.size
  left : ∀ scope ∈ session.left, scope < session.store.scopes.size
  held : ∀ value, session.held = some value → value.RefersBelow session.store.scopes.size

/-- What a store has to be for the scopes of a session to be known is the session's store. -/
theorem known_iff {w : Store} :
    session.Known Store.tracking w ↔ w = session.store ∧ session.WellScoped := by
  constructor
  · rintro ⟨⟨rfl, hforest⟩, hcurrent, houter, hleft, hheld⟩
    exact ⟨rfl, hforest, hcurrent, houter, hleft, hheld⟩
  · rintro ⟨rfl, hforest, hcurrent, houter, hleft, hheld⟩
    exact ⟨⟨rfl, hforest⟩, hcurrent, houter, hleft, hheld⟩

/-- Whether a session goes on by operations, and to scopes that are there. -/
def Continues (session next : Session) : Prop :=
  Store.Operations session.store next.store ∧ next.WellScoped

/-- A session that starts is about the scope of its environment. -/
theorem continues_start (h : embedding.Operates) (kind : Store.Starting) :
    Store.Operations .empty (start embedding .empty none kind).store ∧
      (start embedding .empty none kind).WellScoped := by
  have hnone : ∀ e : Expr, none = some e → Store.tracking.value .empty e := nofun
  obtain ⟨w, hops, hknown⟩ := tracks_start h.admits ⟨rfl, Store.forest_empty⟩ hnone kind
  obtain ⟨rfl, hscoped⟩ := known_iff.mp hknown
  exact ⟨hops, hscoped⟩

/-- **Commands** in order are carried out by operations. -/
theorem continues_runAll (h : embedding.Operates) (hs : session.WellScoped)
    (commands : List Command) : session.Continues (session.runAll embedding commands).2 := by
  obtain ⟨w, hops, hknown, -⟩ := tracks_runAll h.admits (known_iff.mpr ⟨rfl, hs⟩) commands
  obtain ⟨rfl, hscoped⟩ := known_iff.mp hknown
  exact ⟨hops, hscoped⟩

/-- **What a session comes to is reachable**, and so are all stores on the way. -/
theorem reachable_runAll (h : embedding.Operates) (kind : Store.Starting)
    (commands : List Command) :
    Store.Reachable embedding .empty (start embedding .empty none kind).store ∧
      Store.Reachable embedding (start embedding .empty none kind).store
        ((start embedding .empty none kind).runAll embedding commands).2.store := by
  obtain ⟨hstart, hscoped⟩ := continues_start h kind
  exact ⟨.of_operations hstart, .of_operations (continues_runAll h hscoped commands).1⟩

end Session

end ExactLisp
