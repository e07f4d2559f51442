import ExactLisp.Proofs.Eval.Tracking
import ExactLisp.Proofs.Store.Forest

/-!
# Evaluation as a sequence of operations

Whatever evaluation does to a store, it does by operations on it, one after another, and every
value that it gives refers only to scopes that are there in the end (`performs_within`).

The bound on what a value refers to moves as evaluation goes on, since a value may refer to a
scope that was added on the way. So the store itself is what is known at a time, it grows by
operations, and what is known of a value is that it refers only to scopes that are there
(`Store.tracking`). What was known before stays true, as scopes are only ever added.

Of what the embedding program supplies it has to be assumed that it, too, acts on scopes by
operations only, and makes up no values that refer to scopes it cannot know
(`Embedding.Operates`).
-/

namespace ExactLisp

variable {n k : Nat}

/-! ## Host values -/

namespace HostValue

mutual

/-- Whether all scopes that a host value refers to are below a bound. -/
def RefersBelow (n : Nat) : HostValue → Prop
  | list items => RefersBelowAll n items
  | function f => f.RefersBelow n
  | null | bool _ | int _ | float _ | decimal _ | str _ | array _ | object _ => True

/-- Whether all scopes that some host values refer to are below a bound. -/
def RefersBelowAll (n : Nat) : List HostValue → Prop
  | [] => True
  | v :: rest => v.RefersBelow n ∧ RefersBelowAll n rest

end

theorem refersBelowAll_iff {vs : List HostValue} :
    RefersBelowAll n vs ↔ ∀ v ∈ vs, v.RefersBelow n := by
  induction vs with
  | nil => simp [RefersBelowAll]
  | cons v rest ih => rw [RefersBelowAll, ih, List.forall_mem_cons]

theorem refersBelow_ofAtom (a : Atom) : (ofAtom a).RefersBelow n := by
  match a with
  | .number (.int _) | .number (.float _) | .number (.big _) => exact trivial
  | .null | .bool _ | .str .. | .object _ => exact trivial

mutual

/-- A host value refers to what the expression refers to that it stands for. -/
theorem refersBelow_ofExpr : ∀ {e : Expr}, e.RefersBelow n → (ofExpr e).RefersBelow n
  | .list .., he => refersBelowAll_ofExprs he
  | .atom a, _ => refersBelow_ofAtom a
  | .native .., he | .closure .., he | .host .., he => he
  | .symbol _, _ | .array .., _ => trivial

theorem refersBelowAll_ofExprs : ∀ {es : List Expr}, Expr.RefersBelowAll n es →
    RefersBelowAll n (ofExprs es)
  | [], _ => trivial
  | _ :: _, hes => ⟨refersBelow_ofExpr hes.1, refersBelowAll_ofExprs hes.2⟩

end

end HostValue

/-! ## Computations -/

/--
Whether a computation acts on stores with enough scopes by operations only, with values of some
kind, which may depend on how many scopes there are in the end.
-/
def StoreM.Performs {α : Type} (n : Nat) (m : StoreM α) (P : Nat → α → Prop) : Prop :=
  ∀ s : Store, n ≤ s.scopes.size → s.Forest →
    Store.Operations s (m.runOn s).2 ∧
      ∀ a, (m.runOn s).1 = .ok a → P (m.runOn s).2.scopes.size a

namespace Store

variable {s t : Store}

/-- What is known of scopes and values at a time: that those are there which they refer to. -/
def worlds : Worlds Store where
  GrowsTo := Operations
  Describes w s := w = s ∧ s.Forest
  scope w id := id < w.scopes.size
  value w e := e.RefersBelow w.scopes.size
  hostValue w v := v.RefersBelow w.scopes.size

theorem values_worlds {es : List Expr} :
    worlds.Values s es ↔ Expr.RefersBelowAll s.scopes.size es :=
  Worlds.values_iff.trans Expr.refersBelowAll_iff.symm

theorem hostValues_worlds {vs : List HostValue} :
    worlds.HostValues s vs ↔ HostValue.RefersBelowAll s.scopes.size vs :=
  Worlds.hostValues_iff.trans HostValue.refersBelowAll_iff.symm

theorem code_worlds : ∀ {code : NativeCode}, code.RefersBelow s.scopes.size → worlds.Code s code
  | .eval _, h | .exec _, h => h
  | .builtin _, _ | .embedded _, _ => trivial

/-- An operation on a forest leads to what it makes of the store. -/
theorem leadsTo_of_operation {P : Store → Prop} (hop : Operation s t) (hs : s.Forest) (h : P t) :
    worlds.LeadsTo s t P :=
  ⟨t, .single hop, ⟨rfl, hop.forest hs⟩, h⟩

/-- **Operations are followed** by what they make of the store. -/
def tracking : Tracking Store where
  toWorlds := worlds
  refl _ := .refl
  trans := .trans
  scope_mono hops h := Nat.lt_of_lt_of_le h hops.growsTo.size
  value_mono hops h := h.mono hops.growsTo.size
  symbol _ _ := trivial
  plain _ _ _ := trivial
  items h := values_worlds.mpr h
  elements _ _ _ := trivial
  native h := code_worlds h
  closure h := ⟨h.1, values_worlds.mpr h.2⟩
  ofExpr h := HostValue.refersBelow_ofExpr h
  hostItems h := hostValues_worlds.mpr h
  hostElements _ _ _ := trivial
  hostFunction h := h
  get := by
    rintro w s id name e ⟨rfl, hs⟩ hget
    exact hs.refersBelow_of_get hget
  object := by
    rintro w s make ⟨rfl, hs⟩ hmake
    refine leadsTo_of_operation (.fresh w) hs ?_
    cases hmake with
    | list hitems => exact (values_worlds (s := w)).mp hitems
    | native hcode => exact hcode
    | closure hscope hbody => exact ⟨hscope, (values_worlds (s := w)).mp hbody⟩
    | array | str | host => exact trivial
  bind := by
    rintro w s e ⟨rfl, hs⟩ he id name
    exact leadsTo_of_operation (.bind w id name he) hs trivial
  newScope := by
    rintro w s parent ⟨rfl, hs⟩ hparent
    refine leadsTo_of_operation (.newScope w parent hparent) hs ?_
    change w.scopes.size < (w.newScope parent).2.scopes.size
    rw [size_newScope]
    exact Nat.lt_succ_self _
  release := by
    rintro w s ⟨rfl, hs⟩ id
    exact leadsTo_of_operation (.release w id) hs trivial
  setCells := by
    rintro w s ⟨rfl, hs⟩ cells
    exact leadsTo_of_operation (.setCells w cells) hs trivial

/-- A store that is followed has come about by operations. -/
theorem operations_of_leadsTo {P : Store → Prop} (h : worlds.LeadsTo s t P) :
    Operations s t ∧ P t := by
  obtain ⟨u, hops, ⟨rfl, -⟩, hP⟩ := h
  exact ⟨hops, hP⟩

end Store

namespace StoreM.Performs

variable {α : Type} {m : StoreM α} {P : Nat → α → Prop}

/-- What acts by operations is followed from all stores with enough scopes. -/
theorem tracks (hm : m.Performs n P) {w : Store} (hn : n ≤ w.scopes.size) :
    m.Tracks Store.tracking w fun u => P u.scopes.size := by
  rintro v hv s ⟨rfl, hs⟩
  obtain ⟨hops, hend⟩ := hm v (Nat.le_trans hn hv.growsTo.size) hs
  exact ⟨_, hops, ⟨rfl, hops.forest hs⟩, hend⟩

/-- And the other way round. -/
theorem of_tracks (h : ∀ w : Store, n ≤ w.scopes.size →
    m.Tracks Store.tracking w fun u => P u.scopes.size) : m.Performs n P := by
  intro s hn hs
  exact Store.operations_of_leadsTo (h s hn s .refl s ⟨rfl, hs⟩)

end StoreM.Performs

/-! ## What the embedding program supplies -/

/--
Whether what the embedding program supplies acts on scopes by operations only. Its native
operations may call the functions that they are given. A host operation cannot do that, but it
may give back functions that are in its arguments.
-/
structure Embedding.Operates (embedding : Embedding) : Prop where
  native : ∀ operation ∈ embedding.natives, ∀ invoke : Invoke,
    (∀ {n f args}, Expr.RefersBelow n f → Expr.RefersBelowAll n args →
      (invoke f args).Performs n Expr.RefersBelow) →
    ∀ n args, Expr.RefersBelowAll n args →
      (operation.run invoke args).Performs n Expr.RefersBelow
  host : ∀ operation ∈ embedding.hosts, ∀ n receiver args cells v,
    HostValue.RefersBelowAll n args →
    ((operation.run receiver args).run.run cells).1 = .ok v → v.RefersBelow n
  install : ∀ (scope : ScopeId) (s : Store), s.Forest → scope < s.scopes.size →
    Store.Operations s (embedding.install scope s)

/-- What acts on scopes by operations only is followed. -/
theorem Embedding.Operates.admits {embedding : Embedding} (h : embedding.Operates) :
    Store.tracking.Admits embedding where
  native operation hmem invoke hinvoke {w args} hargs := by
    have hperforms : ∀ {n f args}, Expr.RefersBelow n f → Expr.RefersBelowAll n args →
        (invoke f args).Performs n Expr.RefersBelow := fun hf hargs => .of_tracks fun w hn =>
      hinvoke (hf.mono hn) (Store.values_worlds.mpr (hargs.mono hn))
    have hargs := Store.values_worlds.mp hargs
    exact (h.native operation hmem invoke hperforms _ _ hargs).tracks (Nat.le_refl _)
  host operation hmem {w receiver args cells v} hargs hv :=
    h.host operation hmem _ _ _ _ _ (Store.hostValues_worlds.mp hargs) hv
  install := by
    rintro w s scope ⟨rfl, hs⟩ hscope
    have hops := h.install scope w hs hscope
    exact ⟨_, hops, ⟨rfl, hops.forest hs⟩, trivial⟩

/-! ## Evaluation -/

/-- Whether evaluation in scopes that are there acts by operations only, and calls do. -/
structure Evaluator.Performs (ev : Evaluator) : Prop where
  eval : ∀ {n scope e}, scope < n → Expr.RefersBelow n e →
    (ev.eval scope e).Performs n Expr.RefersBelow
  invoke : ∀ {n f args}, Expr.RefersBelow n f → Expr.RefersBelowAll n args →
    (ev.invoke f args).Performs n Expr.RefersBelow

/-- **Evaluation is a sequence of operations**, however deep it nests and however it ends. -/
theorem performs_within {embedding : Embedding} (h : embedding.Operates) (depth : Nat) :
    Evaluator.Performs ⟨evalWithin embedding depth, invokeWithin embedding depth⟩ where
  eval hs he := .of_tracks fun _ hn =>
    (Store.tracking.tracks_within h.admits depth).eval (Nat.lt_of_lt_of_le hs hn) (he.mono hn)
  invoke hf hargs := .of_tracks fun _ hn =>
    (Store.tracking.tracks_within h.admits depth).invoke (hf.mono hn)
      (Store.values_worlds.mpr (hargs.mono hn))

end ExactLisp
