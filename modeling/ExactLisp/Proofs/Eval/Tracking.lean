import ExactLisp.Proofs.Eval.Upheld

/-!
# What is known as evaluation goes on

Invariants of evaluation often go by what has happened so far: which scopes there are by now,
or which objects have been made. What is known at a time is a world. A world describes the store
that there is at the time, it grows as evaluation goes on, and what is known of a value in it
stays known.

An invariant of this kind is a tracking (`Tracking`). It has to follow each single thing that
can be done to a store, and to say of every value what is known of its parts. Then it follows
evaluation (`Tracking.tracks_within`), if it follows what the embedding program supplies
(`Tracking.Admits`).
-/

namespace ExactLisp

/-! ## Worlds -/

/-- What may be known at a time, and of which stores, scopes and values it is known. -/
structure Worlds (World : Type) where
  /-- Whether a world has come of another one. -/
  GrowsTo : World → World → Prop
  Describes : World → Store → Prop
  scope : World → ScopeId → Prop
  value : World → Expr → Prop
  hostValue : World → HostValue → Prop

namespace Worlds

variable {World : Type} (W : Worlds World) (w : World)

/-- Some values that are known. -/
def Values : List Expr → Prop
  | [] => True
  | e :: rest => W.value w e ∧ Values rest

/-- Some host values that are known. -/
def HostValues : List HostValue → Prop
  | [] => True
  | v :: rest => W.hostValue w v ∧ HostValues rest

/-- The code of a native function acts on a scope that is known, if it acts on one. -/
def Code : NativeCode → Prop
  | .eval ambient | .exec ambient => W.scope w ambient
  | .builtin _ | .embedded _ => True

/-- The objects that can be made of what is known. -/
inductive Makes : (Ref → Expr) → Prop
  | list {items : List Expr} : W.Values w items → Makes (.list · items)
  | array {elements : Elements} :
    (∀ a ∈ elements.atoms, W.value w (.atom a)) → Makes (.array · elements)
  | str (s : String) : Makes fun ref => .atom (.str ref s)
  | native {f : Native} : W.Code w f.code → Makes (.native · f)
  | closure {params : List String} {body : List Expr} {scope : ScopeId} :
    W.scope w scope → W.Values w body → Makes (.closure · params body scope)
  | host (f : HostFunction) : Makes (.host · f)

/-- Whether a world grows to one that describes a store, and of which something else is true. -/
def LeadsTo (s : Store) (P : World → Prop) : Prop :=
  ∃ v, W.GrowsTo w v ∧ W.Describes v s ∧ P v

variable {W w}

theorem values_iff {es : List Expr} : W.Values w es ↔ ∀ e ∈ es, W.value w e := by
  induction es with
  | nil => simp [Values]
  | cons e rest ih => rw [Values, ih, List.forall_mem_cons]

theorem hostValues_iff {vs : List HostValue} :
    W.HostValues w vs ↔ ∀ v ∈ vs, W.hostValue w v := by
  induction vs with
  | nil => simp [HostValues]
  | cons v rest ih => rw [HostValues, ih, List.forall_mem_cons]

end Worlds

/-- An invariant of evaluation that goes by what is known at the time. -/
structure Tracking (World : Type) extends Worlds World where
  refl : ∀ w, GrowsTo w w
  trans : ∀ {w v u}, GrowsTo w v → GrowsTo v u → GrowsTo w u
  /-- What is known stays known. -/
  scope_mono : ∀ {w v id}, GrowsTo w v → scope w id → scope v id
  value_mono : ∀ {w v e}, GrowsTo w v → value w e → value v e
  /-- Of values without references, and without parts that have one, all is known. -/
  symbol : ∀ w name, value w (.symbol name)
  plain : ∀ w a, (∀ ref s, a ≠ .str ref s) → value w (.atom a)
  /-- What is known of a value is known of its parts. -/
  items : ∀ {w ref items}, value w (.list ref items) → toWorlds.Values w items
  elements : ∀ {w ref elements}, value w (.array ref elements) →
    ∀ a ∈ elements.atoms, value w (.atom a)
  native : ∀ {w ref f}, value w (.native ref f) → toWorlds.Code w f.code
  closure : ∀ {w ref params body id}, value w (.closure ref params body id) →
    scope w id ∧ toWorlds.Values w body
  /-- To hand a value to the host program takes its parts, and no more. -/
  ofExpr : ∀ {w e}, value w e → hostValue w (.ofExpr e)
  hostItems : ∀ {w items}, hostValue w (.list items) → toWorlds.HostValues w items
  hostElements : ∀ {w elements}, hostValue w (.array elements) →
    ∀ a ∈ elements.atoms, value w (.atom a)
  hostFunction : ∀ {w f}, hostValue w (.function f) → value w f
  /-- All that is bound is known. -/
  get : ∀ {w s id name e}, Describes w s → s.get id name = .ok e → value w e
  /-- Whatever is done to a store, the world grows to one that describes it. -/
  object : ∀ {w s make}, Describes w s → toWorlds.Makes w make →
    toWorlds.LeadsTo w s.fresh.2 fun v => value v (make s.fresh.1)
  bind : ∀ {w s e}, Describes w s → value w e →
    ∀ id name, toWorlds.LeadsTo w (s.bind id name e) fun _ => True
  newScope : ∀ {w s parent}, Describes w s → (∀ p, parent = some p → scope w p) →
    toWorlds.LeadsTo w (s.newScope parent).2 fun v => scope v (s.newScope parent).1
  release : ∀ {w s}, Describes w s → ∀ id, toWorlds.LeadsTo w (s.release id) fun _ => True
  setCells : ∀ {w s}, Describes w s →
    ∀ cells, toWorlds.LeadsTo w { s with cells } fun _ => True

/--
Whether a computation is followed by a tracking: from any world on, and any store that it
describes, there is a world that describes the store and the value after it.
-/
def StoreM.Tracks {World α : Type} (T : Tracking World) (w : World) (m : StoreM α)
    (P : World → α → Prop) : Prop :=
  ∀ v, T.GrowsTo w v → ∀ s, T.Describes v s →
    T.LeadsTo v (m.runOn s).2 fun u => ∀ a, (m.runOn s).1 = .ok a → P u a

/--
Whether what the embedding program supplies is followed by a tracking. Its native operations
may make objects as evaluation does, and call the functions that they are given. A host
operation cannot do that, but may give back what is in its arguments.
-/
structure Tracking.Admits {World : Type} (T : Tracking World) (embedding : Embedding) : Prop where
  native : ∀ operation ∈ embedding.natives, ∀ invoke : Invoke,
    (∀ {w f args}, T.value w f → T.Values w args → (invoke f args).Tracks T w T.value) →
    ∀ {w args}, T.Values w args → (operation.run invoke args).Tracks T w T.value
  host : ∀ operation ∈ embedding.hosts, ∀ {w receiver args cells v}, T.HostValues w args →
    ((operation.run receiver args).run.run cells).1 = .ok v → T.hostValue w v
  install : ∀ {w s scope}, T.Describes w s → T.scope w scope →
    T.LeadsTo w (embedding.install scope s) fun _ => True

variable {World : Type} {T : Tracking World} {w v : World}

namespace Tracking

theorem value_bool (b : Bool) : T.value w (.bool b) := T.plain w _ nofun

theorem value_number (n : Number) : T.value w (.number n) := T.plain w _ nofun

theorem values_mono {es : List Expr} (hv : T.GrowsTo w v) (h : T.Values w es) : T.Values v es :=
  Worlds.values_iff.mpr fun e he => T.value_mono hv (Worlds.values_iff.mp h e he)

theorem code_mono (hv : T.GrowsTo w v) : ∀ {code : NativeCode}, T.Code w code → T.Code v code
  | .eval _, h | .exec _, h => T.scope_mono hv h
  | .builtin _, _ | .embedded _, _ => trivial

theorem makes_mono {make : Ref → Expr} (hv : T.GrowsTo w v) (h : T.Makes w make) :
    T.Makes v make := by
  cases h with
  | list hitems => exact .list (T.values_mono hv hitems)
  | array helements => exact .array fun a ha => T.value_mono hv (helements a ha)
  | str s => exact .str s
  | native hcode => exact .native (T.code_mono hv hcode)
  | closure hscope hbody => exact .closure (T.scope_mono hv hscope) (T.values_mono hv hbody)
  | host f => exact .host f

theorem hostValues_ofExprs : ∀ {es : List Expr}, T.Values w es →
    T.HostValues w (HostValue.ofExprs es)
  | [], _ => trivial
  | _ :: _, h => ⟨T.ofExpr h.1, hostValues_ofExprs h.2⟩

/-- A store that has not changed is described by the same world. -/
theorem stays {s : Store} {P : World → Prop} (hs : T.Describes w s) (h : P w) :
    T.LeadsTo w s P :=
  ⟨w, T.refl w, hs, h⟩

theorem leadsTo_of_growsTo {s : Store} {P : World → Prop} (hv : T.GrowsTo w v)
    (h : T.LeadsTo v s P) : T.LeadsTo w s P := by
  obtain ⟨u, hu, hs, hP⟩ := h
  exact ⟨u, T.trans hv hu, hs, hP⟩

/-- One thing after another is done to a store. -/
theorem leadsTo_trans {s t : Store} {P Q : World → Prop} (h : T.LeadsTo w s P)
    (ht : ∀ v, T.GrowsTo w v → T.Describes v s → P v → T.LeadsTo v t Q) : T.LeadsTo w t Q := by
  obtain ⟨v, hv, hs, hP⟩ := h
  exact T.leadsTo_of_growsTo hv (ht v hv hs hP)

end Tracking

/-! ## Computations -/

namespace StoreM.Tracks

variable {α β : Type} {m : StoreM α} {P : World → α → Prop}

theorem mono (h : m.Tracks T w P) (hv : T.GrowsTo w v) : m.Tracks T v P :=
  fun u hu => h u (T.trans hv hu)

theorem pure {a : α} (h : ∀ v, T.GrowsTo w v → P v a) : (pure a : StoreM α).Tracks T w P := by
  intro v hv s hs
  refine T.stays hs fun b hb => ?_
  cases hb
  exact h v hv

theorem pure_any (a : α) : (Pure.pure a : StoreM α).Tracks T w fun _ _ => True :=
  .pure fun _ _ => trivial

/-- A value that is known already. -/
theorem pure_value {e : Expr} (h : T.value w e) : (Pure.pure e : StoreM Expr).Tracks T w T.value :=
  .pure fun _ hv => T.value_mono hv h

theorem pure_values {es : List Expr} (h : T.Values w es) :
    (Pure.pure es : StoreM (List Expr)).Tracks T w T.Values :=
  .pure fun _ hv => T.values_mono hv h

theorem pure_plain {a : Atom} (h : ∀ ref s, a ≠ .str ref s) :
    (Pure.pure (.atom a) : StoreM Expr).Tracks T w T.value :=
  .pure fun v _ => T.plain v a h

theorem throw (stop : Stop) : (throw stop : StoreM α).Tracks T w P :=
  fun _ _ _ hs => T.stays hs nofun

theorem fail (e : Error) : (fail e : StoreM α).Tracks T w P := .throw _

/-- What follows a computation may rely on what is known after it. -/
theorem bind {f : α → StoreM β} {R : World → β → Prop} (hm : m.Tracks T w P)
    (hf : ∀ v a, T.GrowsTo w v → P v a → (f a).Tracks T v R) : (m >>= f).Tracks T w R := by
  intro v hv s hs
  rw [runOn_bind]
  obtain ⟨u, hu, hafter, hend⟩ := hm v hv s hs
  rcases hrun : m.runOn s with ⟨stop | a, next⟩
  all_goals rw [hrun] at hafter hend
  · exact ⟨u, hu, hafter, nofun⟩
  · have hrest := hf u a (T.trans hv hu) (hend a rfl) u (T.refl u) next hafter
    exact T.leadsTo_of_growsTo hu hrest

theorem ofExcept {x : Except Error α} (h : ∀ a, x = .ok a → ∀ v, T.GrowsTo w v → P v a) :
    (ofExcept x).Tracks T w P := by
  cases x with
  | ok a => exact .pure (h a rfl)
  | error e => exact .fail e

/-- A result that is there already, of which nothing needs to be known. -/
theorem ofExcept_any (x : Except Error α) : (StoreM.ofExcept x).Tracks T w fun _ _ => True :=
  .ofExcept fun _ _ _ _ => trivial

theorem ofArithmetic (x : Except ArithmeticFault Number) :
    (ofArithmetic x).Tracks T w T.value := by
  cases x with
  | ok number => exact .pure_value (T.value_number number)
  | error fault => exact .fail _

theorem get : (get : StoreM Store).Tracks T w fun _ _ => True :=
  fun _ _ _ hs => T.stays hs fun _ _ => trivial

theorem lookup (scope : ScopeId) (name : String) :
    (ask fun s => s.get scope name).Tracks T w T.value := by
  intro v _ s hs
  rw [runOn_ask]
  refine T.stays hs fun e he => ?_
  cases hget : s.get scope name with
  | ok value =>
    rw [hget] at he
    cases he
    exact T.get hs hget
  | error e =>
    rw [hget] at he
    cases he

/-- **A new object** is made of what is known. -/
theorem object {make : Ref → Expr} (hmake : T.Makes w make) (result : Ref → α)
    (h : ∀ v ref, T.value v (make ref) → P v (result ref)) :
    (do return result (← fresh) : StoreM α).Tracks T w P := by
  intro v hv s hs
  obtain ⟨u, hu, hafter, hnew⟩ := T.object hs (T.makes_mono hv hmake)
  refine ⟨u, hu, hafter, fun a ha => ?_⟩
  cases ha
  exact h u s.fresh.1 hnew

theorem newList {items : List Expr} (h : T.Values w items) : (newList items).Tracks T w T.value :=
  object (.list h) _ fun _ _ hnew => hnew

theorem newString (s : String) : (newString s).Tracks T w T.value :=
  object (.str s) _ fun _ _ hnew => hnew

theorem newArray {elements : Elements} (h : ∀ a ∈ elements.atoms, T.value w (.atom a)) :
    (newArray elements).Tracks T w T.value :=
  object (.array h) _ fun _ _ hnew => hnew

theorem bindName {value : Expr} (hvalue : T.value w value) (scope : ScopeId) (name : String) :
    (StoreM.bind scope name value).Tracks T w fun _ _ => True := by
  intro v hv s hs
  obtain ⟨u, hu, hafter, -⟩ := T.bind hs (T.value_mono hv hvalue) scope name
  exact ⟨u, hu, hafter, fun _ _ => trivial⟩

theorem define {value : Expr} (hvalue : T.value w value) (scope : ScopeId) (name : String) :
    (StoreM.define scope name value).Tracks T w fun _ _ => True := by
  intro v hv s hs
  rw [StoreM.define, runOn_bind, runOn_ask, Store.define]
  by_cases hname : name ∈ reservedNames
  · rw [if_pos hname]
    exact T.stays hs fun _ hdone => by cases hdone
  · rw [if_neg hname]
    exact bindName hvalue scope name v hv s hs

theorem newScope {parent : ScopeId} (h : T.scope w parent) :
    (newScope parent).Tracks T w T.scope := by
  intro v hv s hs
  have hparent : ∀ p, some parent = some p → T.scope v p := by
    rintro p ⟨⟩
    exact T.scope_mono hv h
  obtain ⟨u, hu, hafter, hnew⟩ := T.newScope hs hparent
  refine ⟨u, hu, hafter, fun scope hscope => ?_⟩
  cases hscope
  exact hnew

/-! ### Data as expressions -/

theorem loadLiteral (l : Literal) :
    (loadLiteral l).Tracks T w fun v a => T.value v (.atom a) := by
  cases l with
  | str s => exact object (.str s) _ fun _ _ hnew => hnew
  | null | bool | number => exact .pure fun v _ => T.plain v _ nofun

theorem loadLiterals : ∀ {w : World} (ls : List Literal),
    (loadLiterals ls).Tracks T w fun v as => ∀ a ∈ as, T.value v (.atom a)
  | _, [] => .pure fun _ _ => List.forall_mem_nil _
  | _, l :: rest => (loadLiteral l).bind fun _ _ _ ha =>
    (loadLiterals rest).bind fun _ _ hv has => .pure fun _ hu => List.forall_mem_cons.mpr
      ⟨T.value_mono (T.trans hv hu) ha, fun b hb => T.value_mono hu (has b hb)⟩

mutual

/-- What was read is made of new objects. -/
theorem load : ∀ {w : World} (d : Datum), (load d).Tracks T w T.value
  | _, .symbol name => .pure fun v _ => T.symbol v name
  | _, .literal l => (loadLiteral l).bind fun _ _ _ ha => .pure_value ha
  | _, .list items => (loadAll items).bind fun _ _ _ hes => .newList hes
  | _, .array elements => (loadLiterals elements).bind fun _ _ _ has =>
    .newArray fun a ha => has a (Elements.mem_ofAtoms.mp ha)

theorem loadAll : ∀ {w : World} (ds : List Datum), (loadAll ds).Tracks T w T.Values
  | _, [] => .pure fun _ _ => trivial
  | _, d :: rest => (load d).bind fun _ _ _ he => (loadAll rest).bind fun _ _ hv hes =>
    .pure_values ⟨T.value_mono hv he, hes⟩

end

theorem read (text : String) : (read text).Tracks T w T.value := by
  rw [StoreM.read]
  cases Datum.read text with
  | ok d => exact .load d
  | error e => exact .fail _

/-! ### Host values as expressions -/

mutual

theorem toExpr : ∀ {w : World} {x : HostValue}, T.hostValue w x →
    x.toExpr.Tracks T w T.value
  | _, .null, _ | _, .bool _, _ | _, .int _, _ | _, .float _, _ | _, .decimal _, _
  | _, .object _, _ => .pure_plain nofun
  | _, .function _, hx => .pure_value (T.hostFunction hx)
  | _, .str s, _ => .newString s
  | _, .list _, hx => (toExprs (T.hostItems hx)).bind fun _ _ _ hes => .newList hes
  | _, .array _, hx => .newArray (T.hostElements hx)

theorem toExprs : ∀ {w : World} {xs : List HostValue}, T.HostValues w xs →
    (HostValue.toExprs xs).Tracks T w T.Values
  | _, [], _ => .pure fun _ _ => trivial
  | _, _ :: _, hxs => (toExpr hxs.1).bind fun _ _ hv he =>
    ((toExprs hxs.2).mono hv).bind fun _ _ hu hes => .pure_values ⟨T.value_mono hu he, hes⟩

end

/-! ### Arguments -/

theorem asItems {e : Expr} (he : T.value w e) :
    (StoreM.ofExcept e.asItems).Tracks T w T.Values := by
  cases e with
  | list => exact .pure_values (T.items he)
  | _ => exact .fail _

theorem asSequence {e : Expr} (he : T.value w e) :
    (StoreM.ofExcept e.asSequence).Tracks T w T.Values := by
  cases e with
  | list => exact .pure_values (T.items he)
  | array ref elements =>
    refine .pure_values (Worlds.values_iff.mpr fun e hmem => ?_)
    obtain ⟨a, ha, rfl⟩ := List.mem_map.mp hmem
    exact T.elements he a ha
  | _ => exact .fail _

theorem asFunction {e : Expr} (he : T.value w e) :
    (StoreM.ofExcept e.asFunction).Tracks T w T.value := by
  rw [Expr.asFunction]
  split
  · exact .pure_value he
  · exact .fail _

end StoreM.Tracks

/-! ### What the embedding program supplies -/

namespace Tracking.Admits

variable {embedding : Embedding}

/-- A host operation only has the contents of host objects to change. -/
theorem runHost (h : T.Admits embedding) (f : HostFunction) {args : List Expr}
    (hargs : T.Values w args) : (embedding.runHost f args).Tracks T w T.value := by
  rw [Embedding.runHost]
  split
  next operation hfound =>
    have hmem := List.mem_of_find?_eq_some hfound
    have hrun : (Embedding.runHostM f.name
        (operation.run f.receiver (HostValue.ofExprs args))).Tracks T w T.hostValue := by
      intro v hv s hs
      rw [Embedding.runOn_runHostM]
      obtain ⟨u, hu, hafter, -⟩ := T.setCells hs _
      refine ⟨u, hu, hafter, fun x hx => ?_⟩
      cases hend : ((operation.run f.receiver (HostValue.ofExprs args)).run.run s.cells).1 with
      | ok y =>
        rw [hend] at hx
        cases hx
        have hvalues := T.values_mono (T.trans hv hu) hargs
        exact h.host operation hmem (T.hostValues_ofExprs hvalues) hend
      | error fault =>
        rw [hend] at hx
        cases hx
    exact hrun.bind fun _ _ _ hx => .toExpr hx
  · exact .fail _

theorem runNative (h : T.Admits embedding) (key : String) {invoke : Invoke}
    (hinvoke : ∀ {w f args}, T.value w f → T.Values w args →
      (invoke f args).Tracks T w T.value)
    {args : List Expr} (hargs : T.Values w args) :
    (embedding.runNative invoke key args).Tracks T w T.value := by
  rw [Embedding.runNative]
  split
  next operation hfound =>
    exact h.native operation (List.mem_of_find?_eq_some hfound) invoke hinvoke hargs
  · exact .fail _

end Tracking.Admits

/-! ## One step -/

/-- Whether evaluation in scopes that are known is followed, and calls are. -/
structure Evaluator.Tracks (T : Tracking World) (ev : Evaluator) : Prop where
  eval : ∀ {w scope e}, T.scope w scope → T.value w e → (ev.eval scope e).Tracks T w T.value
  invoke : ∀ {w f args}, T.value w f → T.Values w args → (ev.invoke f args).Tracks T w T.value

namespace Evaluator.Tracks

open StoreM (Tracks)

variable {ev : Evaluator} {scope : ScopeId}

theorem evalSequence (hev : ev.Tracks T) : ∀ {w : World} {forms : List Expr}, T.scope w scope →
    T.Values w forms → (ev.evalSequence scope forms).Tracks T w T.value
  | _, [], _, _ => .pure_plain nofun
  | _, [_], hs, hforms => hev.eval hs hforms.1
  | _, _ :: _ :: _, hs, hforms => (hev.eval hs hforms.1).bind fun _ _ hv _ =>
    hev.evalSequence (T.scope_mono hv hs) (T.values_mono hv hforms.2)

theorem evalEach (hev : ev.Tracks T) : ∀ {w : World} {forms : List Expr}, T.scope w scope →
    T.Values w forms → (ev.evalEach scope forms).Tracks T w T.Values
  | _, [], _, _ => .pure fun _ _ => trivial
  | _, _ :: _, hs, hforms => (hev.eval hs hforms.1).bind fun _ _ hv he =>
    (hev.evalEach (T.scope_mono hv hs) (T.values_mono hv hforms.2)).bind fun _ _ hu hes =>
      .pure_values ⟨T.value_mono hu he, hes⟩

theorem evalDefine (hev : ev.Tracks T) (hs : T.scope w scope) {args : List Expr}
    (hargs : T.Values w args) : (ev.evalDefine scope args).Tracks T w T.value := by
  unfold Evaluator.evalDefine
  split
  next name form =>
    exact (hev.eval hs hargs.2.1).bind fun _ e _ he =>
      (Tracks.define he scope name).bind fun _ _ hv _ => .pure_value (T.value_mono hv he)
  · exact .fail _
  · exact .fail _

theorem evalBindings (hev : ev.Tracks T) (hs : T.scope w scope) {bindings : List Expr}
    (hbindings : T.Values w bindings) :
    (ev.evalBindings scope bindings).Tracks T w fun _ _ => True := by
  fun_induction Evaluator.evalBindings ev scope bindings generalizing w with
  | case1 => exact .pure_any _
  | case2 ref name form rest ih =>
    obtain ⟨hbinding, hrest⟩ := hbindings
    obtain ⟨-, hform, -⟩ := T.items hbinding
    exact (hev.eval hs hform).bind fun v e hv he =>
      (Tracks.bindName he scope name).bind fun u _ hu _ =>
        have hgrown := T.trans hv hu
        ih (T.scope_mono hgrown hs) (T.values_mono hgrown hrest)
  | case3 => exact .fail _

/-- The scope of a `let*` form is inside the one that the form is in. -/
theorem evalLetStar (hev : ev.Tracks T) (hs : T.scope w scope) {args : List Expr}
    (hargs : T.Values w args) : (ev.evalLetStar scope args).Tracks T w T.value := by
  unfold Evaluator.evalLetStar
  split
  next bindings body =>
    obtain ⟨hbindings, hbody⟩ := hargs
    exact (Tracks.newScope hs).bind fun v inner hv hinner =>
      (hev.evalBindings hinner (T.values_mono hv (T.items hbindings))).bind fun u _ hu _ =>
        hev.evalSequence (T.scope_mono hu hinner) (T.values_mono (T.trans hv hu) hbody)
  · exact .fail _
  · exact .fail _

theorem evalConditional (hev : ev.Tracks T) (hs : T.scope w scope) {args : List Expr}
    (hargs : T.Values w args) : (ev.evalConditional scope args).Tracks T w T.value := by
  unfold Evaluator.evalConditional
  split
  next condition consequent alternatives =>
    obtain ⟨hcondition, hconsequent, halternatives⟩ := hargs
    refine (hev.eval hs hcondition).bind fun v e hv _ => ?_
    have hscope := T.scope_mono hv hs
    split
    · exact hev.eval hscope (T.value_mono hv hconsequent)
    · split
      · exact .newList trivial
      · exact hev.evalSequence hscope (T.values_mono hv halternatives)
  · exact .fail _

/-- A closure is a new object, with the forms of its body in it. -/
theorem evalLambda (hs : T.scope w scope) {args : List Expr} (hargs : T.Values w args) :
    (Evaluator.evalLambda scope args).Tracks T w T.value := by
  unfold Evaluator.evalLambda
  split
  next ref params body =>
    exact (Tracks.ofExcept_any _).bind fun v names hv _ =>
      .object (.closure (T.scope_mono hv hs) (T.values_mono hv hargs.2)) _
        fun _ _ hnew => hnew
  · exact .fail _
  · exact .fail _

theorem evalSpecial (hev : ev.Tracks T) (hs : T.scope w scope) {args : List Expr}
    (hargs : T.Values w args) (form : SpecialForm) :
    (ev.evalSpecial scope args form).Tracks T w T.value := by
  cases form with
  | define => exact hev.evalDefine hs hargs
  | lambda => exact evalLambda hs hargs
  | conditional => exact hev.evalConditional hs hargs
  | quote =>
    show (Evaluator.evalQuote args).Tracks T w T.value
    unfold Evaluator.evalQuote
    split
    · exact .pure_value hargs.1
    · exact .fail _
  | sequence => exact hev.evalSequence hs hargs
  | letStar => exact hev.evalLetStar hs hargs

/-- A call that fails leaves what is known after the callee. -/
theorem atCallSite {m : StoreM Expr} (hm : m.Tracks T w T.value) (head callee : Expr) :
    (Evaluator.atCallSite head callee m).Tracks T w T.value := by
  intro v hv s hs
  obtain ⟨u, hu, hafter, hend⟩ := hm v hv s hs
  rw [Evaluator.atCallSite]
  rcases hrun : m.runOn s with ⟨stop | e, next⟩
  all_goals rw [hrun] at hafter hend
  · rw [StoreM.runOn_tryCatch_of_error hrun]
    refine ⟨u, hu, by cases stop <;> exact hafter, fun e he => ?_⟩
    cases stop <;> cases he
  · rw [StoreM.runOn_tryCatch_of_ok hrun]
    exact ⟨u, hu, hafter, hend⟩

theorem evalCall (hev : ev.Tracks T) (hs : T.scope w scope) {head : Expr} {args : List Expr}
    (hhead : T.value w head) (hargs : T.Values w args) :
    (ev.evalCall scope head args).Tracks T w T.value := by
  refine (hev.eval hs hhead).bind fun v callee hv hcallee => ?_
  split
  · exact (hev.evalEach (T.scope_mono hv hs) (T.values_mono hv hargs)).bind fun u _ hu hvalues =>
      atCallSite (hev.invoke (T.value_mono hu hcallee) hvalues) head callee
  · exact .fail _

/-- **One step of evaluation** is followed. -/
theorem evalStep (hev : ev.Tracks T) (hs : T.scope w scope) {e : Expr} (he : T.value w e) :
    (ev.evalStep scope e).Tracks T w T.value := by
  unfold Evaluator.evalStep
  split
  next name => exact .lookup scope name
  next name args =>
    obtain ⟨hhead, hargs⟩ := T.items he
    split
    · exact hev.evalSpecial hs hargs _
    · exact hev.evalCall hs hhead hargs
  next head args _ =>
    obtain ⟨hhead, hargs⟩ := T.items he
    exact hev.evalCall hs hhead hargs
  · exact .pure_value he

/-! ### Calls -/

theorem mapItems (hev : ev.Tracks T) : ∀ {w : World} {f : Expr} {items : List Expr},
    T.value w f → T.Values w items → (Builtin.mapItems ev.invoke f items).Tracks T w T.Values
  | _, _, [], _, _ => .pure fun _ _ => trivial
  | w, _, e :: _, hf, hitems =>
    have hitem : T.Values w [e] := ⟨hitems.1, trivial⟩
    (hev.invoke hf hitem).bind fun _ _ hv he =>
      (hev.mapItems (T.value_mono hv hf) (T.values_mono hv hitems.2)).bind fun _ _ hu hes =>
        .pure_values ⟨T.value_mono hu he, hes⟩

theorem values_spliced {args : List Expr} (hargs : T.Values w args) :
    T.Values w (Builtin.spliced args) := by
  fun_induction Builtin.spliced args with
  | case1 => exact trivial
  | case2 => exact T.items hargs.1
  | case3 _ _ _ ih => exact ⟨hargs.1, ih hargs.2⟩

theorem elementAt (index : Int64) {elements : List Expr} (helements : T.Values w elements) :
    (StoreM.ofExcept (Builtin.elementAt index elements)).Tracks T w T.value := by
  rw [Builtin.elementAt]
  split
  · exact .fail _
  · split
    next e he => exact .pure_value (Worlds.values_iff.mp helements e (List.mem_of_getElem? he))
    · exact .fail _

/-- A built-in function gives what is in its arguments, or new objects of it. -/
theorem runBuiltin (hev : ev.Tracks T) (b : Builtin) {args : List Expr}
    (hargs : T.Values w args) : (b.run ev.invoke args).Tracks T w T.value := by
  have hcompare : ∀ holds first others,
      (Builtin.compare holds first others).Tracks T w T.value :=
    fun holds first others => (Tracks.ofExcept_any _).bind fun _ _ _ _ =>
      (Tracks.ofExcept_any _).bind fun _ _ _ _ => .pure_value (T.value_bool _)
  -- the cases are the equations of the function, the last one that of refused arguments
  fun_cases Builtin.run ev.invoke b args with
  | case1 | case2 => exact (Tracks.ofExcept_any _).bind fun _ _ _ _ => .ofArithmetic _
  | case3 | case4 =>
    exact (Tracks.ofExcept_any _).bind fun _ _ _ _ =>
      (Tracks.ofExcept_any _).bind fun _ _ _ _ => .ofArithmetic _
  | case5 | case6 | case7 | case8 => exact hcompare _ _ _
  | case9 | case10 => exact .pure_value (T.value_bool _)
  | case11 | case12 =>
    refine (Tracks.asItems hargs.1).bind fun v items hv hitems => ?_
    cases items with
    | nil => exact .fail _
    | cons =>
      first
      | exact .pure_value hitems.1
      | exact .newList hitems.2
  | case13 => exact .newList ⟨hargs.1, T.items hargs.2.1⟩
  | case14 | case16 => exact .newList hargs
  | case15 =>
    exact (Tracks.asSequence hargs.1).bind fun _ _ _ _ => .pure_value (T.value_number _)
  | case17 =>
    obtain ⟨hf, hitems, -⟩ := hargs
    exact (Tracks.asFunction hf).bind fun v f hv hf =>
      (Tracks.asItems (T.value_mono hv hitems)).bind fun u items hu hitems =>
        (hev.mapItems (T.value_mono hu hf) hitems).bind fun _ _ _ hvs => .newList hvs
  | case18 =>
    exact (Tracks.ofExcept_any _).bind fun v index hv _ =>
      (Tracks.asSequence (T.value_mono hv hargs.2.1)).bind fun _ _ _ helements =>
        elementAt index helements
  | case19 =>
    exact (Tracks.asFunction hargs.1).bind fun v f hv hf =>
      hev.invoke hf (values_spliced (T.values_mono hv hargs.2))
  | case20 => exact (Tracks.ofExcept_any _).bind fun _ text _ _ => .read text
  | case21 => exact .fail _

theorem bindAll : ∀ {w : World} (names : List String) {values : List Expr},
    T.Values w values → (Evaluator.bindAll scope names values).Tracks T w fun _ _ => True
  | _, name :: names, _ :: _, hvalues =>
    (Tracks.bindName hvalues.1 scope name).bind fun _ _ hv _ =>
      bindAll names (T.values_mono hv hvalues.2)
  | _, [], _, _ => .pure_any _
  | _, _ :: _, [], _ => .pure_any _

theorem requireLive (ambient : ScopeId) :
    (Evaluator.requireLive ambient).Tracks T w fun _ _ => True := by
  refine Tracks.get.bind fun _ s _ _ => ?_
  split
  · exact .pure_any _
  · exact .fail _

variable {embedding : Embedding}

/-- The functions `eval` and `exec` evaluate in a scope that is known. -/
theorem runNative (hev : ev.Tracks T) (h : T.Admits embedding) {args : List Expr}
    (hargs : T.Values w args) : ∀ {code : NativeCode}, T.Code w code →
      (Evaluator.runNative embedding ev args code).Tracks T w T.value
  | .builtin b, _ => hev.runBuiltin b hargs
  | .eval ambient, hc => by
    have hambient : T.scope w ambient := hc
    rcases args with _ | ⟨e, _ | ⟨_, _⟩⟩
    · exact .fail _
    · exact (requireLive ambient).bind fun v _ hv _ =>
        hev.eval (T.scope_mono hv hambient) (T.value_mono hv hargs.1)
    · exact .fail _
  | .exec ambient, hc => by
    have hambient : T.scope w ambient := hc
    rcases args with _ | ⟨e, _ | ⟨_, _⟩⟩
    · exact .fail _
    · exact (Tracks.ofExcept_any _).bind fun v text hv _ =>
        (requireLive ambient).bind fun u _ hu _ => (Tracks.read text).bind fun t e ht he =>
          hev.eval (T.scope_mono (T.trans hv (T.trans hu ht)) hambient) he
    · exact .fail _
  | .embedded key, _ => h.runNative key hev.invoke hargs

/-- **One step of a call** is followed. -/
theorem invokeStep (hev : ev.Tracks T) (h : T.Admits embedding) {f : Expr} {args : List Expr}
    (hf : T.value w f) (hargs : T.Values w args) :
    (ev.invokeStep embedding f args).Tracks T w T.value := by
  cases f with
  | native ref function =>
    exact (Tracks.ofExcept_any _).bind fun v _ hv _ =>
      hev.runNative h (T.values_mono hv hargs) (T.code_mono hv (T.native hf))
  | closure ref params body captured =>
    -- the scope of the call is inside the captured one, wherever the call is made
    obtain ⟨hcaptured, hbody⟩ := T.closure hf
    exact (Tracks.ofExcept_any _).bind fun v _ hv _ =>
      (Tracks.newScope (T.scope_mono hv hcaptured)).bind fun u inner hu hinner =>
        have hgrown := T.trans hv hu
        (bindAll params (T.values_mono hgrown hargs)).bind fun _ _ ht _ =>
          hev.evalSequence (T.scope_mono ht hinner) (T.values_mono (T.trans hgrown ht) hbody)
  | host ref f => exact h.runHost f hargs
  | symbol | list | array | atom => exact .fail _

end Evaluator.Tracks

/-- **Evaluation is followed**, however deep it nests and however it ends. -/
theorem Tracking.tracks_within {embedding : Embedding} (h : T.Admits embedding) (depth : Nat) :
    Evaluator.Tracks T ⟨evalWithin embedding depth, invokeWithin embedding depth⟩ := by
  induction depth with
  | zero => exact ⟨fun _ _ => .throw _, fun _ _ => .throw _⟩
  | succ depth ih =>
    exact ⟨fun hs he => ih.evalStep hs he, fun hf hargs => ih.invokeStep h hf hargs⟩

end ExactLisp
