import ExactLisp.Proofs.Eval.Renaming

/-!
# Runs that differ in the names of objects

One computation simulates another if, started in stores that are the same but for the names
of objects, the two end alike and leave such stores behind (`StoreM.Simulates`). Along the way
the renaming grows by the objects that both have made.

Evaluation simulates itself (`simulates_within`): it makes its objects and scopes in one order
whatever they are called, and never looks at a reference but to ask whether two are the same.
The second run may nest deeper than the first one is allowed to, so this also says that a
higher bound on the depth changes nothing.

The same is assumed of what the embedding program supplies (`Embedding.Uniform`).
-/

namespace ExactLisp

variable {w w' : Renaming} {α β γ δ : Type}

theorem optionRel_imp {P Q : α → β → Prop} (h : ∀ a b, P a b → Q a b) :
    ∀ {x : Option α} {y : Option β}, Option.Rel P x y → Option.Rel Q x y
  | _, _, .none => .none
  | _, _, .some hab => .some (h _ _ hab)

theorem optionRel_flip {P : α → β → Prop} {Q : β → α → Prop} (h : ∀ a b, P a b → Q b a) :
    ∀ {x : Option α} {y : Option β}, Option.Rel P x y → Option.Rel Q y x
  | _, _, .none => .none
  | _, _, .some hab => .some (h _ _ hab)

/-! ## Stores -/

/-- Whether two stores are the same but for the names of objects. -/
structure Store.Alike (w : Renaming) (s s' : Store) : Prop where
  left : s.nextRef = w.left
  right : s'.nextRef = w.right
  size : s.scopes.size = s'.scopes.size
  cells : s.cells = s'.cells
  live : ∀ i : ScopeId, s.isLive i = s'.isLive i
  parent : ∀ i : ScopeId, s.parent? i = s'.parent? i
  bindings : ∀ (i : ScopeId) (name : String),
    Option.Rel (Expr.Renames w) (s.ownBindings i)[name]? (s'.ownBindings i)[name]?

namespace Store

variable {s s' : Store}

theorem isLive_bind (s : Store) (id i : ScopeId) (name : String) (value : Expr) :
    (s.bind id name value).isLive i = s.isLive i := by
  rw [isLive, isLive, bind, Array.getElem?_modify]
  by_cases h : id = i
  · subst h
    cases s.scopes[id]? <;> simp
  · simp [h]

theorem isLive_newScope (s : Store) (parent : Option ScopeId) (i : ScopeId) :
    (s.newScope parent).2.isLive i = (s.isLive i || decide (i = s.scopes.size)) := by
  rw [isLive, isLive, newScope, Array.getElem?_push]
  by_cases h : i = s.scopes.size
  · subst h
    simp
  · simp only [if_neg h, decide_eq_false h, Bool.or_false]

namespace Alike

/-- A renaming that says more about the objects there are. -/
theorem mono (h : s.Alike w s') (w' : Renaming) (hw : ∀ {a b}, w.rel a b → w'.rel a b)
    {t t' : Store} (ht : t = { s with nextRef := w'.left }) (ht' : t' = { s' with nextRef := w'.right }) :
    t.Alike w' t' := by
  subst ht ht'
  exact ⟨rfl, rfl, h.size, h.cells, h.live, h.parent, fun i name =>
    optionRel_imp (fun _ _ hv => hv.mono hw) (h.bindings i name)⟩

/-- References may be skipped. -/
theorem widen (h : s.Alike w s') {left right : Ref} (hleft : w.left ≤ left)
    (hright : w.right ≤ right) : Alike (w.widen left right hleft hright)
      { s with nextRef := left } { s' with nextRef := right } :=
  h.mono (w.widen left right hleft hright) (fun hab => hab) rfl rfl

theorem symm (h : s.Alike w s') : s'.Alike w.symm s where
  left := h.right
  right := h.left
  size := h.size.symm
  cells := h.cells.symm
  live i := (h.live i).symm
  parent i := (h.parent i).symm
  bindings i name := optionRel_flip (fun _ _ hv => hv.symm) (h.bindings i name)

theorem fresh (h : s.Alike w s') : s.fresh.2.Alike w.fresh s'.fresh.2 :=
  h.mono w.fresh Or.inl (by rw [Store.fresh, h.left]; rfl) (by rw [Store.fresh, h.right]; rfl)

theorem withCells (h : s.Alike w s') (cells : Array Int64) :
    Alike w { s with cells } { s' with cells } :=
  ⟨h.left, h.right, h.size, rfl, h.live, h.parent, h.bindings⟩

theorem bind (h : s.Alike w s') (id : ScopeId) (name : String) {value value' : Expr}
    (hv : value.Renames w value') : (s.bind id name value).Alike w (s'.bind id name value') where
  left := h.left
  right := h.right
  size := by simp [Store.bind, h.size]
  cells := h.cells
  live i := by rw [isLive_bind, isLive_bind, h.live]
  parent i := by rw [parent?_bind, parent?_bind, h.parent]
  bindings i other := by
    by_cases hi : i = id
    · subst hi
      by_cases hsize : i < s.scopes.size
      · rw [ownBindings_bind_self hsize, ownBindings_bind_self (h.size ▸ hsize),
          Std.TreeMap.getElem?_insert, Std.TreeMap.getElem?_insert]
        split
        · exact .some hv
        · exact h.bindings i other
      · have hsize' : ¬ i < s'.scopes.size := h.size ▸ hsize
        simp [ownBindings, Store.bind, hsize, hsize']
    · rw [ownBindings_bind_of_ne s hi, ownBindings_bind_of_ne s' hi]
      exact h.bindings i other

theorem newScope (h : s.Alike w s') (parent : Option ScopeId) :
    (s.newScope parent).2.Alike w (s'.newScope parent).2 where
  left := h.left
  right := h.right
  size := by simp [Store.newScope, h.size]
  cells := h.cells
  live i := by rw [isLive_newScope, isLive_newScope, h.live, h.size]
  parent i := by
    by_cases hi : i < s.scopes.size
    · rw [parent?_newScope hi, parent?_newScope (h.size ▸ hi), h.parent]
    · have hadded : (s.newScope parent).2.scopes[i]? = (s'.newScope parent).2.scopes[i]? := by
        have hi' : ¬ i < s'.scopes.size := h.size ▸ hi
        have hnone := Array.getElem?_eq_none (Nat.le_of_not_lt hi)
        have hnone' := Array.getElem?_eq_none (Nat.le_of_not_lt hi')
        simp only [Store.newScope, Array.getElem?_push, h.size, hnone, hnone']
      rw [parent?, parent?, hadded]
  bindings i name := by
    rw [ownBindings_newScope_all, ownBindings_newScope_all]
    exact h.bindings i name

theorem lookup (h : s.Alike w s') (id : ScopeId) (name : String) :
    Option.Rel (Expr.Renames w) (s.lookup id name) (s'.lookup id name) := by
  rw [Store.lookup, Store.lookup, chain_congr h.parent]
  generalize s'.chain id = chain
  induction chain with
  | nil => exact .none
  | cons scope rest ih =>
    rw [List.findSome?_cons, List.findSome?_cons]
    have hvalue := h.bindings scope name
    generalize (s.ownBindings scope)[name]? = v at hvalue ⊢
    generalize (s'.ownBindings scope)[name]? = v' at hvalue ⊢
    cases hvalue with
    | none => exact ih
    | some hv => exact .some hv

end Alike

end Store

/-! ## Results -/

/-- Whether two results are alike: related values, or one and the same error. -/
def Agree {ε : Type} (P : α → β → Prop) : Except ε α → Except ε β → Prop
  | .ok a, .ok b => P a b
  | .error e, .error e' => e = e'
  | _, _ => False

/--
Whether a run, if it ends, ends like another one: in the same error or in related values, and
in stores that are the same under a renaming of the given kind.
-/
inductive EndsAlike (grown : Renaming → Prop) (P : Renaming → α → β → Prop) :
    Outcome α × Store → Outcome β × Store → Prop
  | exhausted {t : Store} {y : Outcome β × Store} :
    EndsAlike grown P (.error .exhausted, t) y
  | error {w : Renaming} {e : Error} {t t' : Store} : grown w → t.Alike w t' →
    EndsAlike grown P (.error (.error e), t) (.error (.error e), t')
  | ok {w : Renaming} {a : α} {b : β} {t t' : Store} : grown w → P w a b → t.Alike w t' →
    EndsAlike grown P (.ok a, t) (.ok b, t')

theorem EndsAlike.imp {grown grown' : Renaming → Prop} {P : Renaming → α → β → Prop}
    {x : Outcome α × Store} {y : Outcome β × Store} (h : EndsAlike grown P x y)
    (hgrown : ∀ w, grown w → grown' w) : EndsAlike grown' P x y := by
  cases h with
  | exhausted => exact .exhausted
  | error hw ht => exact .error (hgrown _ hw) ht
  | ok hw hP ht => exact .ok (hgrown _ hw) hP ht

/-- Runs that go on after others that end alike. -/
theorem EndsAlike.bind {grown grown' : Renaming → Prop} {P : Renaming → α → β → Prop}
    {Q : Renaming → γ → δ → Prop} {m : StoreM α} {m' : StoreM β} {f : α → StoreM γ}
    {f' : β → StoreM δ} {s s' : Store} (hm : EndsAlike grown P (m.runOn s) (m'.runOn s'))
    (hgrown : ∀ w, grown w → grown' w)
    (hf : ∀ w a b t t', grown w → P w a b → t.Alike w t' →
      EndsAlike grown' Q ((f a).runOn t) ((f' b).runOn t')) :
    EndsAlike grown' Q ((m >>= f).runOn s) ((m' >>= f').runOn s') := by
  rw [StoreM.runOn_bind, StoreM.runOn_bind]
  generalize m.runOn s = x at hm ⊢
  generalize m'.runOn s' = y at hm ⊢
  cases hm with
  | exhausted => exact .exhausted
  | error hw ht => exact .error (hgrown _ hw) ht
  | ok hw hP ht => exact hf _ _ _ _ _ hw hP ht

/-- Whether two computations end alike in stores that are alike, if the first one ends. -/
def StoreM.Simulates (w : Renaming) (m : StoreM α) (m' : StoreM β)
    (P : Renaming → α → β → Prop) : Prop :=
  ∀ s s', s.Alike w s' → EndsAlike (w ≤ ·) P (m.runOn s) (m'.runOn s')

namespace StoreM.Simulates

variable {m : StoreM α} {m' : StoreM β} {P : Renaming → α → β → Prop}

theorem pure {a : α} {b : β} (h : P w a b) :
    (pure a : StoreM α).Simulates w (pure b : StoreM β) P :=
  fun _ _ hs => .ok w.extends_refl h hs

theorem exhausted : (throw .exhausted : StoreM α).Simulates w m' P := fun _ _ _ => .exhausted

theorem fail {e e' : Error} (h : e = e') :
    (fail e : StoreM α).Simulates w (fail e' : StoreM β) P := by
  subst h
  exact fun _ _ hs => .error w.extends_refl hs

/-- What comes next may use the objects that have been made. -/
theorem bind {f : α → StoreM γ} {f' : β → StoreM δ} {Q : Renaming → γ → δ → Prop}
    (hm : m.Simulates w m' P)
    (hf : ∀ w', w ≤ w' → ∀ a b, P w' a b → (f a).Simulates w' (f' b) Q) :
    (m >>= f).Simulates w (m' >>= f') Q :=
  fun s s' hs => (hm s s' hs).bind (fun _ hw => hw) fun w' a b t t' hw hP ht =>
    (hf w' hw a b hP t t' ht).imp fun _ hw' => Renaming.extends_trans hw hw'

theorem ofExcept {x : Except Error α} {x' : Except Error β} (h : Agree (P w) x x') :
    (ofExcept x).Simulates w (ofExcept x') P := by
  cases x <;> cases x'
  · exact .fail h
  · exact h.elim
  · exact h.elim
  · exact .pure h

theorem get : (get : StoreM Store).Simulates w get fun w s s' => s.Alike w s' :=
  fun _ _ hs => .ok w.extends_refl hs hs

/-- A question to the store, put to two stores that are alike. -/
theorem ask {f : Store → Except Error α} {f' : Store → Except Error β}
    (h : ∀ w' s s', w ≤ w' → s.Alike w' s' → Agree (P w') (f s) (f' s')) :
    (ask f).Simulates w (ask f') P :=
  get.bind fun w' hw s s' hs => .ofExcept (h w' s s' hw hs)

theorem fresh : fresh.Simulates w fresh fun w a b => w.rel a b := by
  intro s s' hs
  have hrel : w.fresh.rel s.nextRef s'.nextRef := by
    rw [hs.left, hs.right]
    exact w.rel_fresh
  exact .ok w.extends_fresh hrel hs.fresh

theorem newList {items items' : List Expr} (h : Expr.RenamesAll w items items') :
    (newList items).Simulates w (newList items') Expr.Renames :=
  fresh.bind fun _ hw _ _ href => .pure (.list href (h.mono hw.rel))

theorem newString (s : String) : (newString s).Simulates w (newString s) Expr.Renames :=
  fresh.bind fun _ _ _ _ href => .pure (.atom (.str s href))

theorem newArray {elements elements' : Elements} (h : elements.Renames w elements') :
    (newArray elements).Simulates w (newArray elements') Expr.Renames :=
  fresh.bind fun _ hw _ _ href => .pure (.array href (h.mono hw.rel))

theorem bindName (scope : ScopeId) (name : String) {value value' : Expr}
    (h : value.Renames w value') :
    (StoreM.bind scope name value).Simulates w (StoreM.bind scope name value') fun _ _ _ => True :=
  fun _ _ hs => .ok w.extends_refl trivial (hs.bind scope name h)

theorem newScope (parent : ScopeId) :
    (newScope parent).Simulates w (newScope parent) fun _ => (· = ·) :=
  fun _ _ hs => .ok w.extends_refl hs.size (hs.newScope _)

theorem define (scope : ScopeId) (name : String) {value value' : Expr}
    (h : value.Renames w value') :
    (define scope name value).Simulates w (define scope name value') fun _ _ _ => True := by
  intro s s' hs
  rw [StoreM.define, StoreM.define, runOn_bind, runOn_ask, runOn_bind, runOn_ask,
    Store.define, Store.define]
  by_cases hname : name ∈ reservedNames
  · rw [if_pos hname, if_pos hname]
    exact .error w.extends_refl hs
  · rw [if_neg hname, if_neg hname]
    exact .ok w.extends_refl trivial (hs.bind scope name h)

theorem lookup (scope : ScopeId) (name : String) :
    (StoreM.ask fun s => s.get scope name).Simulates w (StoreM.ask fun s => s.get scope name)
      Expr.Renames := by
  refine .ask fun w' s s' _ hs => ?_
  have hvalue := hs.lookup scope name
  rw [Store.get, Store.get]
  generalize s.lookup scope name = v at hvalue ⊢
  generalize s'.lookup scope name = v' at hvalue ⊢
  cases hvalue with
  | none => exact rfl
  | some hv => exact hv

theorem expect (arity : Arity) {args args' : List Expr} (h : Expr.RenamesAll w args args') :
    (expect arity args).Simulates w (expect arity args') fun _ _ _ => True := by
  rw [StoreM.expect, StoreM.expect, h.length_eq]
  cases Error.checkArity arity args'.length with
  | ok => exact .pure trivial
  | error e => exact .fail rfl

/-! ### Data as expressions -/

theorem loadLiteral (l : Literal) :
    (StoreM.loadLiteral l).Simulates w (StoreM.loadLiteral l) Atom.Renames := by
  cases l with
  | null => exact .pure .null
  | bool b => exact .pure (.bool b)
  | number n => exact .pure (.number n)
  | str s => exact fresh.bind fun _ _ _ _ href => .pure (.str s href)

theorem loadLiterals : ∀ {w : Renaming} (ls : List Literal),
    (StoreM.loadLiterals ls).Simulates w (StoreM.loadLiterals ls)
      fun w => List.Forall₂ (Atom.Renames w)
  | _, [] => .pure .nil
  | _, l :: rest => (loadLiteral l).bind fun _ _ _ _ ha => (loadLiterals rest).bind
    fun _ hw _ _ has => .pure (.cons (ha.mono hw.rel) has)

mutual

theorem load : ∀ {w : Renaming} (d : Datum),
    (StoreM.load d).Simulates w (StoreM.load d) Expr.Renames
  | _, .symbol name => .pure (.symbol name)
  | _, .literal l => (loadLiteral l).bind fun _ _ _ _ ha => .pure (.atom ha)
  | _, .list items => (loadAll items).bind fun _ _ _ _ hes => .newList hes
  | _, .array elements =>
    (loadLiterals elements).bind fun _ _ _ _ has => .newArray (.of_atoms has)

theorem loadAll : ∀ {w : Renaming} (ds : List Datum),
    (StoreM.loadAll ds).Simulates w (StoreM.loadAll ds) Expr.RenamesAll
  | _, [] => .pure .nil
  | _, d :: rest => (load d).bind fun _ _ _ _ he => (loadAll rest).bind
    fun _ hw _ _ hes => .pure (.cons (he.mono hw.rel) hes)

end

theorem read (text : String) : (StoreM.read text).Simulates w (StoreM.read text) Expr.Renames := by
  rw [StoreM.read]
  cases Datum.read text with
  | ok d => exact load d
  | error e => exact .fail rfl

mutual

theorem toExpr : ∀ {w : Renaming} {v v' : HostValue}, v.Renames w v' →
    v.toExpr.Simulates w v'.toExpr Expr.Renames
  | _, _, _, .null => .pure (.atom .null)
  | _, _, _, .bool b => .pure (.atom (.bool b))
  | _, _, _, .int n => .pure (.atom (.number _))
  | _, _, _, .float x => .pure (.atom (.number _))
  | _, _, _, .decimal d => .pure (.atom (.number _))
  | _, _, _, .str s => .newString s
  | _, _, _, .list hs => (toExprs hs).bind fun _ _ _ _ hes => .newList hes
  | _, _, _, .array hs => .newArray hs
  | _, _, _, .object o => .pure (.atom (.object o))
  | _, _, _, .function hf => .pure hf

theorem toExprs : ∀ {w : Renaming} {vs vs' : List HostValue}, HostValue.RenamesAll w vs vs' →
    (HostValue.toExprs vs).Simulates w (HostValue.toExprs vs') Expr.RenamesAll
  | _, _, _, .nil => .pure .nil
  | _, _, _, .cons h hs => (toExpr h).bind fun _ hw _ _ he => (toExprs (hs.mono hw.rel)).bind
    fun _ hw' _ _ hes => .pure (.cons (he.mono hw'.rel) hes)

end

end StoreM.Simulates

/-! ## What the embedding program supplies -/

/-- Whether calls end alike in two evaluators. -/
def Invoke.Simulates (invoke invoke' : Invoke) : Prop :=
  ∀ w f f' args args', Expr.Renames w f f' → Expr.RenamesAll w args args' →
    (invoke f args).Simulates w (invoke' f' args') Expr.Renames

/--
Whether the functions of the embedding program do not depend on how objects are named: a
native operation does not if the functions do not that it calls, and a host operation gives
the same result in the host program's own cells.
-/
structure Embedding.Uniform (embedding : Embedding) : Prop where
  native : ∀ operation ∈ embedding.natives, ∀ invoke invoke', Invoke.Simulates invoke invoke' →
    ∀ w args args', Expr.RenamesAll w args args' →
      (operation.run invoke args).Simulates w (operation.run invoke' args') Expr.Renames
  host : ∀ operation ∈ embedding.hosts, ∀ w receiver args args',
    HostValue.RenamesAll w args args' → ∀ cells,
      Agree (HostValue.Renames w) ((operation.run receiver args).run.run cells).1
          ((operation.run receiver args').run.run cells).1 ∧
        ((operation.run receiver args).run.run cells).2 =
          ((operation.run receiver args').run.run cells).2

namespace Embedding.Uniform

variable {embedding : Embedding}

theorem runNative (h : embedding.Uniform) {invoke invoke' : Invoke}
    (hinvoke : Invoke.Simulates invoke invoke') (key : String) {args args' : List Expr}
    (hargs : Expr.RenamesAll w args args') :
    (embedding.runNative invoke key args).Simulates w (embedding.runNative invoke' key args')
      Expr.Renames := by
  rw [Embedding.runNative, Embedding.runNative]
  split
  next operation hfound =>
    exact h.native operation (List.mem_of_find?_eq_some hfound) invoke invoke' hinvoke w args args'
      hargs
  · exact .fail rfl

theorem runHost (h : embedding.Uniform) (f : HostFunction) {args args' : List Expr}
    (hargs : Expr.RenamesAll w args args') :
    (embedding.runHost f args).Simulates w (embedding.runHost f args') Expr.Renames := by
  rw [Embedding.runHost, Embedding.runHost]
  split
  next operation hfound =>
    have hrun : (runHostM f.name (operation.run f.receiver (HostValue.ofExprs args))).Simulates w
        (runHostM f.name (operation.run f.receiver (HostValue.ofExprs args')))
          HostValue.Renames := by
      intro s s' hs
      obtain ⟨hagree, hcells⟩ := h.host operation (List.mem_of_find?_eq_some hfound) w f.receiver
        _ _ (HostValue.renamesAll_ofExprs hargs) s'.cells
      rw [runOn_runHostM, runOn_runHostM, hs.cells, hcells]
      generalize ((operation.run f.receiver _).run.run s'.cells).1 = outcome at hagree ⊢
      generalize ((operation.run f.receiver _).run.run s'.cells).1 = outcome' at hagree ⊢
      cases outcome with
      | ok v =>
        cases outcome' with
        | ok v' => exact .ok w.extends_refl hagree (hs.withCells _)
        | error => cases hagree
      | error fault =>
        cases outcome' with
        | ok => cases hagree
        | error =>
          obtain rfl := hagree
          exact .error w.extends_refl (hs.withCells _)
    exact hrun.bind fun _ _ _ _ hv => .toExpr hv
  · exact .fail rfl

end Embedding.Uniform

/-! ## Arguments -/

namespace Expr.Renames

variable {e e' : Expr}

theorem mismatch (h : e.Renames w e') (expected : String) {P : α → β → Prop} :
    Agree P (e.mismatch expected : Except Error α) (e'.mismatch expected : Except Error β) := by
  rw [Expr.mismatch, Expr.mismatch, h.typeName_eq]
  exact rfl

theorem asItems (h : e.Renames w e') : Agree (RenamesAll w) e.asItems e'.asItems := by
  cases h with
  | list _ hs => exact hs
  | atom h => exact (Renames.atom h).mismatch "list"
  | _ => exact rfl

theorem asSequence (h : e.Renames w e') : Agree (RenamesAll w) e.asSequence e'.asSequence := by
  cases h with
  | list _ hs => exact hs
  | array _ hs => exact .of_elements hs.atoms
  | atom h => exact (Renames.atom h).mismatch "list or array"
  | _ => exact rfl

theorem asFunction (h : e.Renames w e') : Agree (Renames w) e.asFunction e'.asFunction := by
  rw [Expr.asFunction, Expr.asFunction, h.isFunction_eq]
  split
  · exact h
  · exact h.mismatch "function"

theorem asInt64_eq (h : e.Renames w e') : e.asInt64 = e'.asInt64 := by
  cases h with
  | atom h => cases h <;> rfl
  | _ => rfl

theorem asNumber_eq (h : e.Renames w e') : e.asNumber = e'.asNumber := by
  cases h with
  | atom h => cases h <;> rfl
  | _ => rfl

theorem asString_eq (h : e.Renames w e') : e.asString = e'.asString := by
  cases h with
  | atom h => cases h <;> rfl
  | _ => rfl

end Expr.Renames

theorem Expr.RenamesAll.asNumbers_eq {es es' : List Expr} (h : Expr.RenamesAll w es es') :
    Expr.asNumbers es = Expr.asNumbers es' := by
  induction es generalizing es' with
  | nil =>
    cases h
    rfl
  | cons e rest ih =>
    cases h with
    | cons he hrest =>
      have htail := ih hrest
      unfold Expr.asNumbers at htail ⊢
      rw [Expr.convertAll, Expr.convertAll, he.asNumber_eq, htail]

namespace StoreM.Simulates

/-- A computation that goes on with a result that is there already. -/
theorem bind_ofExcept {x x' : Except Error α} (h : x = x') {f : α → StoreM β} {f' : α → StoreM γ}
    {P : Renaming → β → γ → Prop} (hf : ∀ a, (f a).Simulates w (f' a) P) :
    (StoreM.ofExcept x >>= f).Simulates w (StoreM.ofExcept x' >>= f') P := by
  subst h
  cases x with
  | ok a => exact hf a
  | error e => exact .fail rfl

theorem ofArithmetic (x : Except ArithmeticFault Number) :
    (StoreM.ofArithmetic x).Simulates w (StoreM.ofArithmetic x) Expr.Renames := by
  cases x with
  | ok n => exact .pure (.atom (.number n))
  | error fault => exact .fail rfl

end StoreM.Simulates

/-! ## One step -/

/-- Whether evaluation, and calls, end alike in two evaluators. -/
structure Evaluator.Simulates (ev ev' : Evaluator) : Prop where
  eval : ∀ w scope e e', Expr.Renames w e e' →
    (ev.eval scope e).Simulates w (ev'.eval scope e') Expr.Renames
  invoke : Invoke.Simulates ev.invoke ev'.invoke

namespace Evaluator.Simulates

open ExactLisp.StoreM (Simulates)
open ExactLisp.Expr (Renames RenamesAll)

variable {ev ev' : Evaluator} {embedding : Embedding}

theorem renames_null : Renames w .null .null := .atom .null

theorem renames_bool (b : Bool) : Renames w (.bool b) (.bool b) := .atom (.bool b)

theorem evalSequence (hev : ev.Simulates ev') (scope : ScopeId) :
    ∀ {w : Renaming} {forms forms' : List Expr}, RenamesAll w forms forms' →
      (ev.evalSequence scope forms).Simulates w (ev'.evalSequence scope forms') Renames
  | _, [], _, .nil => .pure renames_null
  | w, [_], _, .cons he .nil => hev.eval w scope _ _ he
  | w, _ :: _ :: _, _, .cons he (.cons hf hrest) =>
    (hev.eval w scope _ _ he).bind fun _ hw _ _ _ =>
      hev.evalSequence scope (.cons (hf.mono hw.rel) (hrest.mono hw.rel))

theorem evalEach (hev : ev.Simulates ev') (scope : ScopeId) :
    ∀ {w : Renaming} {forms forms' : List Expr}, RenamesAll w forms forms' →
      (ev.evalEach scope forms).Simulates w (ev'.evalEach scope forms') RenamesAll
  | _, [], _, .nil => .pure .nil
  | w, _ :: _, _, .cons he hrest => (hev.eval w scope _ _ he).bind fun _ hw _ _ hv =>
    (hev.evalEach scope (hrest.mono hw.rel)).bind fun _ hw' _ _ hvs =>
      .pure (.cons (hv.mono hw'.rel) hvs)

/-- A wrong number of operands is the same wrong number. -/
theorem failArity (arity : Arity) {args args' : List Expr} (h : RenamesAll w args args')
    {P : Renaming → α → β → Prop} :
    (StoreM.fail (.arity arity args.length) : StoreM α).Simulates w
      (StoreM.fail (.arity arity args'.length) : StoreM β) P :=
  .fail (by rw [h.length_eq])

theorem evalDefine_of_length_ne {scope : ScopeId} {args : List Expr} (h : args.length ≠ 2) :
    ev.evalDefine scope args = StoreM.fail (.arity (.exactly 2) args.length) := by
  unfold Evaluator.evalDefine
  split
  · exact absurd rfl h
  · exact absurd rfl h
  · rfl

theorem evalDefine (hev : ev.Simulates ev') (scope : ScopeId) {args args' : List Expr}
    (h : RenamesAll w args args') :
    (ev.evalDefine scope args).Simulates w (ev'.evalDefine scope args') Renames := by
  by_cases hlength : args.length = 2
  · match h with
    | .cons htarget (.cons hform .nil) =>
      have htext := htarget.text_eq
      cases htarget with
      | symbol name =>
        exact (hev.eval w scope _ _ hform).bind fun _ _ v v' hv =>
          (Simulates.define scope name hv).bind fun _ hw _ _ _ => .pure (hv.mono hw.rel)
      | list | array | atom | native | closure | host =>
        exact .fail (congrArg (fun shown => Error.type (.definitionTarget shown)) htext)
  · rw [evalDefine_of_length_ne hlength, evalDefine_of_length_ne (h.length_eq ▸ hlength)]
    exact failArity _ h

/-- A binding of a `let*` form, or none, on both sides. -/
theorem binding_cases {e e' : Expr} (h : Renames w e e') :
    (∃ a b name form form', e = .list a [.symbol name, form] ∧ e' = .list b [.symbol name, form'] ∧
      Renames w form form') ∨
    ((∀ ref name form, e ≠ .list ref [.symbol name, form]) ∧
      ∀ ref name form, e' ≠ .list ref [.symbol name, form]) := by
  cases h with
  | list _ hs =>
    match hs with
    | .cons hname (.cons hform .nil) =>
      cases hname with
      | symbol name => exact Or.inl ⟨_, _, name, _, _, rfl, rfl, hform⟩
      | list | array | atom | native | closure | host => exact Or.inr ⟨nofun, nofun⟩
    | .nil | .cons _ .nil | .cons _ (.cons _ (.cons ..)) => exact Or.inr ⟨nofun, nofun⟩
  | symbol | array | atom | native | closure | host => exact Or.inr ⟨nofun, nofun⟩

theorem evalBindings (hev : ev.Simulates ev') (scope : ScopeId) :
    ∀ {w : Renaming} {bindings bindings' : List Expr}, RenamesAll w bindings bindings' →
      (ev.evalBindings scope bindings).Simulates w (ev'.evalBindings scope bindings')
        fun _ _ _ => True
  | _, [], _, .nil => .pure trivial
  | w, e :: rest, _, .cons he hrest => by
    have htext := he.text_eq
    rcases binding_cases he with ⟨a, b, name, form, form', rfl, rfl, hform⟩ | ⟨hne, hne'⟩
    · exact (hev.eval w scope form form' hform).bind fun _ hw v v' hv =>
        (Simulates.bindName scope name hv).bind fun _ hw' _ _ _ =>
          hev.evalBindings scope ((hrest.mono hw.rel).mono hw'.rel)
    · rw [Evaluator.evalBindings, Evaluator.evalBindings]
      · exact .fail (congrArg (fun shown => Error.type (.binding shown)) htext)
      · exact hne'
      · exact hne

theorem evalLetStar (hev : ev.Simulates ev') (scope : ScopeId) {args args' : List Expr}
    (h : RenamesAll w args args') :
    (ev.evalLetStar scope args).Simulates w (ev'.evalLetStar scope args') Renames := by
  cases h with
  | nil => exact .fail rfl
  | cons hhead hbody =>
    have htext := hhead.text_eq
    cases hhead with
    | list _ hbindings =>
      refine (Simulates.newScope scope).bind fun _ hw inner _ hinner => ?_
      subst hinner
      exact (hev.evalBindings inner (hbindings.mono hw.rel)).bind fun _ hw' _ _ _ =>
        hev.evalSequence inner ((hbody.mono hw.rel).mono hw'.rel)
    | symbol | array | atom | native | closure | host =>
      exact .fail (congrArg (fun shown => Error.type (.bindingList shown)) htext)

theorem evalConditional (hev : ev.Simulates ev') (scope : ScopeId) {args args' : List Expr}
    (h : RenamesAll w args args') :
    (ev.evalConditional scope args).Simulates w (ev'.evalConditional scope args') Renames := by
  match h with
  | .nil => exact .fail rfl
  | .cons he .nil => exact .fail rfl
  | .cons hcondition (.cons hconsequent halternatives) =>
    refine (hev.eval w scope _ _ hcondition).bind fun w' hw v v' hv => ?_
    rw [hv.isTruthy_eq]
    split
    · exact hev.eval w' scope _ _ (hconsequent.mono hw.rel)
    · cases halternatives with
      | nil => exact .newList .nil
      | cons ha has => exact hev.evalSequence scope (.cons (ha.mono hw.rel) (has.mono hw.rel))

theorem parameterNames_eq : ∀ {seen : List String} {forms forms' : List Expr},
    RenamesAll w forms forms' →
      Evaluator.parameterNames seen forms = Evaluator.parameterNames seen forms'
  | _, _, _, .nil => rfl
  | seen, _, _, .cons he hrest => by
    have htext := he.text_eq
    cases he with
    | symbol name =>
      rw [Evaluator.parameterNames, Evaluator.parameterNames, parameterNames_eq hrest]
    | list | array | atom | native | closure | host =>
      exact congrArg (fun shown => Except.error (Error.type (.parameterName shown))) htext

theorem evalLambda (scope : ScopeId) {args args' : List Expr} (h : RenamesAll w args args') :
    (Evaluator.evalLambda scope args).Simulates w (Evaluator.evalLambda scope args') Renames := by
  cases h with
  | nil => exact .fail rfl
  | cons hhead hbody =>
    have htext := hhead.text_eq
    cases hhead with
    | list _ hparams =>
      exact .bind_ofExcept (parameterNames_eq hparams) fun names =>
        Simulates.fresh.bind fun _ hw _ _ href =>
          .pure (.closure names scope href (hbody.mono hw.rel))
    | symbol | array | atom | native | closure | host =>
      exact .fail (congrArg (fun shown => Error.type (.parameterList shown)) htext)

theorem evalQuote {args args' : List Expr} (h : RenamesAll w args args') :
    (Evaluator.evalQuote args).Simulates w (Evaluator.evalQuote args') Renames := by
  match h with
  | .cons he .nil => exact .pure he
  | .nil => exact .fail rfl
  | .cons he (.cons hf hrest) => exact failArity _ (.cons he (.cons hf hrest))

theorem evalSpecial (hev : ev.Simulates ev') (scope : ScopeId) {args args' : List Expr}
    (h : RenamesAll w args args') (form : SpecialForm) :
    (ev.evalSpecial scope args form).Simulates w (ev'.evalSpecial scope args' form) Renames := by
  cases form with
  | define => exact hev.evalDefine scope h
  | lambda => exact evalLambda scope h
  | conditional => exact hev.evalConditional scope h
  | quote => exact evalQuote h
  | sequence => exact hev.evalSequence scope h
  | letStar => exact hev.evalLetStar scope h

/-! ### Calls -/

theorem locate_eq {head head' callee callee' : Expr} (hhead : Renames w head head')
    {w' : Renaming} (hcallee : Renames w' callee callee') (e : Error) :
    Evaluator.locate head callee e = Evaluator.locate head' callee' e := by
  rw [Evaluator.locate, Evaluator.locate, hhead.text_eq, hcallee.text_eq]

theorem atCallSite {head head' callee callee' : Expr} (hhead : Renames w head head')
    (hcallee : Renames w callee callee') {m m' : StoreM Expr} (hm : m.Simulates w m' Renames) :
    (Evaluator.atCallSite head callee m).Simulates w (Evaluator.atCallSite head' callee' m')
      Renames := by
  intro s s' hs
  have hend := hm s s' hs
  rw [Evaluator.atCallSite, Evaluator.atCallSite]
  -- only where both runs fail is there an error to be located, and it is one and the same
  rcases hrun : m.runOn s with ⟨stop | v, next⟩ <;>
    rcases hrun' : m'.runOn s' with ⟨stop' | v', next'⟩ <;>
    rw [hrun, hrun'] at hend
  · rw [StoreM.runOn_tryCatch_of_error hrun, StoreM.runOn_tryCatch_of_error hrun']
    cases hend with
    | exhausted => exact .exhausted
    | @error _ e _ _ hw ht =>
      change EndsAlike _ _ ((StoreM.fail (Evaluator.locate head callee e)).runOn next)
        ((StoreM.fail (Evaluator.locate head' callee' e)).runOn next')
      rw [locate_eq hhead hcallee]
      exact .error hw ht
  · cases hend
    rw [StoreM.runOn_tryCatch_of_error hrun]
    exact .exhausted
  · cases hend
  · rw [StoreM.runOn_tryCatch_of_ok hrun, StoreM.runOn_tryCatch_of_ok hrun']
    exact hend

theorem evalCall (hev : ev.Simulates ev') (scope : ScopeId) {head head' : Expr}
    {args args' : List Expr} (hhead : Renames w head head') (hargs : RenamesAll w args args') :
    (ev.evalCall scope head args).Simulates w (ev'.evalCall scope head' args') Renames := by
  refine (hev.eval w scope _ _ hhead).bind fun w₁ hw callee callee' hcallee => ?_
  rw [hcallee.isFunction_eq]
  split
  · refine (hev.evalEach scope (hargs.mono hw.rel)).bind fun w₂ hw' values values' hvalues => ?_
    have hcallee' := hcallee.mono hw'.rel
    exact atCallSite ((hhead.mono hw.rel).mono hw'.rel) hcallee'
      (hev.invoke w₂ _ _ _ _ hcallee' hvalues)
  · rw [locate_eq hhead hcallee, hcallee.text_eq]
    exact .fail rfl

/-- **One step of evaluation** ends alike. -/
theorem evalStep (hev : ev.Simulates ev') (scope : ScopeId) {e e' : Expr} (h : Renames w e e') :
    (ev.evalStep scope e).Simulates w (ev'.evalStep scope e') Renames := by
  match h with
  | .symbol name => exact .lookup scope name
  | .list href .nil => exact .pure (.list href .nil)
  | .list _ (.cons hhead hargs) =>
    have hcall := hev.evalCall scope hhead hargs
    cases hhead with
    | symbol name =>
      rw [Evaluator.evalStep, Evaluator.evalStep]
      split
      · exact hev.evalSpecial scope hargs _
      · exact hcall
    | list | array | atom | native | closure | host => exact hcall
  | .array href hs => exact .pure (.array href hs)
  | .atom ha => exact .pure (.atom ha)
  | .native f href => exact .pure (.native f href)
  | .closure params captured href hs => exact .pure (.closure params captured href hs)
  | .host f href => exact .pure (.host f href)

/-! ### Native functions -/

theorem mapItems {invoke invoke' : Invoke} (hinvoke : Invoke.Simulates invoke invoke') :
    ∀ {w : Renaming} {f f' : Expr} {items items' : List Expr}, Renames w f f' →
      RenamesAll w items items' →
        (Builtin.mapItems invoke f items).Simulates w (Builtin.mapItems invoke' f' items')
          RenamesAll
  | _, _, _, [], _, _, .nil => .pure .nil
  | w, _, _, _ :: _, _, hf, .cons he hrest =>
    (hinvoke w _ _ _ _ hf (.cons he .nil)).bind fun _ hw _ _ hv =>
      (mapItems hinvoke (hf.mono hw.rel) (hrest.mono hw.rel)).bind fun _ hw' _ _ hvs =>
        .pure (.cons (hv.mono hw'.rel) hvs)

theorem spliced_cons_cons (e f : Expr) (rest : List Expr) :
    Builtin.spliced (e :: f :: rest) = e :: Builtin.spliced (f :: rest) := by
  cases e <;> rfl

theorem renamesAll_spliced_one {e e' : Expr} (h : Renames w e e') :
    RenamesAll w (Builtin.spliced [e]) (Builtin.spliced [e']) := by
  cases h with
  | list _ hs => exact hs
  | symbol name => exact .cons (.symbol name) .nil
  | array href hs => exact .cons (.array href hs) .nil
  | atom ha => exact .cons (.atom ha) .nil
  | native f href => exact .cons (.native f href) .nil
  | closure params scope href hs => exact .cons (.closure params scope href hs) .nil
  | host f href => exact .cons (.host f href) .nil

theorem renamesAll_spliced : ∀ {args args' : List Expr}, RenamesAll w args args' →
    RenamesAll w (Builtin.spliced args) (Builtin.spliced args')
  | [], _, .nil => .nil
  | [_], _, .cons he .nil => renamesAll_spliced_one he
  | _ :: _ :: _, _, .cons he (.cons hf hrest) => by
    rw [spliced_cons_cons, spliced_cons_cons]
    exact .cons he (renamesAll_spliced (.cons hf hrest))

theorem elementAt (index : Int64) {elements elements' : List Expr}
    (h : RenamesAll w elements elements') :
    Agree (Renames w) (Builtin.elementAt index elements) (Builtin.elementAt index elements') := by
  rw [Builtin.elementAt, Builtin.elementAt, h.length_eq]
  split
  · exact rfl
  · have helement := h.getElem? index.toInt.toNat
    generalize elements[index.toInt.toNat]? = e at helement ⊢
    generalize elements'[index.toInt.toNat]? = e' at helement ⊢
    cases helement with
    | none => exact rfl
    | some he => exact he

theorem compare (holds : Float → Float → Bool) {first first' : Expr} {others others' : List Expr}
    (hfirst : Renames w first first') (hothers : RenamesAll w others others') :
    (Builtin.compare holds first others).Simulates w (Builtin.compare holds first' others')
      Renames :=
  .bind_ofExcept hfirst.asNumber_eq fun _ => .bind_ofExcept hothers.asNumbers_eq fun _ =>
    .pure (renames_bool _)

/-- Arguments of a wrong number are refused. -/
theorem run_eq_refuse {invoke : Invoke} {b : Builtin} {args : List Expr}
    (h : b.arity.accepts args.length = false) : b.run invoke args = b.refuse args := by
  fun_cases Builtin.run invoke b args with
  | case21 => rfl
  | _ => simp [Builtin.arity, Arity.accepts] at h

/-- The equality of two pairs of values, as the function `eq` tests it. -/
theorem equal_eq {a a' b b' : Expr} (ha : Renames w a a') (hb : Renames w b b') :
    (a.identical b || a == b) = (a'.identical b' || a' == b') :=
  congrArg₂ (· || ·) (ha.identical_eq hb) (ha.beq_eq hb)

/-- A value at the head of a list, or in front of another value. -/
theorem runCons {invoke invoke' : Invoke} {a a' b b' : Expr} (ha : Renames w a a')
    (hb : Renames w b b') :
    (Builtin.run invoke .cons [a, b]).Simulates w (Builtin.run invoke' .cons [a', b'])
      Renames := by
  cases hb with
  | list _ hs => exact .newList (.cons ha hs)
  | symbol name => exact .newList (.cons ha (.cons (.symbol name) .nil))
  | array href hs => exact .newList (.cons ha (.cons (.array href hs) .nil))
  | atom h => exact .newList (.cons ha (.cons (.atom h) .nil))
  | native f href => exact .newList (.cons ha (.cons (.native f href) .nil))
  | closure params scope href hs =>
    exact .newList (.cons ha (.cons (.closure params scope href hs) .nil))
  | host f href => exact .newList (.cons ha (.cons (.host f href) .nil))

theorem exists_pos {args args' : List Expr} (h : RenamesAll w args args')
    (hlength : Arity.accepts (.atLeast 1) args.length = true) :
    ∃ e e' rest rest', args = e :: rest ∧ args' = e' :: rest' ∧ Renames w e e' ∧
      RenamesAll w rest rest' := by
  cases h with
  | nil => cases hlength
  | cons he hrest => exact ⟨_, _, _, _, rfl, rfl, he, hrest⟩

theorem exists_one {args args' : List Expr} (h : RenamesAll w args args')
    (hlength : Arity.accepts (.exactly 1) args.length = true) :
    ∃ e e', args = [e] ∧ args' = [e'] ∧ Renames w e e' := by
  match h with
  | .nil => cases hlength
  | .cons he .nil => exact ⟨_, _, rfl, rfl, he⟩
  | .cons _ (.cons ..) => simp [Arity.accepts] at hlength

theorem exists_two {args args' : List Expr} (h : RenamesAll w args args')
    (hlength : Arity.accepts (.exactly 2) args.length = true) :
    ∃ e e' f f', args = [e, f] ∧ args' = [e', f'] ∧ Renames w e e' ∧ Renames w f f' := by
  match h with
  | .nil | .cons _ .nil => cases hlength
  | .cons he (.cons hf .nil) => exact ⟨_, _, _, _, rfl, rfl, he, hf⟩
  | .cons _ (.cons _ (.cons ..)) => simp [Arity.accepts] at hlength

/-- A built-in function looks at references only to compare them. -/
theorem runBuiltin {invoke invoke' : Invoke} (hinvoke : Invoke.Simulates invoke invoke')
    (b : Builtin) {args args' : List Expr} (h : RenamesAll w args args') :
    (b.run invoke args).Simulates w (b.run invoke' args') Renames := by
  cases haccepts : b.arity.accepts args.length with
  | false =>
    rw [run_eq_refuse haccepts, run_eq_refuse (h.length_eq ▸ haccepts)]
    exact failArity _ h
  | true =>
  -- each function has one equation for operands of the right number
  cases b with
  | add | multiply => exact .bind_ofExcept h.asNumbers_eq fun _ => .ofArithmetic _
  | list => exact .newList h
  | subtract | divide =>
    obtain ⟨e, e', others, others', rfl, rfl, he, hothers⟩ := exists_pos h haccepts
    exact .bind_ofExcept he.asNumber_eq fun _ => .bind_ofExcept hothers.asNumbers_eq fun _ =>
      .ofArithmetic _
  | less | greater | atMost | atLeast =>
    obtain ⟨e, e', others, others', rfl, rfl, he, hothers⟩ := exists_pos h haccepts
    rw [Builtin.run, Builtin.run]
    exact compare _ he hothers
  | same =>
    obtain ⟨a, a', b, b', rfl, rfl, ha, hb⟩ := exists_two h haccepts
    rw [Builtin.run, Builtin.run, ha.identical_eq hb]
    exact .pure (renames_bool _)
  | equal =>
    obtain ⟨a, a', b, b', rfl, rfl, ha, hb⟩ := exists_two h haccepts
    rw [Builtin.run, Builtin.run, equal_eq ha hb]
    exact .pure (renames_bool _)
  | first =>
    obtain ⟨e, e', rfl, rfl, he⟩ := exists_one h haccepts
    rw [Builtin.run, Builtin.run]
    refine (Simulates.ofExcept he.asItems).bind fun _ _ items items' hitems => ?_
    cases hitems with
    | nil => exact .fail rfl
    | cons h _ => exact .pure h
  | rest =>
    obtain ⟨e, e', rfl, rfl, he⟩ := exists_one h haccepts
    rw [Builtin.run, Builtin.run]
    refine (Simulates.ofExcept he.asItems).bind fun _ _ items items' hitems => ?_
    cases hitems with
    | nil => exact .fail rfl
    | cons _ hs => exact .newList hs
  | cons =>
    obtain ⟨a, a', b, b', rfl, rfl, ha, hb⟩ := exists_two h haccepts
    exact runCons ha hb
  | length =>
    obtain ⟨e, e', rfl, rfl, he⟩ := exists_one h haccepts
    rw [Builtin.run, Builtin.run]
    refine (Simulates.ofExcept he.asSequence).bind fun _ _ items items' hitems => ?_
    rw [hitems.length_eq]
    exact .pure (.atom (.number _))
  | map =>
    obtain ⟨f, f', e, e', rfl, rfl, hf, he⟩ := exists_two h haccepts
    rw [Builtin.run, Builtin.run]
    refine (Simulates.ofExcept hf.asFunction).bind fun _ hw f f' hf => ?_
    refine (Simulates.ofExcept (he.mono hw.rel).asItems).bind fun _ hw' items items' hitems => ?_
    exact (mapItems hinvoke (hf.mono hw'.rel) hitems).bind fun _ _ _ _ hvs => .newList hvs
  | nth =>
    obtain ⟨i, i', e, e', rfl, rfl, hi, he⟩ := exists_two h haccepts
    exact .bind_ofExcept hi.asInt64_eq fun index => (Simulates.ofExcept he.asSequence).bind
      fun _ _ _ _ helements => .ofExcept (elementAt index helements)
  | apply =>
    obtain ⟨f, f', rest, rest', rfl, rfl, hf, hrest⟩ := exists_pos h haccepts
    exact (Simulates.ofExcept hf.asFunction).bind fun w' hw f f' hf =>
      hinvoke w' f f' _ _ hf (renamesAll_spliced (hrest.mono hw.rel))
  | parse =>
    obtain ⟨e, e', rfl, rfl, he⟩ := exists_one h haccepts
    exact .bind_ofExcept he.asString_eq fun text => .read text

theorem bindAll (scope : ScopeId) : ∀ {w : Renaming} (names : List String)
    {values values' : List Expr}, RenamesAll w values values' →
      (Evaluator.bindAll scope names values).Simulates w (Evaluator.bindAll scope names values')
        fun _ _ _ => True
  | _, name :: names, _ :: _, _, .cons hv hvs =>
    (Simulates.bindName scope name hv).bind fun _ hw _ _ _ => bindAll scope names (hvs.mono hw.rel)
  | _, [], _, _, _ => .pure trivial
  | _, _ :: _, [], _, .nil => .pure trivial

theorem requireLive (ambient : ScopeId) :
    (Evaluator.requireLive ambient).Simulates w (Evaluator.requireLive ambient)
      fun _ _ _ => True := by
  refine Simulates.get.bind fun w' _ s s' hs => ?_
  rw [hs.live]
  split
  · exact .pure trivial
  · exact .fail rfl

theorem runNative (hev : ev.Simulates ev') (h : embedding.Uniform) (code : NativeCode)
    {args args' : List Expr} (hargs : RenamesAll w args args') :
    (Evaluator.runNative embedding ev args code).Simulates w
      (Evaluator.runNative embedding ev' args' code) Renames := by
  match code, hargs with
  | .builtin b, hargs => exact runBuiltin hev.invoke b hargs
  | .eval ambient, .cons he .nil =>
    exact (requireLive ambient).bind fun w' hw _ _ _ => hev.eval w' ambient _ _ (he.mono hw.rel)
  | .exec ambient, .cons he .nil =>
    exact .bind_ofExcept he.asString_eq fun text => (requireLive ambient).bind fun _ _ _ _ _ =>
      (Simulates.read text).bind fun w' _ _ _ he => hev.eval w' ambient _ _ he
  | .embedded key, hargs => exact h.runNative hev.invoke key hargs
  | .eval _, .nil | .exec _, .nil => exact failArity _ .nil
  | .eval _, .cons he (.cons hf hrest) | .exec _, .cons he (.cons hf hrest) =>
    exact failArity _ (.cons he (.cons hf hrest))

/-- **One step of a call** ends alike. -/
theorem invokeStep (hev : ev.Simulates ev') (h : embedding.Uniform) {f f' : Expr}
    {args args' : List Expr} (hf : Renames w f f') (hargs : RenamesAll w args args') :
    (ev.invokeStep embedding f args).Simulates w (ev'.invokeStep embedding f' args') Renames := by
  have hmismatch := hf.mismatch "function" (P := Renames w)
  cases hf with
  | native n _ =>
    exact (Simulates.expect n.arity hargs).bind fun _ hw _ _ _ =>
      hev.runNative h n.code (hargs.mono hw.rel)
  | closure params captured _ hbody =>
    refine (Simulates.expect _ hargs).bind fun _ hw _ _ _ => ?_
    refine (Simulates.newScope captured).bind fun _ hw' scope _ hscope => ?_
    subst hscope
    refine (bindAll scope params ((hargs.mono hw.rel).mono hw'.rel)).bind fun _ hw'' _ _ _ => ?_
    exact hev.evalSequence scope (((hbody.mono hw.rel).mono hw'.rel).mono hw''.rel)
  | host f _ => exact h.runHost f hargs
  | symbol | list | array | atom => exact .ofExcept hmismatch

end Evaluator.Simulates

/--
**Evaluation does not depend on how objects are named**, and a higher bound on how deep it
may nest changes nothing where a lower one was enough.
-/
theorem simulates_within {embedding : Embedding} (h : embedding.Uniform) {depth depth' : Nat}
    (hdepth : depth ≤ depth') :
    Evaluator.Simulates ⟨evalWithin embedding depth, invokeWithin embedding depth⟩
      ⟨evalWithin embedding depth', invokeWithin embedding depth'⟩ := by
  induction depth generalizing depth' with
  | zero => exact ⟨fun _ _ _ _ _ => .exhausted, fun _ _ _ _ _ _ _ => .exhausted⟩
  | succ depth ih =>
    cases depth' with
    | zero => exact absurd hdepth (Nat.not_succ_le_zero depth)
    | succ depth' =>
      have hev := ih (Nat.le_of_succ_le_succ hdepth)
      exact ⟨fun w scope e e' he => hev.evalStep scope he,
        fun w f f' args args' hf hargs => hev.invokeStep h hf hargs⟩

/-! ## Sound stores -/

/-- Whether every object in a store is one that the store has handed out. -/
def Store.Sound (s : Store) : Prop := s.Alike (.below s.nextRef) s

theorem Atom.renames_below {a : Atom} (h : a.Renames w a) : a.Renames (.below w.left) a := by
  cases h with
  | str s h => exact .str s ⟨rfl, (w.lt h).1⟩
  | null => exact .null
  | bool b => exact .bool b
  | number n => exact .number n
  | object o => exact .object o

mutual

/-- What is as it was under some renaming has only objects in it that were handed out. -/
theorem Expr.renames_below {e : Expr} (h : e.Renames w e) : e.Renames (.below w.left) e := by
  match e, h with
  | .symbol name, _ => exact .symbol name
  | .list .., .list h hs => exact .list ⟨rfl, (w.lt h).1⟩ (Expr.renamesAll_below hs)
  | .array .., .array h hs =>
    refine .array ⟨rfl, (w.lt h).1⟩ ⟨rfl, List.forall₂_same.mpr fun a ha => ?_⟩
    exact Atom.renames_below (List.forall₂_same.mp hs.atoms a ha)
  | .atom _, .atom ha => exact .atom (Atom.renames_below ha)
  | .native _ f, .native _ h => exact .native f ⟨rfl, (w.lt h).1⟩
  | .closure _ params _ scope, .closure _ _ h hs =>
    exact .closure params scope ⟨rfl, (w.lt h).1⟩ (Expr.renamesAll_below hs)
  | .host _ f, .host _ h => exact .host f ⟨rfl, (w.lt h).1⟩

theorem Expr.renamesAll_below {es : List Expr} (h : Expr.RenamesAll w es es) :
    Expr.RenamesAll (.below w.left) es es := by
  match es, h with
  | [], _ => exact .nil
  | _ :: _, .cons h hs => exact .cons (Expr.renames_below h) (Expr.renamesAll_below hs)

end

namespace Store

theorem sound_of_alike {s : Store} (h : s.Alike w s) : s.Sound := by
  refine ⟨rfl, rfl, rfl, rfl, fun _ => rfl, fun _ => rfl, fun i name => ?_⟩
  have hvalue := h.bindings i name
  rw [h.left]
  generalize (s.ownBindings i)[name]? = v at hvalue ⊢
  cases v with
  | none => exact .none
  | some v =>
    cases hvalue with
    | some hv => exact .some (Expr.renames_below hv)

theorem sound_empty : empty.Sound :=
  ⟨rfl, rfl, rfl, rfl, fun _ => rfl, fun _ => rfl, fun i name => by
    have hnone : (empty.ownBindings i)[name]? = none := by simp [ownBindings, empty]
    rw [hnone]
    exact .none⟩

namespace Sound

variable {s : Store}

theorem newScope (h : s.Sound) (parent : Option ScopeId) : (s.newScope parent).2.Sound :=
  sound_of_alike (Alike.newScope h parent)

/-- **A computation that does not look at references** leaves a sound store behind. -/
theorem runOn {m : StoreM α} {P : Renaming → α → α → Prop} (h : s.Sound)
    (hm : m.Simulates (.below s.nextRef) m P) (hend : (m.runOn s).1 ≠ .error .exhausted) :
    (m.runOn s).2.Sound := by
  have hself := hm s s h
  generalize m.runOn s = x at hself hend
  obtain ⟨outcome, next⟩ := x
  match outcome, hself with
  | .error .exhausted, _ => exact absurd rfl hend
  | .error (.error _), .error _ ht => exact sound_of_alike ht
  | .ok _, .ok _ _ ht => exact sound_of_alike ht

theorem registerNative (h : s.Sound) (scope : ScopeId) (f : Native) :
    (s.registerNative scope f).Sound :=
  sound_of_alike ((Alike.fresh h).bind scope f.name
    (.native f (Renaming.rel_fresh (.below s.nextRef))))

theorem registerBuiltins (scope : ScopeId) : ∀ {s : Store} (bs : List Builtin), s.Sound →
    (bs.foldl (fun s b => s.registerNative scope (builtinNative b)) s).Sound
  | _, [], h => h
  | _, b :: rest, h => registerBuiltins scope rest (h.registerNative scope (builtinNative b))

theorem of_addAlias (h : s.Sound) {next : Store} {scope : ScopeId} {source target : String}
    (halias : s.addAlias scope source target = .ok next) : next.Sound := by
  have hvalue := Alike.lookup h scope source
  rw [addAlias, get] at halias
  generalize s.lookup scope source = v at hvalue halias
  cases hvalue with
  | none => cases halias
  | some hv =>
    dsimp only at halias
    rw [define] at halias
    split at halias
    · cases halias
    · cases halias
      exact sound_of_alike (Alike.bind h scope target hv)

/-- New environments are made in sound stores. -/
theorem newEnvironment (h : s.Sound) (embedding : Embedding) {kind : Starting}
    (hkind : kind ≠ .embedded) : (s.newEnvironment embedding kind).2.Sound := by
  have hscope := h.newScope none
  cases kind with
  | bare => exact hscope
  | embedded => exact absurd rfl hkind
  | defaults =>
    have hnatives := ((registerBuiltins s.scopes.size Builtin.all hscope).registerNative
      s.scopes.size (evalNative s.scopes.size)).registerNative s.scopes.size
        (execNative s.scopes.size)
    change (installDefaults _ _).Sound
    rw [installDefaults]
    split
    next halias => exact hnatives.of_addAlias halias
    · exact hnatives

end Sound

end Store

end ExactLisp
