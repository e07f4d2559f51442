import ExactLisp.Proofs.Datum.Accepting
import ExactLisp.Proofs.Eval.Reductions
import ExactLisp.Proofs.Expr.Elements
import ExactLisp.Store.Views

/-!
# What evaluation upholds

A requirement says what the parts of values have to be like: what a symbol may be called
and a name that is bound, which numbers there may be, which parameters a closure may have
and which functions may be around; and which errors evaluation may end in. If a store
meets a requirement, and an expression does, then so do the store after the evaluation of
the expression, its value, and its error (`upholds_within`).

For this the requirement has to be stable: what is read meets it, the numbers that
arithmetic gives do, the error that a call makes of an error does, and what the embedding
program supplies upholds it. That lists, arrays and closures are taken apart and put
together everywhere needs no condition, as it is their parts that are required to be so.
-/

namespace ExactLisp

/-! ## Requirements -/

/-- What the parts of values, and errors, are required to be like. -/
structure Requirement where
  /-- What a symbol may be called, and what may be bound. -/
  name : String → Prop
  number : Number → Prop
  /-- The parameters that a closure may have. -/
  params : List String → Prop
  native : Native → Prop
  host : HostFunction → Prop
  /-- What a computation may end in. -/
  error : Error → Prop

variable {r : Requirement}

/-- Whether a literal is as required. -/
def Literal.Meets (r : Requirement) : Literal → Prop
  | .number n => r.number n
  | .null | .bool _ | .str _ => True

/-- Whether an atom is as required. -/
def Atom.Meets (r : Requirement) : Atom → Prop
  | .number n => r.number n
  | .null | .bool _ | .str .. | .object _ => True

namespace Datum

mutual

/-- Whether all parts of a datum are as required. -/
def Meets (r : Requirement) : Datum → Prop
  | symbol name => r.name name
  | literal l => l.Meets r
  | list items => MeetsAll r items
  | array elements => ∀ l ∈ elements, l.Meets r

/-- Whether all parts of some data are as required. -/
def MeetsAll (r : Requirement) : List Datum → Prop
  | [] => True
  | d :: rest => d.Meets r ∧ MeetsAll r rest

end

end Datum

namespace Expr

mutual

/-- Whether all parts of an expression are as required. -/
def Meets (r : Requirement) : Expr → Prop
  | symbol name => r.name name
  | list _ items => MeetsAll r items
  | array _ elements => ∀ a ∈ elements.atoms, a.Meets r
  | atom a => a.Meets r
  | native _ f => r.native f
  | closure _ params body _ => r.params params ∧ MeetsAll r body
  | host _ f => r.host f

/-- Whether all parts of some expressions are as required. -/
def MeetsAll (r : Requirement) : List Expr → Prop
  | [] => True
  | e :: rest => e.Meets r ∧ MeetsAll r rest

end

theorem meetsAll_iff {es : List Expr} : MeetsAll r es ↔ ∀ e ∈ es, e.Meets r := by
  induction es with
  | nil => simp [MeetsAll]
  | cons e rest ih => rw [MeetsAll, ih, List.forall_mem_cons]

end Expr

namespace HostValue

mutual

/-- Whether all parts of a host value are as required. -/
def Meets (r : Requirement) : HostValue → Prop
  | int n => r.number (.int n)
  | float x => r.number (.float x)
  | list items => MeetsAll r items
  | array elements => ∀ a ∈ elements.atoms, a.Meets r
  | function f => f.Meets r
  | null | bool _ | decimal _ | str _ | object _ => True

/-- Whether all parts of some host values are as required. -/
def MeetsAll (r : Requirement) : List HostValue → Prop
  | [] => True
  | v :: rest => v.Meets r ∧ MeetsAll r rest

end

theorem meets_ofAtom {a : Atom} (h : a.Meets r) : (ofAtom a).Meets r := by
  match a with
  | .number (.int _) | .number (.float _) => exact h
  | .number (.big _) | .null | .bool _ | .str .. | .object _ => exact trivial

mutual

/-- A host value is made of the parts of the expression that it stands for. -/
theorem meets_ofExpr : ∀ {e : Expr}, e.Meets r → (ofExpr e).Meets r
  | .symbol _, _ => trivial
  | .list .., he => meetsAll_ofExprs he
  | .array .., he | .native .., he | .closure .., he | .host .., he => he
  | .atom _, he => meets_ofAtom he

theorem meetsAll_ofExprs : ∀ {es : List Expr}, Expr.MeetsAll r es → MeetsAll r (ofExprs es)
  | [], _ => trivial
  | _ :: _, hes => ⟨meets_ofExpr hes.1, meetsAll_ofExprs hes.2⟩

end

mutual

/-- The decimals in it are numbers of the expression that are kept exactly. -/
theorem number_of_mem_decimals : ∀ {e : Expr}, e.Meets r → ∀ d ∈ (ofExpr e).decimals,
    r.number (.big d)
  | .list .., he, _, hd => number_of_mem_decimalsAll he _ hd
  | .atom (.number (.big _)), he, _, hd => List.mem_singleton.mp hd ▸ he

theorem number_of_mem_decimalsAll : ∀ {es : List Expr}, Expr.MeetsAll r es →
    ∀ d ∈ decimalsAll (ofExprs es), r.number (.big d)
  | _ :: _, hes, d, hd => (List.mem_append.mp hd).elim (number_of_mem_decimals hes.1 d)
    (number_of_mem_decimalsAll hes.2 d)

end

end HostValue

/-- Whether all that is bound in a store is as required, and so are the names it is bound to. -/
def Store.Meets (r : Requirement) (s : Store) : Prop :=
  ∀ scope name value, (s.ownBindings scope)[name]? = some value → r.name name ∧ value.Meets r

/-- Whether the end of a computation is as required: its value, or its error. -/
def Requirement.Allows {α : Type} (r : Requirement) (P : α → Prop) : Outcome α → Prop
  | .ok a => P a
  | .error (.error e) => r.error e
  | .error .exhausted => True

/-- Whether a computation keeps a requirement, with values of some kind. -/
def StoreM.Upholds {α : Type} (r : Requirement) (m : StoreM α) (P : α → Prop) : Prop :=
  ∀ s : Store, s.Meets r → (m.runOn s).2.Meets r ∧ r.Allows P (m.runOn s).1

/-- What a requirement is like that evaluation upholds, as far as no number is computed. -/
structure Requirement.Regular (r : Requirement) (embedding : Embedding) : Prop where
  word : ∀ w, (Datum.ofWord w).Meets r
  quote : r.name Datum.quoteName
  sequence : r.name Datum.sequenceName
  params : ∀ names : List String, names.Nodup → (∀ name ∈ names, r.name name) → r.params names
  param : ∀ names, r.params names → ∀ name ∈ names, r.name name
  /-- Calls apart, no error that is raised holds another one. -/
  raised : ∀ e, (∀ head callee cause, e ≠ .atCall head callee cause) → r.error e
  located : ∀ head callee e, r.error e → r.error (Evaluator.locate head callee e)
  /-- A native operation upholds the requirement if the functions that it calls do. -/
  embedded : ∀ f key, r.native f → f.code = .embedded key → ∀ invoke : Invoke,
    (∀ g args, Expr.Meets r g → Expr.MeetsAll r args →
      (invoke g args).Upholds r (Expr.Meets r)) →
    ∀ args, Expr.MeetsAll r args →
      (embedding.runNative invoke key args).Upholds r (Expr.Meets r)
  hosted : ∀ f, r.host f → ∀ args, Expr.MeetsAll r args →
    (embedding.hosted f args).Upholds r (HostValue.Meets r)
  /-- A decimal may go to the host program and come back. -/
  returned : ∀ d, r.number (.big d) → r.number (.reduce d)

/-- What a requirement is like that evaluation upholds whatever it computes. -/
structure Requirement.Stable (r : Requirement) (embedding : Embedding) : Prop
    extends r.Regular embedding where
  /-- Numbers that are computed have been reduced. -/
  reduced : ∀ d, r.number (Number.reduce d)

/-! ## Computations -/

namespace Store

/-- What is bound after a binding has been made: the new one, or one from before. -/
theorem getElem?_ownBindings_bind {s : Store} {id i : ScopeId} {name other : String}
    {value v : Expr} (h : ((s.bind id name value).ownBindings i)[other]? = some v) :
    (other = name ∧ v = value) ∨ (s.ownBindings i)[other]? = some v := by
  by_cases hi : i = id
  · subst hi
    by_cases hsize : i < s.scopes.size
    · rw [ownBindings_bind_self hsize] at h
      by_cases hname : other = name
      · subst hname
        rw [Std.TreeMap.getElem?_insert_self] at h
        cases h
        exact Or.inl ⟨rfl, rfl⟩
      · rw [Std.TreeMap.getElem?_insert] at h
        exact Or.inr (by simpa [Ne.symm hname] using h)
    · have hnone : s.scopes[i]? = none := Array.getElem?_eq_none (Nat.le_of_not_lt hsize)
      simp [ownBindings, bind, Array.getElem?_modify, hnone] at h
  · right
    rwa [ownBindings_bind_of_ne s hi] at h

theorem ownBindings_newScope_all (s : Store) (parent : Option ScopeId) (i : ScopeId) :
    (s.newScope parent).2.ownBindings i = s.ownBindings i := by
  rcases Nat.lt_trichotomy i s.scopes.size with h | rfl | h
  · exact ownBindings_newScope h parent
  · simp [ownBindings, newScope]
  · have hnone : s.scopes[i]? = none := Array.getElem?_eq_none (Nat.le_of_lt h)
    have hnew : (s.newScope parent).2.scopes[i]? = none :=
      Array.getElem?_eq_none (by rw [newScope, Array.size_push]; exact h)
    simp only [ownBindings, hnone, hnew]

theorem meets_bind {s : Store} (h : s.Meets r) {id : ScopeId} {name : String} {value : Expr}
    (hn : r.name name) (hv : value.Meets r) : (s.bind id name value).Meets r := by
  intro scope other v hfound
  rcases getElem?_ownBindings_bind hfound with ⟨rfl, rfl⟩ | hbefore
  · exact ⟨hn, hv⟩
  · exact h scope other v hbefore

theorem meets_newScope {s : Store} (h : s.Meets r) (parent : Option ScopeId) :
    (s.newScope parent).2.Meets r := by
  intro scope name v hfound
  rw [ownBindings_newScope_all] at hfound
  exact h scope name v hfound

theorem meets_of_get {s : Store} (h : s.Meets r) {id : ScopeId} {name : String} {value : Expr}
    (hget : s.get id name = .ok value) : value.Meets r := by
  rw [get] at hget
  split at hget
  next v hlookup =>
    cases hget
    obtain ⟨scope, -, hfound⟩ := List.exists_of_findSome?_eq_some hlookup
    exact (h scope name _ hfound).2
  · cases hget

end Store

namespace StoreM.Upholds

variable {α β : Type} {m : StoreM α} {P : α → Prop}

theorem pure {a : α} (h : P a) : (pure a : StoreM α).Upholds r P := fun _ hs => ⟨hs, h⟩

theorem exhausted : (throw .exhausted : StoreM α).Upholds r P := fun _ hs => ⟨hs, trivial⟩

theorem fail {e : Error} (h : r.error e) : (fail e : StoreM α).Upholds r P := fun _ hs => ⟨hs, h⟩

theorem bind {f : α → StoreM β} {R : β → Prop} (hm : m.Upholds r P)
    (hf : ∀ a, P a → (f a).Upholds r R) : (m >>= f).Upholds r R := by
  intro s hs
  obtain ⟨hstore, hend⟩ := hm s hs
  rw [runOn_bind]
  rcases hrun : m.runOn s with ⟨stop | a, next⟩
  · rw [hrun] at hstore hend
    refine ⟨hstore, ?_⟩
    cases stop with
    | error e => exact hend
    | exhausted => exact trivial
  · rw [hrun] at hstore hend
    exact hf a hend next hstore

theorem ofExcept {x : Except Error α} (hok : ∀ a, x = .ok a → P a)
    (herror : ∀ e, x = .error e → r.error e) : (ofExcept x).Upholds r P := by
  cases x with
  | ok a => exact .pure (hok a rfl)
  | error e => exact .fail (herror e rfl)

theorem ask {f : Store → Except Error α} (hok : ∀ s a, s.Meets r → f s = .ok a → P a)
    (herror : ∀ s e, f s = .error e → r.error e) : (ask f).Upholds r P := by
  intro s hs
  rw [runOn_ask]
  cases hf : f s with
  | ok a => exact ⟨hs, hok s a hs hf⟩
  | error e => exact ⟨hs, herror s e hf⟩

theorem get : (get : StoreM Store).Upholds r fun _ => True := fun _ hs => ⟨hs, trivial⟩

theorem fresh : fresh.Upholds r fun _ => True := fun _ hs => ⟨hs, trivial⟩

theorem newList {items : List Expr} (h : Expr.MeetsAll r items) :
    (newList items).Upholds r (Expr.Meets r) :=
  fresh.bind fun _ _ => .pure h

theorem newString (s : String) : (newString s).Upholds r (Expr.Meets r) :=
  fresh.bind fun _ _ => .pure trivial

theorem newArray {elements : Elements} (h : ∀ a ∈ elements.atoms, a.Meets r) :
    (newArray elements).Upholds r (Expr.Meets r) :=
  fresh.bind fun _ _ => .pure h

/-! ### Data as expressions -/

theorem loadLiteral {l : Literal} (hl : l.Meets r) :
    (StoreM.loadLiteral l).Upholds r (Atom.Meets r) := by
  cases l with
  | str s => exact fresh.bind fun _ _ => .pure trivial
  | null | bool | number => exact .pure hl

theorem loadLiterals : ∀ {ls : List Literal}, (∀ l ∈ ls, l.Meets r) →
    (StoreM.loadLiterals ls).Upholds r fun as => ∀ a ∈ as, a.Meets r
  | [], _ => .pure (by simp)
  | l :: rest, hls => by
    obtain ⟨hl, hrest⟩ := List.forall_mem_cons.mp hls
    exact (loadLiteral hl).bind fun a ha => (loadLiterals hrest).bind fun as has =>
      .pure (List.forall_mem_cons.mpr ⟨ha, has⟩)

mutual

theorem load : ∀ {d : Datum}, d.Meets r → (StoreM.load d).Upholds r (Expr.Meets r)
  | .symbol _, hd => .pure hd
  | .literal _, hd => (loadLiteral hd).bind fun _ ha => .pure ha
  | .list _, hd => (loadAll hd).bind fun _ hes => .newList hes
  | .array _, hd => (loadLiterals hd).bind fun _ has =>
    .newArray fun a ha => has a (Elements.mem_ofAtoms.mp ha)

theorem loadAll : ∀ {ds : List Datum}, Datum.MeetsAll r ds →
    (StoreM.loadAll ds).Upholds r (Expr.MeetsAll r)
  | [], _ => .pure trivial
  | _ :: _, hds => (load hds.1).bind fun _ he => (loadAll hds.2).bind fun _ hes =>
    .pure ⟨he, hes⟩

end

/-! ### Host values as expressions -/

mutual

/-- What becomes of a host value is as required, if the decimals in it are when they are reduced. -/
theorem toExpr : ∀ {v : HostValue}, v.Meets r → (∀ d ∈ v.decimals, r.number (.reduce d)) →
    v.toExpr.Upholds r (Expr.Meets r)
  | .null, _, _ | .bool _, _, _ | .object _, _, _ => .pure trivial
  | .int _, hv, _ | .float _, hv, _ | .function _, hv, _ => .pure hv
  | .decimal d, _, hd => .pure (hd d List.mem_cons_self)
  | .str s, _, _ => .newString s
  | .list _, hv, hd => (toExprs hv hd).bind fun _ hes => .newList hes
  | .array _, hv, _ => .newArray hv

theorem toExprs : ∀ {vs : List HostValue}, HostValue.MeetsAll r vs →
    (∀ d ∈ HostValue.decimalsAll vs, r.number (.reduce d)) →
    (HostValue.toExprs vs).Upholds r (Expr.MeetsAll r)
  | [], _, _ => .pure trivial
  | _ :: _, hvs, hd =>
    have hds := List.forall_mem_append.mp hd
    (toExpr hvs.1 hds.1).bind fun _ he => (toExprs hvs.2 hds.2).bind fun _ hes => .pure ⟨he, hes⟩

end

/-! ### Bindings -/

theorem bindName {scope : ScopeId} {name : String} {value : Expr} (hn : r.name name)
    (hv : value.Meets r) : (StoreM.bind scope name value).Upholds r fun _ => True :=
  fun _ hs => ⟨Store.meets_bind hs hn hv, trivial⟩

theorem newScope (parent : ScopeId) : (newScope parent).Upholds r fun _ => True :=
  fun _ hs => ⟨Store.meets_newScope hs _, trivial⟩

end StoreM.Upholds

namespace Requirement.Regular

variable {embedding : Embedding}

/-- An error that holds no other one may be raised. -/
theorem fail (h : r.Regular embedding) {α : Type} {P : α → Prop} {e : Error}
    (he : ∀ head callee cause, e ≠ .atCall head callee cause) :
    (StoreM.fail e : StoreM α).Upholds r P :=
  .fail (h.raised e he)

/-- Of a name that is bound, the requirement is asked only where the name can be bound. -/
theorem define (h : r.Regular embedding) {scope : ScopeId} {name : String} {value : Expr}
    (hn : name ∉ reservedNames → r.name name) (hv : value.Meets r) :
    (StoreM.define scope name value).Upholds r fun _ => True := by
  intro s hs
  rw [StoreM.define, StoreM.runOn_bind, StoreM.runOn_ask, Store.define]
  by_cases hname : name ∈ reservedNames
  · rw [if_pos hname]
    exact ⟨hs, h.raised _ nofun⟩
  · rw [if_neg hname]
    exact ⟨Store.meets_bind hs (hn hname) hv, trivial⟩

/-- What a name stands for is as required. -/
theorem lookup (h : r.Regular embedding) (scope : ScopeId) (name : String) :
    (StoreM.ask fun s => s.get scope name).Upholds r (Expr.Meets r) := by
  refine .ask (fun s v hs hv => Store.meets_of_get hs hv) fun s err herr => ?_
  rw [Store.get] at herr
  split at herr <;> cases herr
  exact h.raised _ nofun

theorem expect (h : r.Regular embedding) (arity : Arity) (args : List Expr) :
    (StoreM.expect arity args).Upholds r fun _ => True := by
  refine .ofExcept (fun _ _ => trivial) fun e he => ?_
  rw [Error.checkArity] at he
  split at he <;> cases he
  exact h.raised _ nofun

/-! ### What is read -/

mutual

theorem meets_of_derives (h : r.Regular embedding) {xs : List Lexeme} {d : Datum}
    (hd : Datum.Derives xs d) : d.Meets r := by
  match hd with
  | .word w => exact h.word w
  | .str raw => exact trivial
  | .quoted hx => exact ⟨h.quote, meets_of_derives h hx, trivial⟩
  | .list hxs => exact meets_of_derivesAll h hxs
  | .array hxs => exact meets_of_derivesElements h hxs

theorem meets_of_derivesAll (h : r.Regular embedding) {xs : List Lexeme} {ds : List Datum}
    (hd : Datum.DerivesAll xs ds) : Datum.MeetsAll r ds := by
  match hd with
  | .nil => exact trivial
  | .cons hx hxs => exact ⟨meets_of_derives h hx, meets_of_derivesAll h hxs⟩

theorem meets_of_derivesElements (h : r.Regular embedding) {xs : List Lexeme} {ls : List Literal}
    (hd : Datum.DerivesElements xs ls) : ∀ l ∈ ls, l.Meets r := by
  match hd with
  | .nil => simp
  | .str raw hs => exact List.forall_mem_cons.mpr ⟨trivial, meets_of_derivesElements h hs⟩
  | @Datum.DerivesElements.word w l xs ls hw hs =>
    have hl : (Datum.literal l).Meets r := hw ▸ h.word w
    exact List.forall_mem_cons.mpr ⟨hl, meets_of_derivesElements h hs⟩

end

/-- What a text is read as is made of words, and so as required. -/
theorem meets_of_read (h : r.Regular embedding) {limit : Nat} {text : String} {d : Datum}
    (hd : Datum.readWithin limit text = .ok d) : d.Meets r := by
  obtain ⟨forms, hforms, rfl⟩ := Datum.readWithin_eq_ok.mp hd
  have hall := h.meets_of_derivesAll (Datum.readForms_eq_ok_iff.mp hforms).2.1
  unfold Datum.ofForms
  split
  · exact hall.1
  · exact ⟨h.sequence, hall⟩

theorem read (h : r.Regular embedding) (text : String) :
    (StoreM.read text).Upholds r (Expr.Meets r) := by
  rw [StoreM.read]
  cases hd : Datum.read text with
  | ok d => exact .load (h.meets_of_read hd)
  | error e => exact h.fail nofun

/-! ### Arguments -/

theorem asItems (h : r.Regular embedding) {e : Expr} (he : e.Meets r) :
    (StoreM.ofExcept e.asItems).Upholds r (Expr.MeetsAll r) := by
  cases e with
  | list => exact .pure he
  | _ => exact h.fail nofun

theorem asSequence (h : r.Regular embedding) {e : Expr} (he : e.Meets r) :
    (StoreM.ofExcept e.asSequence).Upholds r (Expr.MeetsAll r) := by
  cases e with
  | list => exact .pure he
  | array ref elements =>
    refine .pure (Expr.meetsAll_iff.mpr fun e hmem => ?_)
    obtain ⟨a, ha, rfl⟩ := List.mem_map.mp hmem
    exact he a ha
  | _ => exact h.fail nofun

theorem asFunction (h : r.Regular embedding) {e : Expr} (he : e.Meets r) :
    (StoreM.ofExcept e.asFunction).Upholds r (Expr.Meets r) := by
  rw [Expr.asFunction]
  split
  · exact .pure he
  · exact h.fail nofun

theorem asInt64 (h : r.Regular embedding) (e : Expr) :
    (StoreM.ofExcept e.asInt64).Upholds r fun _ => True := by
  unfold Expr.asInt64
  split
  · exact .pure trivial
  · exact h.fail nofun

theorem asString (h : r.Regular embedding) (e : Expr) :
    (StoreM.ofExcept e.asString).Upholds r fun _ => True := by
  unfold Expr.asString
  split
  · exact .pure trivial
  · exact h.fail nofun

theorem asNumber (h : r.Regular embedding) (e : Expr) :
    (StoreM.ofExcept e.asNumber).Upholds r fun n => e.asNumber = .ok n := by
  refine .ofExcept (fun _ => id) fun err herr => ?_
  unfold Expr.asNumber at herr
  split at herr <;> cases herr
  exact h.raised _ nofun

/-- A list of arguments fails to be converted with the error of one of them. -/
theorem exists_of_convertAll_eq_error {α : Type} {convert : Expr → Except Error α}
    {es : List Expr} {err : Error} (hall : Expr.convertAll convert es = .error err) :
    ∃ e ∈ es, convert e = .error err := by
  induction es with
  | nil => cases hall
  | cons e rest ih =>
    rw [Expr.convertAll] at hall
    split at hall
    · split at hall
      · cases hall
      next _ hrest =>
        cases hall
        obtain ⟨e, hmem, he⟩ := ih hrest
        exact ⟨e, List.mem_cons_of_mem _ hmem, he⟩
    next _ he =>
      cases hall
      exact ⟨e, List.mem_cons_self, he⟩

theorem asNumbers (h : r.Regular embedding) (es : List Expr) :
    (StoreM.ofExcept (Expr.asNumbers es)).Upholds r fun ns => Expr.asNumbers es = .ok ns := by
  refine .ofExcept (fun _ => id) fun err herr => ?_
  obtain ⟨e, -, he⟩ := exists_of_convertAll_eq_error herr
  unfold Expr.asNumber at he
  split at he <;> cases he
  exact h.raised _ nofun

/-- What arithmetic gives is its exact total, reduced. -/
theorem ofArithmetic (h : r.Regular embedding) (op : Number.Operation)
    (hnumbers : ∀ d, op.total = .ok d → r.number (.reduce d)) :
    (StoreM.ofArithmetic op.result).Upholds r (Expr.Meets r) := by
  rw [op.result_eq]
  cases htotal : op.total with
  | ok d => exact .pure (hnumbers d htotal)
  | error fault => cases fault <;> exact h.fail nofun

end Requirement.Regular

/-! ## One step -/

/-- Whether evaluation upholds a requirement, and calls do. -/
structure Evaluator.Upholds (r : Requirement) (ev : Evaluator) : Prop where
  eval : ∀ scope e, Expr.Meets r e → (ev.eval scope e).Upholds r (Expr.Meets r)
  invoke : ∀ f args, Expr.Meets r f → Expr.MeetsAll r args →
    (ev.invoke f args).Upholds r (Expr.Meets r)

namespace Evaluator.Upholds

variable {ev : Evaluator} {embedding : Embedding}

theorem evalSequence (hev : ev.Upholds r) (scope : ScopeId) :
    ∀ {forms : List Expr}, Expr.MeetsAll r forms →
      (ev.evalSequence scope forms).Upholds r (Expr.Meets r)
  | [], _ => .pure trivial
  | [e], hforms => hev.eval scope e hforms.1
  | e :: _ :: _, hforms =>
    (hev.eval scope e hforms.1).bind fun _ _ => hev.evalSequence scope hforms.2

theorem evalEach (hev : ev.Upholds r) (scope : ScopeId) :
    ∀ {forms : List Expr}, Expr.MeetsAll r forms →
      (ev.evalEach scope forms).Upholds r (Expr.MeetsAll r)
  | [], _ => .pure trivial
  | e :: _, hforms => (hev.eval scope e hforms.1).bind fun _ hv =>
    (hev.evalEach scope hforms.2).bind fun _ hvs => .pure ⟨hv, hvs⟩

theorem evalDefine (hev : ev.Upholds r) (h : r.Regular embedding) (scope : ScopeId)
    {args : List Expr} (hargs : Expr.MeetsAll r args) :
    (ev.evalDefine scope args).Upholds r (Expr.Meets r) := by
  unfold Evaluator.evalDefine
  split
  next name form =>
    obtain ⟨hname, hform, -⟩ := hargs
    exact (hev.eval scope form hform).bind fun v hv =>
      (h.define (fun _ => hname) hv).bind fun _ _ => .pure hv
  · exact h.fail nofun
  · exact h.fail nofun

theorem evalBindings (hev : ev.Upholds r) (h : r.Regular embedding) (scope : ScopeId)
    {bindings : List Expr} (hbindings : Expr.MeetsAll r bindings) :
    (ev.evalBindings scope bindings).Upholds r fun _ => True := by
  fun_induction Evaluator.evalBindings ev scope bindings with
  | case1 => exact .pure trivial
  | case2 ref name form rest ih =>
    obtain ⟨⟨hname, hform, -⟩, hrest⟩ := hbindings
    exact (hev.eval scope form hform).bind fun v hv =>
      (StoreM.Upholds.bindName hname hv).bind fun _ _ => ih hrest
  | case3 => exact h.fail nofun

theorem evalLetStar (hev : ev.Upholds r) (h : r.Regular embedding) (scope : ScopeId)
    {args : List Expr} (hargs : Expr.MeetsAll r args) :
    (ev.evalLetStar scope args).Upholds r (Expr.Meets r) := by
  unfold Evaluator.evalLetStar
  split
  next bindings body =>
    exact (StoreM.Upholds.newScope scope).bind fun inner _ =>
      (hev.evalBindings h inner hargs.1).bind fun _ _ => hev.evalSequence inner hargs.2
  · exact h.fail nofun
  · exact h.fail nofun

theorem evalConditional (hev : ev.Upholds r) (h : r.Regular embedding) (scope : ScopeId)
    {args : List Expr} (hargs : Expr.MeetsAll r args) :
    (ev.evalConditional scope args).Upholds r (Expr.Meets r) := by
  unfold Evaluator.evalConditional
  split
  next condition consequent alternatives =>
    obtain ⟨hcondition, hconsequent, halternatives⟩ := hargs
    refine (hev.eval scope condition hcondition).bind fun v _ => ?_
    split
    · exact hev.eval scope consequent hconsequent
    · split
      · exact .newList trivial
      · exact hev.evalSequence scope halternatives
  · exact h.fail nofun

/-- The names in a parameter list are distinct, and stand there as symbols. -/
theorem parameterNames_eq_ok {seen : List String} {forms : List Expr} {names : List String}
    (hseen : seen.Nodup) (hnames : Evaluator.parameterNames seen forms = .ok names) :
    names.Nodup ∧ ∀ name ∈ names, name ∈ seen ∨ .symbol name ∈ forms := by
  fun_induction Evaluator.parameterNames seen forms with
  | case1 seen =>
    cases hnames
    exact ⟨(List.reverse_perm seen).nodup_iff.mpr hseen,
      fun name hname => Or.inl (List.mem_reverse.mp hname)⟩
  | case2 => cases hnames
  | case3 seen name rest hnew ih =>
    obtain ⟨hnodup, hmem⟩ := ih (List.nodup_cons.mpr ⟨hnew, hseen⟩) hnames
    refine ⟨hnodup, fun other hother => ?_⟩
    rcases hmem other hother with hother | hother
    · rcases List.mem_cons.mp hother with rfl | hother
      · exact Or.inr List.mem_cons_self
      · exact Or.inl hother
    · exact Or.inr (List.mem_cons_of_mem _ hother)
  | case4 => cases hnames

theorem exists_type_of_parameterNames_eq_error {seen : List String} {forms : List Expr}
    {e : Error} (he : Evaluator.parameterNames seen forms = .error e) :
    ∃ fault, e = .type fault := by
  fun_induction Evaluator.parameterNames seen forms with
  | case1 => cases he
  | case2 | case4 =>
    cases he
    exact ⟨_, rfl⟩
  | case3 _ _ _ _ ih => exact ih he

/-- A closure has the parameters that its form names, and the forms after them for its body. -/
theorem evalLambda (h : r.Regular embedding) (scope : ScopeId) {args : List Expr}
    (hargs : Expr.MeetsAll r args) :
    (Evaluator.evalLambda scope args).Upholds r (Expr.Meets r) := by
  unfold Evaluator.evalLambda
  split
  next ref params body =>
    obtain ⟨hparams, hbody⟩ := hargs
    -- no parameters have been seen yet, so each one found is a symbol in the list
    refine StoreM.Upholds.bind (.ofExcept (fun names hnames => ?_) fun e he => ?_)
      fun names hnames => StoreM.Upholds.fresh.bind fun _ _ => .pure ⟨hnames, hbody⟩
    · obtain ⟨hnodup, hmem⟩ := parameterNames_eq_ok .nil hnames
      refine h.params names hnodup fun name hname => ?_
      rcases hmem name hname with hnone | hsymbol
      · cases hnone
      · exact Expr.meetsAll_iff.mp hparams _ hsymbol
    · obtain ⟨fault, rfl⟩ := exists_type_of_parameterNames_eq_error he
      exact h.raised _ nofun
  · exact h.fail nofun
  · exact h.fail nofun

theorem evalSpecial (hev : ev.Upholds r) (h : r.Regular embedding) (scope : ScopeId)
    {args : List Expr} (hargs : Expr.MeetsAll r args) (form : SpecialForm) :
    (ev.evalSpecial scope args form).Upholds r (Expr.Meets r) := by
  cases form with
  | define => exact hev.evalDefine h scope hargs
  | lambda => exact evalLambda h scope hargs
  | conditional => exact hev.evalConditional h scope hargs
  | quote =>
    show (Evaluator.evalQuote args).Upholds r (Expr.Meets r)
    unfold Evaluator.evalQuote
    split
    · exact .pure hargs.1
    · exact h.fail nofun
  | sequence => exact hev.evalSequence scope hargs
  | letStar => exact hev.evalLetStar h scope hargs

/-- The error of a call is the one that the call makes of what was raised inside. -/
theorem atCallSite (h : r.Regular embedding) {m : StoreM Expr} (hm : m.Upholds r (Expr.Meets r))
    (head callee : Expr) :
    (Evaluator.atCallSite head callee m).Upholds r (Expr.Meets r) := by
  intro s hs
  obtain ⟨hstore, hend⟩ := hm s hs
  rw [Evaluator.atCallSite]
  rcases hrun : m.runOn s with ⟨stop | v, next⟩
  · rw [StoreM.runOn_tryCatch_of_error hrun]
    rw [hrun] at hstore hend
    cases stop with
    | error e => exact ⟨hstore, h.located head callee e hend⟩
    | exhausted => exact ⟨hstore, trivial⟩
  · rw [StoreM.runOn_tryCatch_of_ok hrun]
    rw [hrun] at hstore hend
    exact ⟨hstore, hend⟩

theorem evalCall (hev : ev.Upholds r) (h : r.Regular embedding) (scope : ScopeId) {head : Expr}
    {args : List Expr} (hhead : head.Meets r) (hargs : Expr.MeetsAll r args) :
    (ev.evalCall scope head args).Upholds r (Expr.Meets r) := by
  refine (hev.eval scope head hhead).bind fun callee hcallee => ?_
  split
  · refine (hev.evalEach scope hargs).bind fun values hvalues => ?_
    exact atCallSite h (hev.invoke callee values hcallee hvalues) head callee
  · exact .fail (h.located _ _ _ (h.raised _ nofun))

/-- **One step of evaluation** upholds the requirement. -/
theorem evalStep (hev : ev.Upholds r) (h : r.Regular embedding) (scope : ScopeId) {e : Expr}
    (he : e.Meets r) : (ev.evalStep scope e).Upholds r (Expr.Meets r) := by
  unfold Evaluator.evalStep
  split
  next name => exact h.lookup scope name
  next name args =>
    split
    · exact hev.evalSpecial h scope he.2 _
    · exact hev.evalCall h scope he.1 he.2
  next head args _ => exact hev.evalCall h scope he.1 he.2
  · exact .pure he

/-! ### Calls -/

theorem mapItems (hev : ev.Upholds r) {f : Expr} (hf : f.Meets r) :
    ∀ {items : List Expr}, Expr.MeetsAll r items →
      (Builtin.mapItems ev.invoke f items).Upholds r (Expr.MeetsAll r)
  | [], _ => .pure trivial
  | e :: _, hitems => (hev.invoke f [e] hf ⟨hitems.1, trivial⟩).bind fun _ hv =>
    (hev.mapItems hf hitems.2).bind fun _ hvs => .pure ⟨hv, hvs⟩

theorem meetsAll_spliced {args : List Expr} (hargs : Expr.MeetsAll r args) :
    Expr.MeetsAll r (Builtin.spliced args) := by
  fun_induction Builtin.spliced args with
  | case1 => exact trivial
  | case2 => exact hargs.1
  | case3 _ _ _ ih => exact ⟨hargs.1, ih hargs.2⟩

theorem elementAt (h : r.Regular embedding) (index : Int64) {elements : List Expr}
    (helements : Expr.MeetsAll r elements) :
    (StoreM.ofExcept (Builtin.elementAt index elements)).Upholds r (Expr.Meets r) := by
  rw [Builtin.elementAt]
  split
  · exact h.fail nofun
  · split
    next e he => exact .pure (Expr.meetsAll_iff.mp helements e (List.mem_of_getElem? he))
    · exact h.fail nofun

/-- A built-in function makes its value of its arguments and of numbers that it has reduced. -/
theorem runBuiltin (hev : ev.Upholds r) (h : r.Regular embedding) {b : Builtin}
    {args : List Expr} (hargs : Expr.MeetsAll r args)
    (hnumbers : ∀ d, b.Reduces args d → r.number (.reduce d)) :
    (b.run ev.invoke args).Upholds r (Expr.Meets r) := by
  have hcompare : ∀ holds first others,
      (Builtin.compare holds first others).Upholds r (Expr.Meets r) :=
    fun holds first others =>
      (h.asNumber first).bind fun _ _ => (h.asNumbers others).bind fun _ _ => .pure trivial
  -- the cases are the equations of the function, the last one that of refused arguments
  fun_cases Builtin.run ev.invoke b args with
  | case1 args =>
    exact (h.asNumbers args).bind fun ns hns =>
      h.ofArithmetic (.sum ns) fun d hd => hnumbers d (.sum hns hd)
  | case2 args =>
    exact (h.asNumbers args).bind fun ns hns =>
      h.ofArithmetic (.product ns) fun d hd => hnumbers d (.product hns hd)
  | case3 e others =>
    exact (h.asNumber e).bind fun n hn => (h.asNumbers others).bind fun ns hns =>
      h.ofArithmetic (.difference n ns) fun d hd => hnumbers d (.difference hn hns hd)
  | case4 e others =>
    exact (h.asNumber e).bind fun n hn => (h.asNumbers others).bind fun ns hns =>
      h.ofArithmetic (.quotient n ns) fun d hd => hnumbers d (.quotient hn hns hd)
  | case5 | case6 | case7 | case8 => exact hcompare _ _ _
  | case9 | case10 => exact .pure trivial
  | case11 | case12 =>
    refine (h.asItems hargs.1).bind fun items hitems => ?_
    cases items with
    | nil => exact h.fail nofun
    | cons => first | exact .pure hitems.1 | exact .newList hitems.2
  | case13 => exact .newList ⟨hargs.1, hargs.2.1⟩
  | case14 | case16 => exact .newList hargs
  | case15 e =>
    refine StoreM.Upholds.bind (P := fun items => e.asSequence = .ok items)
      (.ofExcept (fun _ => id) fun err herr => ?_)
      fun items hitems => .pure (hnumbers _ (.length hitems))
    unfold Expr.asSequence at herr
    split at herr <;> cases herr
    exact h.raised _ nofun
  | case17 =>
    obtain ⟨hf, hitems, -⟩ := hargs
    exact (h.asFunction hf).bind fun f hf => (h.asItems hitems).bind fun items hitems =>
      (hev.mapItems hf hitems).bind fun _ hvs => .newList hvs
  | case18 =>
    exact (h.asInt64 _).bind fun index _ => (h.asSequence hargs.2.1).bind fun _ helements =>
      elementAt h index helements
  | case19 =>
    exact (h.asFunction hargs.1).bind fun f hf =>
      hev.invoke f _ hf (meetsAll_spliced hargs.2)
  | case20 => exact (h.asString _).bind fun text _ => h.read text
  | case21 => exact h.fail nofun

theorem bindAll (scope : ScopeId) : ∀ {names : List String} {values : List Expr},
    (∀ name ∈ names, r.name name) → Expr.MeetsAll r values →
      (Evaluator.bindAll scope names values).Upholds r fun _ => True
  | _ :: _, _ :: _, hnames, hvalues => by
    obtain ⟨hname, hrest⟩ := List.forall_mem_cons.mp hnames
    exact (StoreM.Upholds.bindName hname hvalues.1).bind fun _ _ => bindAll scope hrest hvalues.2
  | [], _, _, _ => .pure trivial
  | _ :: _, [], _, _ => .pure trivial

theorem requireLive (h : r.Regular embedding) (ambient : ScopeId) :
    (Evaluator.requireLive ambient).Upholds r fun _ => True := by
  refine StoreM.Upholds.get.bind fun s _ => ?_
  split
  · exact .pure trivial
  · exact h.fail nofun

theorem runNative (hev : ev.Upholds r) (h : r.Regular embedding) {f : Native} (hf : r.native f)
    {args : List Expr} (hargs : Expr.MeetsAll r args)
    (hnumbers : ∀ b, f.code = .builtin b → ∀ d, b.Reduces args d → r.number (.reduce d)) :
    (Evaluator.runNative embedding ev args f.code).Upholds r (Expr.Meets r) := by
  cases hcode : f.code with
  | builtin b => exact hev.runBuiltin h hargs (hnumbers b hcode)
  | eval ambient =>
    rcases args with _ | ⟨e, _ | ⟨_, _⟩⟩
    · exact h.fail nofun
    · exact (requireLive h ambient).bind fun _ _ => hev.eval ambient e hargs.1
    · exact h.fail nofun
  | exec ambient =>
    rcases args with _ | ⟨e, _ | ⟨_, _⟩⟩
    · exact h.fail nofun
    · exact (h.asString e).bind fun text _ => (requireLive h ambient).bind fun _ _ =>
        (h.read text).bind fun e he => hev.eval ambient e he
    · exact h.fail nofun
  | embedded key => exact h.embedded f key hf hcode ev.invoke hev.invoke args hargs

/-- The value of a host function is made of what the function gives. -/
theorem runHost (h : r.Regular embedding) {f : HostFunction} (hf : r.host f) {args : List Expr}
    (hargs : Expr.MeetsAll r args) {s : Store} (hs : s.Meets r)
    (hnumbers : ∀ v, ((embedding.hosted f args).runOn s).1 = .ok v →
      ∀ d ∈ v.decimals, r.number (.reduce d)) :
    ((embedding.runHost f args).runOn s).2.Meets r ∧
      r.Allows (Expr.Meets r) ((embedding.runHost f args).runOn s).1 := by
  obtain ⟨hstore, hend⟩ := h.hosted f hf args hargs s hs
  rw [embedding.runHost_eq, StoreM.runOn_bind]
  rcases hrun : (embedding.hosted f args).runOn s with ⟨stop | v, next⟩
  · rw [hrun] at hstore hend
    refine ⟨hstore, ?_⟩
    cases stop with
    | error e => exact hend
    | exhausted => exact trivial
  · rw [hrun] at hstore hend hnumbers
    exact StoreM.Upholds.toExpr hend (hnumbers v rfl) next hstore

/-- **One step of a call** upholds the requirement, if the numbers do that it reduces. -/
theorem invokeStep (hev : ev.Upholds r) (h : r.Regular embedding) {f : Expr} {args : List Expr}
    (hf : f.Meets r) (hargs : Expr.MeetsAll r args) {s : Store} (hs : s.Meets r)
    (hnumbers : ∀ d, f.Reduces embedding s args d → r.number (.reduce d)) :
    ((ev.invokeStep embedding f args).runOn s).2.Meets r ∧
      r.Allows (Expr.Meets r) ((ev.invokeStep embedding f args).runOn s).1 := by
  cases f with
  | native ref n =>
    have hstep : (ev.invokeStep embedding (.native ref n) args).Upholds r (Expr.Meets r) :=
      (h.expect n.arity args).bind fun _ _ =>
        hev.runNative h hf hargs fun _ hcode d hd => hnumbers d (.builtin hcode hd)
    exact hstep s hs
  | closure ref params body captured =>
    obtain ⟨hparams, hbody⟩ := hf
    have hstep : (ev.invokeStep embedding (.closure ref params body captured) args).Upholds r
        (Expr.Meets r) :=
      (h.expect _ args).bind fun _ _ =>
        (StoreM.Upholds.newScope captured).bind fun scope _ =>
          (bindAll scope (h.param params hparams) hargs).bind fun _ _ =>
            hev.evalSequence scope hbody
    exact hstep s hs
  | host ref f => exact runHost h hf hargs hs fun v hv d hd => hnumbers d (.host hv hd)
  | symbol | list | array | atom =>
    exact StoreM.Upholds.fail (P := Expr.Meets r) (h.raised _ (by nofun)) s hs

end Evaluator.Upholds

/-! ## Runs -/

variable {embedding : Embedding}

/-- **Evaluation upholds a stable requirement** however deep it nests. -/
theorem upholds_within (h : r.Stable embedding) (depth : Nat) :
    Evaluator.Upholds r ⟨evalWithin embedding depth, invokeWithin embedding depth⟩ := by
  induction depth with
  | zero => exact ⟨fun _ _ _ => .exhausted, fun _ _ _ _ => .exhausted⟩
  | succ depth ih =>
    exact ⟨fun scope _ he => ih.evalStep h.toRegular scope he, fun _ _ hf hargs _ hs =>
      ih.invokeStep h.toRegular hf hargs hs fun d _ => h.reduced d⟩

/-- What is not started where it would reduce a decimal of some kind need not be upheld there. -/
theorem StoreM.Upholds.sparing {kind : Decimal → Prop} {f : Expr} {args : List Expr}
    {m : StoreM Expr} {P : Expr → Prop}
    (h : ∀ s : Store, s.Meets r → (∀ d, f.Reduces embedding s args d → ¬ kind d) →
      (m.runOn s).2.Meets r ∧ r.Allows P (m.runOn s).1) :
    (StoreM.sparing embedding kind f args m).Upholds r P := by
  intro s hs
  by_cases hstop : ∃ d, f.Reduces embedding s args d ∧ kind d
  · rw [runOn_sparing hstop]
    exact ⟨hs, trivial⟩
  · have hall : ∀ d, f.Reduces embedding s args d → ¬ kind d :=
      fun d hd hkind => hstop ⟨d, hd, hkind⟩
    rw [runOn_sparing_of_not hall]
    exact h s hs hall

/--
Evaluation that stops instead of reducing a decimal of some kind upholds a regular requirement
that is met by what all others are reduced to.
-/
theorem upholds_stopping (h : r.Regular embedding) (kind : Decimal → Prop)
    (hnumbers : ∀ d, ¬ kind d → r.number (.reduce d)) (depth : Nat) :
    Evaluator.Upholds r
      ⟨evalStopping embedding kind depth, invokeStopping embedding kind depth⟩ := by
  induction depth with
  | zero => exact ⟨fun _ _ _ => .exhausted, fun _ _ _ _ => .exhausted⟩
  | succ depth ih =>
    exact ⟨fun scope _ he => ih.evalStep h scope he, fun _ _ hf hargs => .sparing
      fun _ hs hall => ih.invokeStep h hf hargs hs fun d hd => hnumbers d (hall d hd)⟩

end ExactLisp
