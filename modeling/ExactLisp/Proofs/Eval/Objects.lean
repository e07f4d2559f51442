import ExactLisp.Proofs.Eval.Tracking
import ExactLisp.Proofs.Store.Forest

/-!
# What references stand for

A reference is handed out once, for one object, and objects do not change. So there is a record
of what each reference stands for, which evaluation only adds to, and every part of every value
that carries a reference is what the record has for it (`records_within`).

The record is not part of the store. It is what is known at a time (`Record.tracking`): for any
record that describes the store before a computation, there is one with more in it that describes
the store and the value after it. What was known by the earlier record stays true by the later one.

Of what the embedding program supplies it has to be assumed that it, too, takes a reference for
one object only, and makes up no object with a reference that it was not given
(`Embedding.Records`).
-/

namespace ExactLisp

/-! ## Records -/

/-- What the references that have been handed out stand for. -/
abbrev Record := Ref → Option Expr

variable {H K L : Record}

/-- Whether a record has all that another one has. -/
def Record.GrowsTo (H K : Record) : Prop := ∀ ref e, H ref = some e → K ref = some e

theorem Record.GrowsTo.refl : H.GrowsTo H := fun _ _ h => h

theorem Record.GrowsTo.trans (h : H.GrowsTo K) (h' : K.GrowsTo L) : H.GrowsTo L :=
  fun ref e he => h' ref e (h ref e he)

/-- Whether an atom is what the record has for its reference, if it has one. -/
def Atom.Recorded (H : Record) : Atom → Prop
  | .str ref s => H ref = some (.atom (.str ref s))
  | .null | .bool _ | .number _ | .object _ => True

theorem Atom.Recorded.mono {a : Atom} (hk : H.GrowsTo K) (h : a.Recorded H) : a.Recorded K := by
  cases a with
  | str ref s => exact hk ref _ h
  | _ => exact trivial

namespace Expr

mutual

/-- Whether every part of a value is what the record has for its reference. -/
def Recorded (H : Record) : Expr → Prop
  | symbol _ => True
  | list ref items => H ref = some (.list ref items) ∧ RecordedAll H items
  | array ref elements => H ref = some (.array ref elements) ∧ ∀ a ∈ elements.atoms, a.Recorded H
  | atom a => a.Recorded H
  | native ref f => H ref = some (.native ref f)
  | closure ref params body scope =>
    H ref = some (.closure ref params body scope) ∧ RecordedAll H body
  | host ref f => H ref = some (.host ref f)

/-- Whether every part of some values is what the record has for its reference. -/
def RecordedAll (H : Record) : List Expr → Prop
  | [] => True
  | e :: rest => e.Recorded H ∧ RecordedAll H rest

end

theorem recordedAll_iff {es : List Expr} : RecordedAll H es ↔ ∀ e ∈ es, e.Recorded H := by
  induction es with
  | nil => simp [RecordedAll]
  | cons e rest ih => rw [RecordedAll, ih, List.forall_mem_cons]

mutual

theorem Recorded.mono (hk : H.GrowsTo K) : ∀ {e : Expr}, e.Recorded H → e.Recorded K
  | .symbol _, _ => trivial
  | .list .., h => ⟨hk _ _ h.1, RecordedAll.mono hk h.2⟩
  | .array .., h => ⟨hk _ _ h.1, fun a ha => (h.2 a ha).mono hk⟩
  | .atom _, h => Atom.Recorded.mono hk h
  | .native .., h => hk _ _ h
  | .closure .., h => ⟨hk _ _ h.1, RecordedAll.mono hk h.2⟩
  | .host .., h => hk _ _ h

theorem RecordedAll.mono (hk : H.GrowsTo K) : ∀ {es : List Expr}, RecordedAll H es →
    RecordedAll K es
  | [], _ => trivial
  | _ :: _, h => ⟨h.1.mono hk, h.2.mono hk⟩

end

end Expr

namespace HostValue

mutual

/-- Whether every part of a host value is what the record has for its reference. -/
def Recorded (H : Record) : HostValue → Prop
  | list items => RecordedAll H items
  | array elements => ∀ a ∈ elements.atoms, a.Recorded H
  | function f => f.Recorded H
  | null | bool _ | int _ | float _ | decimal _ | str _ | object _ => True

/-- Whether every part of some host values is what the record has for its reference. -/
def RecordedAll (H : Record) : List HostValue → Prop
  | [] => True
  | v :: rest => v.Recorded H ∧ RecordedAll H rest

end

theorem recordedAll_iff {vs : List HostValue} : RecordedAll H vs ↔ ∀ v ∈ vs, v.Recorded H := by
  induction vs with
  | nil => simp [RecordedAll]
  | cons v rest ih => rw [RecordedAll, ih, List.forall_mem_cons]

theorem recorded_ofAtom (a : Atom) : (ofAtom a).Recorded H := by
  match a with
  | .number (.int _) | .number (.float _) | .number (.big _) => exact trivial
  | .null | .bool _ | .str .. | .object _ => exact trivial

mutual

/-- A host value has only parts of the expression that it stands for. -/
theorem recorded_ofExpr : ∀ {e : Expr}, e.Recorded H → (ofExpr e).Recorded H
  | .symbol _, _ => trivial
  | .list .., h => recordedAll_ofExprs h.2
  | .array .., h => h.2
  | .atom a, _ => recorded_ofAtom a
  | .native .., h | .closure .., h | .host .., h => h

theorem recordedAll_ofExprs : ∀ {es : List Expr}, Expr.RecordedAll H es →
    RecordedAll H (ofExprs es)
  | [], _ => trivial
  | _ :: _, h => ⟨recorded_ofExpr h.1, recordedAll_ofExprs h.2⟩

end

end HostValue

/-- Whether a record is about a store: about its references, and about all that is bound. -/
structure Record.Describes (H : Record) (s : Store) : Prop where
  /-- No reference is in the record before it is handed out. -/
  taken : ∀ ref e, H ref = some e → ref < s.nextRef
  bound : ∀ (scope : ScopeId) (name : String) (value : Expr),
    (s.ownBindings scope)[name]? = some value → value.Recorded H

namespace Record.Describes

variable {s : Store}

theorem bind (h : H.Describes s) (id : ScopeId) (name : String) {value : Expr}
    (hv : value.Recorded H) : H.Describes (s.bind id name value) where
  taken := h.taken
  bound scope other v hfound := by
    rcases Store.getElem?_ownBindings_bind hfound with ⟨-, rfl⟩ | hbefore
    · exact hv
    · exact h.bound scope other v hbefore

theorem newScope (h : H.Describes s) (parent : Option ScopeId) :
    H.Describes (s.newScope parent).2 where
  taken := h.taken
  bound scope name v hfound := by
    rw [Store.ownBindings_newScope_all] at hfound
    exact h.bound scope name v hfound

theorem get (h : H.Describes s) {id : ScopeId} {name : String} {value : Expr}
    (hget : s.get id name = .ok value) : value.Recorded H := by
  rw [Store.get] at hget
  split at hget
  next v hlookup =>
    cases hget
    obtain ⟨scope, -, hfound⟩ := List.exists_of_findSome?_eq_some hlookup
    exact h.bound scope name _ hfound
  · cases hget

/-- With its next reference, a store hands out one that can be taken for any object. -/
theorem exists_record (h : H.Describes s) (make : Ref → Expr) :
    ∃ K : Record, H.GrowsTo K ∧ K.Describes s.fresh.2 ∧ K s.fresh.1 = some (make s.fresh.1) := by
  have hgrows : H.GrowsTo fun ref => if ref = s.nextRef then some (make ref) else H ref := by
    intro ref e he
    dsimp only
    rw [if_neg (Nat.ne_of_lt (h.taken ref e he)), he]
  refine ⟨_, hgrows, ⟨fun ref e he => ?_, fun scope name v hfound => ?_⟩, if_pos rfl⟩
  · change ref < s.nextRef + 1
    split at he
    next hnew => exact Nat.lt_succ_of_le (Nat.le_of_eq hnew)
    · exact Nat.lt_succ_of_lt (h.taken ref e he)
  · exact (h.bound scope name v hfound).mono hgrows

end Record.Describes

/-! ## Computations -/

/--
Whether a computation takes references for one object each: there is a record after it that has
all that there was before, and describes the store and the value that there are then.
-/
def StoreM.Records {α : Type} (H : Record) (m : StoreM α) (P : Record → α → Prop) : Prop :=
  ∀ K, H.GrowsTo K → ∀ s : Store, K.Describes s →
    ∃ L, K.GrowsTo L ∧ L.Describes (m.runOn s).2 ∧ ∀ a, (m.runOn s).1 = .ok a → P L a

namespace Record

theorem Describes.release {s : Store} (h : H.Describes s) (scope : ScopeId) :
    H.Describes (s.release scope) where
  taken := h.taken
  bound i name value hfound := by
    rw [Store.ownBindings_release] at hfound
    exact h.bound i name value hfound

/-- What is known of values at a time: that the record has their objects. -/
def worlds : Worlds Record where
  GrowsTo := GrowsTo
  Describes := Describes
  scope _ _ := True
  value := Expr.Recorded
  hostValue := HostValue.Recorded

theorem values_worlds {es : List Expr} : worlds.Values H es ↔ Expr.RecordedAll H es :=
  Worlds.values_iff.trans Expr.recordedAll_iff.symm

theorem hostValues_worlds {vs : List HostValue} :
    worlds.HostValues H vs ↔ HostValue.RecordedAll H vs :=
  Worlds.hostValues_iff.trans HostValue.recordedAll_iff.symm

theorem code_worlds : ∀ code : NativeCode, worlds.Code H code
  | .eval _ | .exec _ | .builtin _ | .embedded _ => trivial

/-- Of recorded parts, an object is recorded if the record has it for its reference. -/
theorem recorded_of_makes {make : Ref → Expr} (hmake : worlds.Makes H make) (hk : H.GrowsTo K)
    {ref : Ref} (hnew : K ref = some (make ref)) : (make ref).Recorded K := by
  cases hmake with
  | list hitems => exact ⟨hnew, (values_worlds.mp hitems).mono hk⟩
  | array helements => exact ⟨hnew, fun a ha => (helements a ha : a.Recorded H).mono hk⟩
  | closure _ hbody => exact ⟨hnew, (values_worlds.mp hbody).mono hk⟩
  | str | native | host => exact hnew

/-- A store that is still described by the record. -/
theorem leadsTo_of_describes {s : Store} (hs : H.Describes s) : worlds.LeadsTo H s fun _ => True :=
  ⟨H, .refl, hs, trivial⟩

/-- **What references stand for is followed** by recording every new object. -/
def tracking : Tracking Record where
  toWorlds := worlds
  refl _ := .refl
  trans := .trans
  scope_mono _ _ := trivial
  value_mono hk h := h.mono hk
  symbol _ _ := trivial
  plain H a h := by
    cases a with
    | str ref s => exact absurd rfl (h ref s)
    | null | bool | number | object => exact trivial
  items h := values_worlds.mpr h.2
  elements h := h.2
  native _ := code_worlds _
  closure h := ⟨trivial, values_worlds.mpr h.2⟩
  ofExpr h := HostValue.recorded_ofExpr h
  hostItems h := hostValues_worlds.mpr h
  hostElements h := h
  hostFunction h := h
  get hs hget := hs.get hget
  object {H s make} hs hmake := by
    obtain ⟨K, hk, hafter, hnew⟩ := hs.exists_record make
    exact ⟨K, hk, hafter, recorded_of_makes hmake hk hnew⟩
  bind hs he id name := leadsTo_of_describes (hs.bind id name he)
  newScope {H s parent} hs _ := ⟨H, .refl, hs.newScope parent, trivial⟩
  release hs id := leadsTo_of_describes (hs.release id)
  setCells hs _ := leadsTo_of_describes ⟨hs.taken, hs.bound⟩

end Record

/-- To take references for one object each is to be followed. -/
theorem StoreM.records_iff {α : Type} {m : StoreM α} {P : Record → α → Prop} :
    m.Records H P ↔ m.Tracks Record.tracking H P :=
  Iff.rfl

/-! ## What the embedding program supplies -/

/--
Whether what the embedding program supplies takes references for one object each. Its native
operations may make objects as evaluation does, and call the functions that they are given. A
host operation cannot do that, but it may give back arrays and functions that are in its
arguments.
-/
structure Embedding.Records (embedding : Embedding) : Prop where
  native : ∀ operation ∈ embedding.natives, ∀ invoke : Invoke,
    (∀ {H f args}, Expr.Recorded H f → Expr.RecordedAll H args →
      (invoke f args).Records H Expr.Recorded) →
    ∀ H args, Expr.RecordedAll H args → (operation.run invoke args).Records H Expr.Recorded
  host : ∀ operation ∈ embedding.hosts, ∀ H receiver args cells v,
    HostValue.RecordedAll H args →
    ((operation.run receiver args).run.run cells).1 = .ok v → v.Recorded H
  install : ∀ (scope : ScopeId) (s : Store) (H : Record), H.Describes s →
    ∃ K : Record, H.GrowsTo K ∧ K.Describes (embedding.install scope s)

/-- What takes references for one object each is followed. -/
theorem Embedding.Records.admits {embedding : Embedding} (h : embedding.Records) :
    Record.tracking.Admits embedding where
  native operation hmem invoke hinvoke {H args} hargs := by
    have hrecords : ∀ {H f args}, Expr.Recorded H f → Expr.RecordedAll H args →
        (invoke f args).Records H Expr.Recorded :=
      fun hf hargs => StoreM.records_iff.mpr (hinvoke hf (Record.values_worlds.mpr hargs))
    have hargs := Record.values_worlds.mp hargs
    exact StoreM.records_iff.mp (h.native operation hmem invoke hrecords H args hargs)
  host operation hmem {H receiver args cells v} hargs hv :=
    h.host operation hmem H _ _ _ _ (Record.hostValues_worlds.mp hargs) hv
  install {H s scope} hs _ := by
    obtain ⟨K, hk, hafter⟩ := h.install scope s H hs
    exact ⟨K, hk, hafter, trivial⟩

/-! ## Evaluation -/

/-- Whether evaluation takes references for one object each, and calls do. -/
structure Evaluator.Records (ev : Evaluator) : Prop where
  eval : ∀ {H scope e}, Expr.Recorded H e → (ev.eval scope e).Records H Expr.Recorded
  invoke : ∀ {H f args}, Expr.Recorded H f → Expr.RecordedAll H args →
    (ev.invoke f args).Records H Expr.Recorded

/-- **Evaluation takes references for one object each**, however it ends. -/
theorem records_within {embedding : Embedding} (h : embedding.Records) (depth : Nat) :
    Evaluator.Records ⟨evalWithin embedding depth, invokeWithin embedding depth⟩ where
  eval he := StoreM.records_iff.mpr <|
    (Record.tracking.tracks_within h.admits depth).eval trivial he
  invoke hf hargs := StoreM.records_iff.mpr <|
    (Record.tracking.tracks_within h.admits depth).invoke hf (Record.values_worlds.mpr hargs)

end ExactLisp
