import ExactLisp.Proofs.Eval.Upheld

/-!
# Renaming objects

Two runs of one program that hand out different references to their new objects end alike,
but for the names of the objects. A `Renaming` says which object of one run is which object
of the other. It pairs every object off with at most one, so identity and equality come out
the same on both sides (`Expr.Renames.identical_eq`, `Expr.Renames.beq_eq`), and so does all
text, which shows no references (`Expr.Renames.text_eq`).

Renamings grow as objects are made (`Renaming.Extends`). A new pair is made only of new
objects: what has no partner yet, because it was made in one of the two runs ahead of time,
does not get one by accident.
-/

namespace ExactLisp

/-- Which objects of one run are which objects of another. -/
structure Renaming where
  rel : Ref → Ref → Prop
  /-- The reference that the next new object gets in the one run. -/
  left : Ref
  /-- The reference that it gets in the other. -/
  right : Ref
  lt : ∀ {a b : Ref}, rel a b → a < left ∧ b < right
  unique : ∀ {a b c d : Ref}, rel a b → rel c d → (a = c ↔ b = d)

namespace Renaming

/-- Every object is the same in both runs. -/
def below (n : Ref) : Renaming where
  rel a b := a = b ∧ a < n
  left := n
  right := n
  lt := by
    rintro a b ⟨rfl, h⟩
    exact ⟨h, h⟩
  unique := by
    rintro a b c d ⟨rfl, -⟩ ⟨rfl, -⟩
    rfl

/-- The two runs with their roles exchanged. -/
def symm (w : Renaming) : Renaming where
  rel a b := w.rel b a
  left := w.right
  right := w.left
  lt h := ⟨(w.lt h).2, (w.lt h).1⟩
  unique h h' := (w.unique h h').symm

/-- No object of the one run is one of the other. -/
def none (left right : Ref) : Renaming where
  rel _ _ := False
  left := left
  right := right
  lt h := h.elim
  unique h := h.elim

/-- Some references are skipped in one of the two runs, or in both. -/
def widen (w : Renaming) (left right : Ref) (hleft : w.left ≤ left) (hright : w.right ≤ right) :
    Renaming where
  rel := w.rel
  left := left
  right := right
  lt h := ⟨Nat.lt_of_lt_of_le (w.lt h).1 hleft, Nat.lt_of_lt_of_le (w.lt h).2 hright⟩
  unique := w.unique

/-- Two renamings of different objects put together. -/
def join (w v : Renaming) {left right : Ref} (hw : w.left ≤ left ∧ w.right ≤ right)
    (hv : v.left ≤ left ∧ v.right ≤ right)
    (hdisjoint : ∀ {a b c d : Ref}, w.rel a b → v.rel c d → a ≠ c ∧ b ≠ d) : Renaming where
  rel a b := w.rel a b ∨ v.rel a b
  left := left
  right := right
  lt := by
    rintro a b (h | h)
    · exact ⟨Nat.lt_of_lt_of_le (w.lt h).1 hw.1, Nat.lt_of_lt_of_le (w.lt h).2 hw.2⟩
    · exact ⟨Nat.lt_of_lt_of_le (v.lt h).1 hv.1, Nat.lt_of_lt_of_le (v.lt h).2 hv.2⟩
  unique := by
    rintro a b c d (h | h) (h' | h')
    · exact w.unique h h'
    · exact iff_of_false (hdisjoint h h').1 (hdisjoint h h').2
    · exact iff_of_false (hdisjoint h' h).1.symm (hdisjoint h' h).2.symm
    · exact v.unique h h'

/-- A new object in both runs. -/
def fresh (w : Renaming) : Renaming where
  rel a b := w.rel a b ∨ (a = w.left ∧ b = w.right)
  left := w.left + 1
  right := w.right + 1
  lt := by
    rintro a b (h | ⟨rfl, rfl⟩)
    · exact ⟨Nat.lt_succ_of_lt (w.lt h).1, Nat.lt_succ_of_lt (w.lt h).2⟩
    · exact ⟨Nat.lt_succ_self _, Nat.lt_succ_self _⟩
  unique := by
    rintro a b c d (h | ⟨rfl, rfl⟩) (h' | ⟨rfl, rfl⟩)
    · exact w.unique h h'
    · exact iff_of_false (Nat.ne_of_lt (w.lt h).1) (Nat.ne_of_lt (w.lt h).2)
    · exact iff_of_false (Nat.ne_of_gt (w.lt h').1) (Nat.ne_of_gt (w.lt h').2)
    · exact iff_of_true rfl rfl

/-- A renaming that has grown: its new pairs are of objects that are new in both runs. -/
structure Extends (w w' : Renaming) : Prop where
  rel : ∀ {a b : Ref}, w.rel a b → w'.rel a b
  left : w.left ≤ w'.left
  right : w.right ≤ w'.right
  new : ∀ {a b : Ref}, w'.rel a b → w.rel a b ∨ (w.left ≤ a ∧ w.right ≤ b)

instance : LE Renaming := ⟨Extends⟩

theorem extends_refl (w : Renaming) : w ≤ w :=
  ⟨id, Nat.le_refl _, Nat.le_refl _, Or.inl⟩

theorem extends_trans {w w' w'' : Renaming} (h : w ≤ w') (h' : w' ≤ w'') : w ≤ w'' where
  rel hab := h'.rel (h.rel hab)
  left := Nat.le_trans h.left h'.left
  right := Nat.le_trans h.right h'.right
  new hab := by
    rcases h'.new hab with hold | ⟨ha, hb⟩
    · exact h.new hold
    · exact Or.inr ⟨Nat.le_trans h.left ha, Nat.le_trans h.right hb⟩

theorem extends_symm {w w' : Renaming} (h : w ≤ w') : w.symm ≤ w'.symm :=
  ⟨h.rel, h.right, h.left, fun hab => (h.new hab).imp id And.symm⟩

theorem extends_fresh (w : Renaming) : w ≤ w.fresh where
  rel := Or.inl
  left := Nat.le_succ _
  right := Nat.le_succ _
  new := by
    rintro a b (h | ⟨rfl, rfl⟩)
    · exact Or.inl h
    · exact Or.inr ⟨Nat.le_refl _, Nat.le_refl _⟩

theorem rel_fresh (w : Renaming) : w.fresh.rel w.left w.right := Or.inr ⟨rfl, rfl⟩

/-- Whether two references are one is the same in both runs. -/
theorem beq_eq {w : Renaming} {a b c d : Ref} (h : w.rel a b) (h' : w.rel c d) :
    (a == c) = (b == d) := by
  rw [Bool.eq_iff_iff, beq_iff_eq, beq_iff_eq]
  exact w.unique h h'

end Renaming

variable {w w' : Renaming}

/-! ## Values -/

/-- Whether two atoms are the same but for the names of objects. -/
inductive Atom.Renames (w : Renaming) : Atom → Atom → Prop
  | null : Renames w .null .null
  | bool (b : Bool) : Renames w (.bool b) (.bool b)
  | number (n : Number) : Renames w (.number n) (.number n)
  | str {a b : Ref} (s : String) : w.rel a b → Renames w (.str a s) (.str b s)
  | object (o : HostObject) : Renames w (.object o) (.object o)

/-- Whether two arrays keep in one way what is the same but for the names of objects. -/
structure Elements.Renames (w : Renaming) (as bs : Elements) : Prop where
  kind : Expr.arrayKind as = Expr.arrayKind bs
  atoms : List.Forall₂ (Atom.Renames w) as.atoms bs.atoms

namespace Expr

mutual

/-- Whether two expressions are the same but for the names of objects. -/
inductive Renames (w : Renaming) : Expr → Expr → Prop
  | symbol (name : String) : Renames w (.symbol name) (.symbol name)
  | list {a b : Ref} {items items' : List Expr} :
    w.rel a b → RenamesAll w items items' → Renames w (.list a items) (.list b items')
  | array {a b : Ref} {elements elements' : Elements} :
    w.rel a b → elements.Renames w elements' → Renames w (.array a elements) (.array b elements')
  | atom {a b : Atom} : a.Renames w b → Renames w (.atom a) (.atom b)
  | native {a b : Ref} (f : Native) : w.rel a b → Renames w (.native a f) (.native b f)
  | closure {a b : Ref} (params : List String) {body body' : List Expr} (scope : ScopeId) :
    w.rel a b → RenamesAll w body body' →
      Renames w (.closure a params body scope) (.closure b params body' scope)
  | host {a b : Ref} (f : HostFunction) : w.rel a b → Renames w (.host a f) (.host b f)

/-- Whether two lists of expressions are the same but for the names of objects. -/
inductive RenamesAll (w : Renaming) : List Expr → List Expr → Prop
  | nil : RenamesAll w [] []
  | cons {e e' : Expr} {es es' : List Expr} :
    Renames w e e' → RenamesAll w es es' → RenamesAll w (e :: es) (e' :: es')

end

end Expr

namespace HostValue

mutual

/-- Whether two host values are the same but for the names of objects. -/
inductive Renames (w : Renaming) : HostValue → HostValue → Prop
  | null : Renames w .null .null
  | bool (b : Bool) : Renames w (.bool b) (.bool b)
  | int (n : Int64) : Renames w (.int n) (.int n)
  | float (x : Float) : Renames w (.float x) (.float x)
  | decimal (d : Decimal) : Renames w (.decimal d) (.decimal d)
  | str (s : String) : Renames w (.str s) (.str s)
  | list {items items' : List HostValue} :
    RenamesAll w items items' → Renames w (.list items) (.list items')
  | array {elements elements' : Elements} :
    elements.Renames w elements' → Renames w (.array elements) (.array elements')
  | object (o : HostObject) : Renames w (.object o) (.object o)
  | function {f f' : Expr} : f.Renames w f' → Renames w (.function f) (.function f')

/-- Whether two lists of host values are the same but for the names of objects. -/
inductive RenamesAll (w : Renaming) : List HostValue → List HostValue → Prop
  | nil : RenamesAll w [] []
  | cons {v v' : HostValue} {vs vs' : List HostValue} :
    Renames w v v' → RenamesAll w vs vs' → RenamesAll w (v :: vs) (v' :: vs')

end

end HostValue

/-! ### What does not depend on names -/

namespace Atom.Renames

variable {a a' b b' : Atom}

theorem mono (hw : ∀ {x y}, w.rel x y → w'.rel x y) (h : a.Renames w b) : a.Renames w' b := by
  cases h with
  | str s h => exact .str s (hw h)
  | null => exact .null
  | bool b => exact .bool b
  | number n => exact .number n
  | object o => exact .object o

theorem symm (h : a.Renames w b) : b.Renames w.symm a := by
  cases h with
  | str s h => exact .str s h
  | null => exact .null
  | bool b => exact .bool b
  | number n => exact .number n
  | object o => exact .object o

theorem text_eq (h : a.Renames w b) : a.text = b.text := by
  cases h <;> rfl

theorem number?_eq (h : a.Renames w b) : a.number? = b.number? := by
  cases h <;> rfl

theorem beq_eq (ha : a.Renames w a') (hb : b.Renames w b') : (a == b) = (a' == b') := by
  cases ha <;> cases hb <;> rfl

theorem identical_eq (ha : a.Renames w a') (hb : b.Renames w b') :
    a.identical b = a'.identical b' := by
  cases ha with
  | str s ha =>
    cases hb with
    | str s' hb => exact Renaming.beq_eq ha hb
    | _ => rfl
  | _ => cases hb <;> rfl

theorem map_eq {α : Type} {f : Atom → α} (hf : ∀ {a b}, a.Renames w b → f a = f b) :
    ∀ {as bs : List Atom}, List.Forall₂ (Atom.Renames w) as bs → as.map f = bs.map f
  | _, _, .nil => rfl
  | _, _, .cons h hs => by rw [List.map_cons, List.map_cons, hf h, map_eq hf hs]

theorem beqAll_eq : ∀ {as as' bs bs' : List Atom}, List.Forall₂ (Atom.Renames w) as as' →
    List.Forall₂ (Atom.Renames w) bs bs' → (as == bs) = (as' == bs')
  | _, _, _, _, .nil, .nil | _, _, _, _, .nil, .cons .. | _, _, _, _, .cons .., .nil => rfl
  | _, _, _, _, .cons h hs, .cons h' hs' => by
    rw [List.cons_beq_cons, List.cons_beq_cons, h.beq_eq h', beqAll_eq hs hs']

end Atom.Renames

namespace Elements.Renames

variable {as as' bs bs' : Elements}

theorem mono (hw : ∀ {x y}, w.rel x y → w'.rel x y) (h : as.Renames w bs) : as.Renames w' bs :=
  ⟨h.kind, h.atoms.imp fun _ _ ha => ha.mono hw⟩

theorem symm (h : as.Renames w bs) : bs.Renames w.symm as :=
  ⟨h.kind.symm, h.atoms.flip.imp fun _ _ ha => ha.symm⟩

/-- Arrays that are made of such atoms keep them in one way. -/
theorem of_atoms {as bs : List Atom} (h : List.Forall₂ (Atom.Renames w) as bs) :
    (ofAtoms as).Renames w (ofAtoms bs) where
  kind := by rw [arrayKind_ofAtoms, arrayKind_ofAtoms, Atom.Renames.map_eq (·.number?_eq) h]
  atoms := by rwa [atoms_ofAtoms, atoms_ofAtoms]

theorem map_eq {α : Type} {f : Atom → α} (hf : ∀ {a b}, a.Renames w b → f a = f b)
    (h : as.Renames w bs) : as.map f = bs.map f :=
  Atom.Renames.map_eq hf h.atoms

theorem beq_eq (h : as.Renames w as') (h' : bs.Renames w bs') : (as == bs) = (as' == bs') := by
  rw [Elements.beq_eq, Elements.beq_eq, h.kind, h'.kind, Atom.Renames.beqAll_eq h.atoms h'.atoms]

end Elements.Renames

namespace Expr

mutual

theorem Renames.mono (hw : ∀ {x y}, w.rel x y → w'.rel x y) {e e' : Expr}
    (h : e.Renames w e') : e.Renames w' e' := by
  match h with
  | .symbol name => exact .symbol name
  | .list h hs => exact .list (hw h) (hs.mono hw)
  | .array h hs => exact .array (hw h) (hs.mono hw)
  | .atom h => exact .atom (h.mono hw)
  | .native f h => exact .native f (hw h)
  | .closure params scope h hs => exact .closure params scope (hw h) (hs.mono hw)
  | .host f h => exact .host f (hw h)

theorem RenamesAll.mono (hw : ∀ {x y}, w.rel x y → w'.rel x y) {es es' : List Expr}
    (h : RenamesAll w es es') : RenamesAll w' es es' := by
  match h with
  | .nil => exact .nil
  | .cons h hs => exact .cons (h.mono hw) (hs.mono hw)

end

theorem RenamesAll.widen {left right : Ref} {es es' : List Expr} (h : RenamesAll w es es')
    (hleft : w.left ≤ left) (hright : w.right ≤ right) :
    RenamesAll (w.widen left right hleft hright) es es' := by
  have hrel : ∀ {a b}, w.rel a b → (w.widen left right hleft hright).rel a b := fun hab => hab
  exact h.mono hrel

mutual

theorem Renames.symm {e e' : Expr} (h : e.Renames w e') : e'.Renames w.symm e := by
  match h with
  | .symbol name => exact .symbol name
  | .list h hs => exact .list h hs.symm
  | .array h hs => exact .array h hs.symm
  | .atom h => exact .atom h.symm
  | .native f h => exact .native f h
  | .closure params scope h hs => exact .closure params scope h hs.symm
  | .host f h => exact .host f h

theorem RenamesAll.symm {es es' : List Expr} (h : RenamesAll w es es') :
    RenamesAll w.symm es' es := by
  match h with
  | .nil => exact .nil
  | .cons h hs => exact .cons h.symm hs.symm

end

mutual

theorem Renames.text_eq {e e' : Expr} (h : e.Renames w e') : e.text = e'.text := by
  match h with
  | .symbol _ | .native .. | .closure .. | .host .. => rfl
  | .list _ hs => rw [text, text, hs.texts_eq]
  | .array _ hs => rw [text, text, arrayText, arrayText, hs.map_eq (·.text_eq)]
  | .atom h => exact h.text_eq

theorem RenamesAll.texts_eq {es es' : List Expr} (h : RenamesAll w es es') :
    texts es = texts es' := by
  match h with
  | .nil => rfl
  | .cons h hs => rw [texts, texts, h.text_eq, hs.texts_eq]

end

theorem RenamesAll.length_eq : ∀ {es es' : List Expr}, RenamesAll w es es' →
    es.length = es'.length
  | _, _, .nil => rfl
  | _, _, .cons _ hs => congrArg (· + 1) hs.length_eq

theorem RenamesAll.getElem? {es es' : List Expr} (h : RenamesAll w es es') (i : Nat) :
    Option.Rel (Renames w) es[i]? es'[i]? := by
  match h, i with
  | .nil, _ => exact .none
  | .cons h _, 0 => exact .some h
  | .cons _ hs, i + 1 => exact hs.getElem? i

/-- The elements of two arrays as expressions. -/
theorem RenamesAll.of_elements : ∀ {as bs : List Atom}, List.Forall₂ (Atom.Renames w) as bs →
    RenamesAll w (as.map .atom) (bs.map .atom)
  | _, _, .nil => .nil
  | _, _, .cons h hs => .cons (.atom h) (.of_elements hs)

namespace Renames

variable {a a' b b' e e' : Expr}

theorem isFunction_eq (h : e.Renames w e') : e.isFunction = e'.isFunction := by
  cases h <;> rfl

theorem isTruthy_eq (h : e.Renames w e') : e.isTruthy = e'.isTruthy := by
  cases h with
  | list _ hs => cases hs <;> rfl
  | atom h => cases h <;> rfl
  | _ => rfl

theorem typeName_eq (h : e.Renames w e') : e.typeName = e'.typeName := by
  cases h with
  | atom h => cases h <;> rfl
  | _ => rfl

theorem functionRef? (h : e.Renames w e') :
    Option.Rel w.rel e.functionRef? e'.functionRef? := by
  cases h with
  | native _ h | closure _ _ h _ | host _ h => exact .some h
  | symbol | list | array | atom => exact .none

theorem sameFunction_eq (ha : a.Renames w a') (hb : b.Renames w b') :
    a.sameFunction b = a'.sameFunction b' := by
  have hra := ha.functionRef?
  have hrb := hb.functionRef?
  rw [sameFunction, sameFunction]
  generalize a.functionRef? = ra at hra ⊢
  generalize a'.functionRef? = ra' at hra ⊢
  generalize b.functionRef? = rb at hrb ⊢
  generalize b'.functionRef? = rb' at hrb ⊢
  cases hra with
  | none => rfl
  | some ha =>
    cases hrb with
    | none => rfl
    | some hb => exact Renaming.beq_eq ha hb

theorem identical_eq (ha : a.Renames w a') (hb : b.Renames w b') :
    a.identical b = a'.identical b' := by
  have hfunction := sameFunction_eq ha hb
  cases ha with
  | symbol name => cases hb <;> rfl
  | list h _ =>
    cases hb with
    | list h' _ => exact Renaming.beq_eq h h'
    | _ => rfl
  | array h _ =>
    cases hb with
    | array h' _ => exact Renaming.beq_eq h h'
    | _ => rfl
  | atom h =>
    cases hb with
    | atom h' => exact h.identical_eq h'
    | _ => rfl
  | native | closure | host => exact hfunction

end Renames

mutual

/-- Equality looks at contents, and at the names of functions. -/
theorem Renames.beq_eq {a a' b b' : Expr} (ha : a.Renames w a') (hb : b.Renames w b') :
    Expr.beq a b = Expr.beq a' b' := by
  have hfunction := ha.sameFunction_eq hb
  match ha with
  | .symbol name => cases hb <;> rfl
  | .list _ hs =>
    cases hb with
    | list _ hs' => exact hs.beqAll_eq hs'
    | _ => rfl
  | .array _ hs =>
    cases hb with
    | array _ hs' => exact hs.beq_eq hs'
    | _ => rfl
  | .atom h =>
    cases hb with
    | atom h' => exact h.beq_eq h'
    | _ => rfl
  | .native .. | .closure .. | .host .. => exact hfunction

theorem RenamesAll.beqAll_eq {as as' bs bs' : List Expr} (ha : RenamesAll w as as')
    (hb : RenamesAll w bs bs') : Expr.beqAll as bs = Expr.beqAll as' bs' := by
  match ha, hb with
  | .nil, .nil | .nil, .cons .. | .cons .., .nil => rfl
  | .cons h hs, .cons h' hs' => rw [Expr.beqAll, Expr.beqAll, h.beq_eq h', hs.beqAll_eq hs']

end

end Expr

namespace HostValue

mutual

theorem Renames.mono (hw : ∀ {x y}, w.rel x y → w'.rel x y) {v v' : HostValue}
    (h : v.Renames w v') : v.Renames w' v' := by
  match h with
  | .null => exact .null
  | .bool b => exact .bool b
  | .int n => exact .int n
  | .float x => exact .float x
  | .decimal d => exact .decimal d
  | .str s => exact .str s
  | .list hs => exact .list (hs.mono hw)
  | .array hs => exact .array (hs.mono hw)
  | .object o => exact .object o
  | .function h => exact .function (h.mono hw)

theorem RenamesAll.mono (hw : ∀ {x y}, w.rel x y → w'.rel x y) {vs vs' : List HostValue}
    (h : RenamesAll w vs vs') : RenamesAll w' vs vs' := by
  match h with
  | .nil => exact .nil
  | .cons h hs => exact .cons (h.mono hw) (hs.mono hw)

end

theorem renames_ofAtom {a a' : Atom} (h : a.Renames w a') : (ofAtom a).Renames w (ofAtom a') := by
  cases h with
  | null => exact .null
  | bool b => exact .bool b
  | number n =>
    cases n with
    | int n => exact .int n
    | float x => exact .float x
    | big d => exact .decimal d
  | str s _ => exact .str s
  | object o => exact .object o

mutual

theorem renames_ofExpr {e e' : Expr} (h : e.Renames w e') :
    (ofExpr e).Renames w (ofExpr e') := by
  match h with
  | .symbol name => exact .str name
  | .list _ hs => exact .list (renamesAll_ofExprs hs)
  | .array _ hs => exact .array hs
  | .atom h => exact renames_ofAtom h
  | .native f h => exact .function (.native f h)
  | .closure params scope h hs => exact .function (.closure params scope h hs)
  | .host f h => exact .function (.host f h)

theorem renamesAll_ofExprs {es es' : List Expr} (h : Expr.RenamesAll w es es') :
    RenamesAll w (ofExprs es) (ofExprs es') := by
  match h with
  | .nil => exact .nil
  | .cons h hs => exact .cons (renames_ofExpr h) (renamesAll_ofExprs hs)

end

end HostValue

end ExactLisp
