import ExactLisp.Proofs.Binary64.Bits
import ExactLisp.Proofs.Binary64.Rounding
import ExactLisp.Proofs.Expr.Rereading

/-!
# Equality and identity of values

Equality of values goes by content, and identity by reference where there is one. Both are
symmetric and transitive on all values: decimals are equal if they denote one number
(`Decimal.beq_iff_value`), the two zeros among the floats are equal to each other and to
nothing else, and functions are compared by reference alone. Only NaN differs from itself, so
both are reflexive on the values that do not hold it.

What equality goes by is laid open as a relation that follows the structure of the two values
(`Expr.Alike`).
-/

namespace ExactLisp

/-! ## Numbers -/

namespace Decimal

/-- The number that a decimal denotes. -/
def value (d : Decimal) : ℚ := d.unscaled * 10 ^ (-d.scale)

theorem cast_atScale {d : Decimal} {scale : Int} (h : d.scale ≤ scale) :
    (d.atScale scale : ℚ) = d.value * 10 ^ scale := by
  obtain ⟨k, hk⟩ : ∃ k : Nat, scale - d.scale = k := ⟨(scale - d.scale).toNat, by omega⟩
  have hscale : scale = d.scale + k := by omega
  have hten : (10 : ℚ) ^ d.scale ≠ 0 := by positivity
  rw [atScale, hk, Int.toNat_natCast, value, hscale, zpow_add₀ (by norm_num), zpow_neg,
    zpow_natCast, Int.cast_mul, Int.cast_natCast, Binary64.cast_tenPow]
  field_simp

/-- Decimals are equal exactly if they denote one number. -/
theorem beq_iff_value {a b : Decimal} : (a == b) = true ↔ a.value = b.value := by
  have hten : (10 : ℚ) ^ commonScale a b ≠ 0 := by positivity
  have ha : a.scale ≤ commonScale a b := le_max_left ..
  have hb : b.scale ≤ commonScale a b := le_max_right ..
  calc (a == b) = true ↔ a.atScale (commonScale a b) = b.atScale (commonScale a b) :=
        decide_eq_true_iff
    _ ↔ (a.atScale (commonScale a b) : ℚ) = b.atScale (commonScale a b) := Int.cast_inj.symm
    _ ↔ a.value = b.value := by rw [cast_atScale ha, cast_atScale hb, mul_left_inj' hten]

instance : EquivBEq Decimal where
  rfl := beq_iff_value.mpr rfl
  symm := fun {_ _} h => beq_iff_value.mpr (beq_iff_value.mp h).symm
  trans := fun {_ _ _} h h' => beq_iff_value.mpr ((beq_iff_value.mp h).trans (beq_iff_value.mp h'))

end Decimal

/-- The two zeros apart, floats are equal only if they are the same. -/
instance instPartialEquivBEqFloat : PartialEquivBEq Float where
  symm := fun {_ _} h => by
    rw [Float.beq_iff_ne_nan_and_eq] at h ⊢
    tauto
  trans := fun {_ _ _} h h' => by
    rw [Float.beq_iff_ne_nan_and_eq] at h h' ⊢
    obtain ⟨ha, -, rfl | ⟨rfl, rfl⟩ | ⟨rfl, rfl⟩⟩ := h
    · exact h'
    · exact ⟨ha, h'.2.1, by tauto⟩
    · exact ⟨ha, h'.2.1, by tauto⟩

namespace Number

/-- Whether a number is the float that is none. -/
def isNaN : Number → Bool
  | float x => x.isNaN
  | int _ | big _ => false

theorem isNaN_of_isFinite {x : Float} (h : Binary64.isFinite x = true) :
    (float x).isNaN = false := by
  rw [isNaN, Float.isNaN_eq_decide_eq_nan, decide_eq_false_iff_not]
  exact Float.beq_self_iff.mp (Binary64.beq_self h)

/-- No arithmetic gives NaN. -/
theorem isNaN_reduce (d : Decimal) : (reduce d).isNaN = false := by
  unfold reduce
  split
  · split <;> rfl
  · dsimp only
    split
    next hfinite => exact isNaN_of_isFinite hfinite
    · rfl

theorem beq_self : ∀ {n : Number}, n.isNaN = false → (n == n) = true
  | int k, _ => beq_self_eq_true k
  | float x, h => by
    rw [isNaN, Float.isNaN_eq_decide_eq_nan, decide_eq_false_iff_not] at h
    exact Float.beq_self_iff.mpr h
  | big d, _ => BEq.refl d

instance : PartialEquivBEq Number where
  symm := fun {a b} h =>
    match a, b, h with
    | int m, int n, h => BEq.symm (a := m) (b := n) h
    | float x, float y, h => BEq.symm (a := x) (b := y) h
    | big d, big e, h => BEq.symm (a := d) (b := e) h
  trans := fun {a b c} h h' =>
    match a, b, c, h, h' with
    | int k, int m, int n, h, h' => BEq.trans (a := k) (b := m) (c := n) h h'
    | float x, float y, float z, h, h' => BEq.trans (a := x) (b := y) (c := z) h h'
    | big d, big e, big f, h, h' => BEq.trans (a := d) (b := e) (c := f) h h'

end Number

/-! ## Atoms -/

namespace Atom

theorem beq_self {a : Atom} (h : ∀ n, a = .number n → n.isNaN = false) : (a == a) = true := by
  cases a with
  | null => rfl
  | bool b => exact beq_self_eq_true b
  | number n => exact Number.beq_self (h n rfl)
  | str ref s => exact beq_self_eq_true s
  | object o => exact beq_self_eq_true o.id

instance : PartialEquivBEq Atom where
  symm := fun {a b} h =>
    match a, b, h with
    | null, null, _ => rfl
    | bool a, bool b, h => BEq.symm (a := a) (b := b) h
    | number m, number n, h => BEq.symm (a := m) (b := n) h
    | str _ s, str _ t, h => BEq.symm (a := s) (b := t) h
    | object o, object p, h => BEq.symm (a := o.id) (b := p.id) h
  trans := fun {a b c} h h' =>
    match a, b, c, h, h' with
    | null, null, null, _, _ => rfl
    | bool a, bool b, bool c, h, h' => BEq.trans (a := a) (b := b) (c := c) h h'
    | number k, number m, number n, h, h' => BEq.trans (a := k) (b := m) (c := n) h h'
    | str _ s, str _ t, str _ u, h, h' => BEq.trans (a := s) (b := t) (c := u) h h'
    | object o, object p, object q, h, h' =>
      BEq.trans (a := o.id) (b := p.id) (c := q.id) h h'

end Atom

theorem atoms_beq_self {as : List Atom}
    (h : ∀ n, Atom.number n ∈ as → n.isNaN = false) : (as == as) = true := by
  induction as with
  | nil => rfl
  | cons a rest ih =>
    have ha : (a == a) = true := Atom.beq_self fun n hn => h n (hn ▸ List.mem_cons_self)
    rw [List.cons_beq_cons, ha, ih fun n hn => h n (List.mem_cons_of_mem a hn)]
    rfl

instance : PartialEquivBEq (List Atom) where
  symm := fun {as bs} h => by
    induction as generalizing bs with
    | nil =>
      cases bs with
      | nil => rfl
      | cons => cases h
    | cons a as ih =>
      obtain _ | ⟨b, bs⟩ := bs
      · cases h
      · rw [List.cons_beq_cons, Bool.and_eq_true] at h ⊢
        exact ⟨BEq.symm h.1, ih h.2⟩
  trans := fun {as bs cs} h h' => by
    induction as generalizing bs cs with
    | nil =>
      cases bs with
      | nil => exact h'
      | cons => cases h
    | cons a as ih =>
      obtain _ | ⟨b, bs⟩ := bs
      · cases h
      obtain _ | ⟨c, cs⟩ := cs
      · cases h'
      rw [List.cons_beq_cons, Bool.and_eq_true] at h h' ⊢
      exact ⟨BEq.trans h.1 h'.1, ih h.2 h'.2⟩

namespace Elements

theorem beq_self {elements : Elements}
    (h : ∀ n, .number n ∈ elements.atoms → n.isNaN = false) : (elements == elements) = true := by
  rw [beq_eq, atoms_beq_self h, beq_self_eq_true]
  rfl

instance : PartialEquivBEq Elements where
  symm := fun {as bs} h => by
    rw [beq_eq, Bool.and_eq_true] at h ⊢
    exact ⟨BEq.symm h.1, BEq.symm h.2⟩
  trans := fun {as bs cs} h h' => by
    rw [beq_eq, Bool.and_eq_true] at h h' ⊢
    exact ⟨BEq.trans h.1 h'.1, BEq.trans h.2 h'.2⟩

end Elements

/-! ## Expressions -/

namespace Expr

mutual

/-- What equality of values goes by. -/
inductive Alike : Expr → Expr → Prop
  | symbol (name : String) : Alike (.symbol name) (.symbol name)
  | list {r s : Ref} {as bs : List Expr} : AllAlike as bs → Alike (.list r as) (.list s bs)
  | array {r s : Ref} {as bs : Elements} : (as == bs) = true → Alike (.array r as) (.array s bs)
  | atom {a b : Atom} : (a == b) = true → Alike (.atom a) (.atom b)
  | function {e f : Expr} {r : Ref} :
    e.functionRef? = some r → f.functionRef? = some r → Alike e f

/-- The same for the items of two lists. -/
inductive AllAlike : List Expr → List Expr → Prop
  | nil : AllAlike [] []
  | cons {a b : Expr} {as bs : List Expr} : Alike a b → AllAlike as bs →
    AllAlike (a :: as) (b :: bs)

end

theorem sameFunction_iff {e f : Expr} :
    e.sameFunction f = true ↔ ∃ r, e.functionRef? = some r ∧ f.functionRef? = some r := by
  unfold sameFunction
  split
  next r s he hf => rw [he, hf, beq_iff_eq]; simp [eq_comm]
  next hnot =>
    refine iff_of_false Bool.false_ne_true ?_
    rintro ⟨r, he, hf⟩
    exact hnot r r he hf

/-- Functions are compared as such. -/
theorem beq_function {e : Expr} {r : Ref} (he : e.functionRef? = some r) (f : Expr) :
    Expr.beq e f = e.sameFunction f := by
  cases e with
  | native | closure | host => cases f <;> rfl
  | _ => cases he

theorem identical_function {e : Expr} {r : Ref} (he : e.functionRef? = some r) (f : Expr) :
    e.identical f = e.sameFunction f := by
  cases e with
  | native | closure | host => cases f <;> rfl
  | _ => cases he

mutual

theorem beq_of_alike : ∀ {e f : Expr}, e.Alike f → Expr.beq e f = true
  | _, _, .symbol name => beq_self_eq_true name
  | _, _, .list h => beqAll_of_alike h
  | _, _, .array h => h
  | _, _, .atom h => h
  | _, _, .function he hf => by rw [beq_function he, sameFunction_iff]; exact ⟨_, he, hf⟩

theorem beqAll_of_alike : ∀ {es fs : List Expr}, AllAlike es fs → Expr.beqAll es fs = true
  | _, _, .nil => rfl
  | _, _, .cons h hs => by rw [Expr.beqAll, beq_of_alike h, beqAll_of_alike hs]; rfl

end

mutual

theorem alike_of_beq : ∀ {e f : Expr}, Expr.beq e f = true → e.Alike f
  | .symbol a, .symbol b, h => by
    obtain rfl : a = b := eq_of_beq h
    exact .symbol a
  | .list _ _, .list _ _, h => .list (alike_of_beqAll h)
  | .array _ _, .array _ _, h => .array h
  | .atom _, .atom _, h => .atom h
  | .native .., _, h | .closure .., _, h | .host .., _, h => by
    rw [beq_function rfl, sameFunction_iff] at h
    obtain ⟨r, he, hf⟩ := h
    exact .function he hf

theorem alike_of_beqAll : ∀ {es fs : List Expr}, Expr.beqAll es fs = true → AllAlike es fs
  | [], [], _ => .nil
  | _ :: _, _ :: _, h =>
    let hboth := Bool.and_eq_true_iff.mp h
    .cons (alike_of_beq hboth.1) (alike_of_beqAll hboth.2)

end

theorem alike_iff_beq {e f : Expr} : e.Alike f ↔ (e == f) = true :=
  ⟨beq_of_alike, alike_of_beq⟩

mutual

theorem Alike.symm : ∀ {e f : Expr}, e.Alike f → f.Alike e
  | _, _, .symbol name => .symbol name
  | _, _, .list h => .list h.symm
  | _, _, .array h => .array (BEq.symm h)
  | _, _, .atom h => .atom (BEq.symm h)
  | _, _, .function he hf => .function hf he

theorem AllAlike.symm : ∀ {es fs : List Expr}, AllAlike es fs → AllAlike fs es
  | _, _, .nil => .nil
  | _, _, .cons h hs => .cons h.symm hs.symm

end

mutual

theorem Alike.trans : ∀ {e f g : Expr}, e.Alike f → f.Alike g → e.Alike g
  | _, _, _, .symbol _, h => h
  | _, _, _, .list h, .list h' => .list (h.trans h')
  | _, _, _, .array h, .array h' => .array (BEq.trans h h')
  | _, _, _, .atom h, .atom h' => .atom (BEq.trans h h')
  | _, _, _, .function he hf, .function hf' hg => by
    obtain rfl := Option.some.inj (hf.symm.trans hf')
    exact .function he hg

theorem AllAlike.trans : ∀ {es fs gs : List Expr}, AllAlike es fs → AllAlike fs gs →
    AllAlike es gs
  | _, _, _, .nil, h => h
  | _, _, _, .cons h hs, .cons h' hs' => .cons (h.trans h') (hs.trans hs')

end

/-- **Equality is symmetric and transitive** on all values. -/
instance : PartialEquivBEq Expr where
  symm := fun {_ _} h => alike_iff_beq.mp (alike_iff_beq.mpr h).symm
  trans := fun {_ _ _} h h' => alike_iff_beq.mp ((alike_iff_beq.mpr h).trans (alike_iff_beq.mpr h'))

/-- Whether a value holds no NaN, in whatever part of it. -/
def NaNFree (e : Expr) : Prop := ∀ n, e.Holds n → n.isNaN = false

mutual

theorem NaNFree.alike_self : ∀ {e : Expr}, e.NaNFree → e.Alike e
  | .symbol name, _ => .symbol name
  | .list .., h => .list (alike_self_all fun _ he n hn => h n (.item he hn))
  | .array .., h => .array (Elements.beq_self fun n hn => h n (.element hn))
  | .atom _, h => .atom (Atom.beq_self fun n hn => h n (hn ▸ .atom))
  | .native .., _ | .closure .., _ | .host .., _ => .function rfl rfl

theorem alike_self_all : ∀ {es : List Expr}, (∀ e ∈ es, e.NaNFree) → AllAlike es es
  | [], _ => .nil
  | _ :: _, h =>
    let hboth := List.forall_mem_cons.mp h
    .cons hboth.1.alike_self (alike_self_all hboth.2)

end

/-- Equality is reflexive on what holds no NaN. -/
theorem NaNFree.beq_self {e : Expr} (h : e.NaNFree) : (e == e) = true :=
  alike_iff_beq.mp h.alike_self

/-! ## Identity -/

/-- What identity of values goes by. -/
inductive Same : Expr → Expr → Prop
  | symbol (name : String) : Same (.symbol name) (.symbol name)
  | list (r : Ref) (as bs : List Expr) : Same (.list r as) (.list r bs)
  | array (r : Ref) (as bs : Elements) : Same (.array r as) (.array r bs)
  | str (r : Ref) (s t : String) : Same (.atom (.str r s)) (.atom (.str r t))
  | atom {a b : Atom} : (∀ r s, a ≠ .str r s) → (a == b) = true → Same (.atom a) (.atom b)
  | function {e f : Expr} {r : Ref} :
    e.functionRef? = some r → f.functionRef? = some r → Same e f

theorem identical_of_same {e f : Expr} (h : e.Same f) : e.identical f = true := by
  cases h with
  | symbol name => exact beq_self_eq_true name
  | list r | array r | str r => exact beq_self_eq_true r
  | @atom a b hstr h =>
    cases a with
    | str r s => exact absurd rfl (hstr r s)
    | _ => exact h
  | function he hf => rw [identical_function he, sameFunction_iff]; exact ⟨_, he, hf⟩

theorem same_of_identical : ∀ {e f : Expr}, e.identical f = true → e.Same f
  | .symbol a, .symbol b, h => by
    obtain rfl : a = b := eq_of_beq h
    exact .symbol a
  | .list r _, .list s _, h => by
    obtain rfl : r = s := eq_of_beq h
    exact .list ..
  | .array r _, .array s _, h => by
    obtain rfl : r = s := eq_of_beq h
    exact .array ..
  | .atom (.str r _), .atom (.str s _), h => by
    obtain rfl : r = s := eq_of_beq h
    exact .str ..
  | .atom .null, .atom _, h | .atom (.bool _), .atom _, h | .atom (.number _), .atom _, h
  | .atom (.object _), .atom _, h => .atom (fun _ _ => nofun) h
  | .native .., _, h | .closure .., _, h | .host .., _, h => by
    rw [identical_function rfl, sameFunction_iff] at h
    obtain ⟨r, he, hf⟩ := h
    exact .function he hf

/-- Only strings are equal to strings. -/
theorem ne_str {a b : Atom} (ha : ∀ r s, a ≠ .str r s) (h : (a == b) = true) :
    ∀ r s, b ≠ .str r s := by
  rintro r s rfl
  cases a <;> first | cases h | exact ha _ _ rfl

theorem Same.symm {e f : Expr} (h : e.Same f) : f.Same e := by
  cases h with
  | symbol name => exact .symbol name
  | list r as bs => exact .list r bs as
  | array r as bs => exact .array r bs as
  | str r s t => exact .str r t s
  | atom hstr h => exact .atom (ne_str hstr h) (BEq.symm h)
  | function he hf => exact .function hf he

theorem Same.trans {e f g : Expr} (h : e.Same f) (h' : f.Same g) : e.Same g := by
  cases h with
  | symbol name => exact h'
  | list r as bs =>
    cases h' with
    | list _ _ cs => exact .list r as cs
    | function hf _ => cases hf
  | array r as bs =>
    cases h' with
    | array _ _ cs => exact .array r as cs
    | function hf _ => cases hf
  | str r s t =>
    cases h' with
    | str _ _ u => exact .str r s u
    | atom hstr _ => exact absurd rfl (hstr r t)
    | function hf _ => cases hf
  | atom hstr h =>
    cases h' with
    | str r s => exact absurd rfl (ne_str hstr h r s)
    | atom _ h' => exact .atom hstr (BEq.trans h h')
    | function hf _ => cases hf
  | function he hf =>
    cases h' with
    | function hf' hg =>
      obtain rfl := Option.some.inj (hf.symm.trans hf')
      exact .function he hg
    | _ => cases hf

/-- **Identity is symmetric.** -/
theorem identical_symm {e f : Expr} (h : e.identical f = true) : f.identical e = true :=
  identical_of_same (same_of_identical h).symm

/-- **Identity is transitive.** -/
theorem identical_trans {e f g : Expr} (h : e.identical f = true) (h' : f.identical g = true) :
    e.identical g = true :=
  identical_of_same ((same_of_identical h).trans (same_of_identical h'))

/-- Identity is reflexive on what holds no NaN. -/
theorem NaNFree.identical_self {e : Expr} (h : e.NaNFree) : e.identical e = true := by
  cases e with
  | symbol name => exact beq_self_eq_true name
  | list r | array r | native r | closure r | host r => exact beq_self_eq_true r
  | atom a =>
    cases a with
    | str r s => exact beq_self_eq_true r
    | _ => exact h.beq_self

end Expr

end ExactLisp
