import ExactLisp.Proofs.Expr.Equality
import ExactLisp.Proofs.Number.Settled

/-!
# There and back across the host bridge

A value that is handed to the host program and handed back has been taken apart and put
together again. What comes back is told by a relation that follows the value
(`Expr.Crosses`): lists item by item, and arrays and strings, as new objects, symbols as
strings, decimals reduced, and all else as it was, functions and host objects among it.

So the way there and back loses that symbols are symbols, and nothing else of a value whose
decimals are canonical (`bridge_returns`). Decimals that were reduced before are canonical too,
but for those that a far decimal was reduced to: such a fraction is kept exactly although it
has a finite float, and reduced once more it is that float (`bridge_narrows`). As nothing that
has been reduced is far, a second time across changes nothing in any case.
-/

namespace ExactLisp

open StoreM

namespace Number

/-! ## Reducing once more -/

/-- A number, with the float in place of a fraction that has a finite one. -/
def narrowed : Number → Number
  | big d =>
    if d.toInteger? = none ∧ Binary64.isFinite d.toFloat = true then float d.toFloat else big d
  | n => n

/-- Of the decimals that have been reduced, the canonical ones cannot be narrowed. -/
theorem canonical_iff_narrowed {d : Decimal} (h : (big d).Reduced) :
    (big d).Canonical ↔ (big d).narrowed = big d := by
  constructor
  · intro hcanonical
    refine if_neg ?_
    rintro ⟨hfraction, hfinite⟩
    cases hcanonical with
    | whole => cases (Decimal.toInteger?_ofInt _).symm.trans hfraction
    | fraction _ _ hinfinite =>
      rw [hinfinite, Binary64.isFinite_infinity] at hfinite
      cases hfinite
  · intro hnarrowed
    cases hd : d.toInteger? with
    | some n =>
      rcases h.of_integer? hd with ⟨k, hk, -⟩ | ⟨hbig, hfits⟩
      · cases hk
      · exact hbig ▸ .whole hfits
    | none =>
      refine .fraction hd (h.not_dvd hd) (Decimal.toFloat_eq_infinity fun hfinite => ?_)
      rw [narrowed, if_pos ⟨hd, hfinite⟩] at hnarrowed
      cases hnarrowed

theorem Canonical.narrowed_eq {n : Number} (h : n.Canonical) : n.narrowed = n := by
  cases n with
  | int | float => rfl
  | big d => exact (canonical_iff_narrowed (Or.inl h)).mp h

/-- To reduce what has been reduced is to narrow it. -/
theorem Reduced.reduce_eq {d : Decimal} (h : (big d).Reduced) :
    reduce d = (big d).narrowed := by
  cases hd : d.toInteger? with
  | some n =>
    rcases h.of_integer? hd with ⟨k, hk, -⟩ | ⟨hbig, hfits⟩
    · cases hk
    · have hreduce : reduce d = big (.ofInt n) := by
        rw [reduce, hd]
        exact if_neg (Bool.eq_false_iff.mp hfits)
      have hwhole : d.toInteger? ≠ none := by rw [hd]; exact Option.some_ne_none n
      rw [narrowed, if_neg (not_and_of_not_left _ hwhole), hreduce, hbig]
      rfl
  | none =>
    by_cases hfinite : Binary64.isFinite d.toFloat = true
    · rw [narrowed, if_pos ⟨hd, hfinite⟩, reduce, hd]
      exact if_pos hfinite
    · rw [narrowed, if_neg (not_and_of_not_right _ hfinite), reduce_eq_big hd hfinite,
        Decimal.stripped_eq_self (h.not_dvd hd)]

end Number

namespace Expr

/-! ## What comes back -/

mutual

/-- What a value is when it comes back from the host program. -/
inductive Crosses : Expr → Expr → Prop
  | symbol (name : String) (r : Ref) : Crosses (.symbol name) (.atom (.str r name))
  | list (r s : Ref) {es fs : List Expr} : AllCross es fs → Crosses (.list r es) (.list s fs)
  | array (r s : Ref) (elements : Elements) : Crosses (.array r elements) (.array s elements)
  | str (r s : Ref) (text : String) : Crosses (.atom (.str r text)) (.atom (.str s text))
  | big (d : Decimal) : Crosses (.number (.big d)) (.number (.reduce d))
  | plain {a : Atom} : (∀ r s, a ≠ .str r s) → (∀ d, a ≠ .number (.big d)) →
    Crosses (.atom a) (.atom a)
  | function {f : Expr} : f.isFunction = true → Crosses f f

/-- The same for the items of two lists. -/
inductive AllCross : List Expr → List Expr → Prop
  | nil : AllCross [] []
  | cons {e f : Expr} {es fs : List Expr} : Crosses e f → AllCross es fs →
    AllCross (e :: es) (f :: fs)

end

mutual

/-- The way there and back only takes references, and always ends. -/
theorem yields_bridge : ∀ e : Expr, (HostValue.ofExpr e).toExpr.Yields (Crosses e)
  | .symbol name => yields_fresh.bind fun r _ => .pure (.symbol name r)
  | .list r items => (yields_bridgeAll items).bind fun _ hes =>
    yields_fresh.bind fun s _ => .pure (.list r s hes)
  | .array r elements => yields_fresh.bind fun s _ => .pure (.array r s elements)
  | .atom (.str r text) => yields_fresh.bind fun s _ => .pure (.str r s text)
  | .atom (.number (.big d)) => .pure (.big d)
  | .atom .null | .atom (.bool _) | .atom (.number (.int _)) | .atom (.number (.float _))
  | .atom (.object _) => .pure (.plain (fun _ _ => nofun) (fun _ => nofun))
  | .native .. | .closure .. | .host .. => .pure (.function rfl)

theorem yields_bridgeAll : ∀ es : List Expr,
    (HostValue.toExprs (HostValue.ofExprs es)).Yields (AllCross es)
  | [] => .pure .nil
  | e :: rest => (yields_bridge e).bind fun _ he => (yields_bridgeAll rest).bind fun _ hes =>
    .pure (.cons he hes)

end

/-! ## What is lost -/

mutual

/-- A value with strings for the symbols in it, in lists at any depth. -/
def withStrings (ref : Ref) : Expr → Expr
  | .symbol name => .atom (.str ref name)
  | .list r items => .list r (withStringsAll ref items)
  | .array r elements => .array r elements
  | .atom a => .atom a
  | .native r f => .native r f
  | .closure r params body scope => .closure r params body scope
  | .host r f => .host r f

/-- Some values with strings for the symbols in them. -/
def withStringsAll (ref : Ref) : List Expr → List Expr
  | [] => []
  | e :: rest => withStrings ref e :: withStringsAll ref rest

end

mutual

/-- A value with floats for the fractions in it that have finite ones, in lists at any depth. -/
def narrowed : Expr → Expr
  | .atom (.number n) => .number n.narrowed
  | .list r items => .list r (narrowedAll items)
  | e => e

/-- Some values with floats for the fractions in them that have finite ones. -/
def narrowedAll : List Expr → List Expr
  | [] => []
  | e :: rest => narrowed e :: narrowedAll rest

end

/-- Whether the decimals in a value are what some decimal has been reduced to. -/
def HasReducedDecimals (e : Expr) : Prop :=
  ∀ d, e.Holds (.big d) → ∃ given, Number.reduce given = .big d

/-- Whether the decimals in a value are canonical. -/
def HasCanonicalDecimals (e : Expr) : Prop :=
  ∀ d, e.Holds (.big d) → (Number.big d).Canonical

theorem HasReducedDecimals.reduced {e : Expr} (h : e.HasReducedDecimals) {d : Decimal}
    (hd : e.Holds (.big d)) : (Number.big d).Reduced := by
  obtain ⟨given, hgiven⟩ := h d hd
  exact hgiven ▸ Number.reduced_reduce given

theorem withStrings_function (ref : Ref) {f : Expr} (h : f.isFunction = true) :
    withStrings ref f = f := by
  cases f <;> first | rfl | cases h

theorem narrowed_function {f : Expr} (h : f.isFunction = true) : f.narrowed = f := by
  cases f <;> first | rfl | cases h

/-- Only decimals are narrowed. -/
theorem narrowed_plain {a : Atom} (h : ∀ d, a ≠ .number (.big d)) :
    (Expr.atom a).narrowed = .atom a := by
  cases a with
  | number n =>
    cases n with
    | big d => exact absurd rfl (h d)
    | int | float => rfl
  | _ => rfl

mutual

/-- Canonical decimals stay as they are. -/
theorem narrowed_eq_self : ∀ {e : Expr}, e.HasCanonicalDecimals → e.narrowed = e
  | .symbol .., _ | .array .., _ | .native .., _ | .closure .., _ | .host .., _ => rfl
  | .list r items, h => by
    rw [narrowed, narrowedAll_eq_self fun e he d hd => h d (.item he hd)]
  | .atom a, h => by
    by_cases hbig : ∃ d, a = .number (.big d)
    · obtain ⟨d, rfl⟩ := hbig
      exact congrArg Expr.number (h d .atom).narrowed_eq
    · exact narrowed_plain fun d hd => hbig ⟨d, hd⟩

theorem narrowedAll_eq_self : ∀ {es : List Expr}, (∀ e ∈ es, e.HasCanonicalDecimals) →
    narrowedAll es = es
  | [], _ => rfl
  | e :: rest, h => by
    have hboth := List.forall_mem_cons.mp h
    rw [narrowedAll, narrowed_eq_self hboth.1, narrowedAll_eq_self hboth.2]

end

mutual

/-- What comes back is equal to what went, with decimals narrowed and strings for symbols. -/
theorem Crosses.alike (ref : Ref) : ∀ {e f : Expr}, e.Crosses f → e.NaNFree →
    e.HasReducedDecimals → f.Alike (e.narrowed.withStrings ref)
  | _, _, .symbol name _, _, _ => .atom (beq_self_eq_true name)
  | _, _, .list _ _ h, hnan, hbig => .list (h.alike ref (fun _ he n hn => hnan n (.item he hn))
    fun _ he d hd => hbig d (.item he hd))
  | _, _, .array .., hnan, _ => .array (Elements.beq_self fun n hn => hnan n (.element hn))
  | _, _, .str _ _ text, _, _ => .atom (beq_self_eq_true text)
  | _, _, .big d, _, hbig => by
    change Alike (.number (.reduce d)) (.number (Number.big d).narrowed)
    rw [← (hbig.reduced .atom).reduce_eq]
    exact .atom (Atom.beq_self fun n hn => Atom.number.inj hn ▸ Number.isNaN_reduce d)
  | _, _, .plain _ hplain, hnan, _ => by
    rw [narrowed_plain hplain]
    exact .atom (Atom.beq_self fun n hn => hnan n (hn ▸ .atom))
  | f, _, .function h, hnan, _ => by
    rw [narrowed_function h, withStrings_function ref h]
    exact hnan.alike_self

theorem AllCross.alike (ref : Ref) : ∀ {es fs : List Expr}, AllCross es fs →
    (∀ e ∈ es, e.NaNFree) → (∀ e ∈ es, e.HasReducedDecimals) →
    AllAlike fs (withStringsAll ref (narrowedAll es))
  | _, _, .nil, _, _ => .nil
  | _, _, .cons h hs, hnan, hbig =>
    let hnans := List.forall_mem_cons.mp hnan
    let hbigs := List.forall_mem_cons.mp hbig
    .cons (h.alike ref hnans.1 hbigs.1) (hs.alike ref hnans.2 hbigs.2)

end

mutual

/-- The host program sees the value in what it handed back, with decimals narrowed. -/
theorem Crosses.ofExpr_eq : ∀ {e f : Expr}, e.Crosses f → e.HasReducedDecimals →
    HostValue.ofExpr f = HostValue.ofExpr e.narrowed
  | _, _, .symbol .., _ | _, _, .array .., _ | _, _, .str .., _ => rfl
  | _, _, .list _ _ h, hbig => by
    rw [narrowed, HostValue.ofExpr, HostValue.ofExpr,
      h.ofExprs_eq fun _ he d hd => hbig d (.item he hd)]
  | _, _, .big d, hbig =>
    congrArg (fun n => HostValue.ofExpr (.number n)) (hbig.reduced .atom).reduce_eq
  | _, _, .plain _ hplain, _ => by rw [narrowed_plain hplain]
  | _, _, .function h, _ => by rw [narrowed_function h]

theorem AllCross.ofExprs_eq : ∀ {es fs : List Expr}, AllCross es fs →
    (∀ e ∈ es, e.HasReducedDecimals) →
    HostValue.ofExprs fs = HostValue.ofExprs (narrowedAll es)
  | _, _, .nil, _ => rfl
  | _, _, .cons h hs, hbig => by
    have hbigs := List.forall_mem_cons.mp hbig
    rw [narrowedAll, HostValue.ofExprs, HostValue.ofExprs, h.ofExpr_eq hbigs.1,
      hs.ofExprs_eq hbigs.2]

end

/-! ## Across once more -/

mutual

/-- In what has come back no symbols are left. -/
theorem Crosses.withStrings_eq (ref : Ref) : ∀ {e f : Expr}, e.Crosses f →
    f.withStrings ref = f
  | _, _, .symbol .. | _, _, .array .. | _, _, .str .. | _, _, .big _ | _, _, .plain .. => rfl
  | _, _, .list _ s h => by rw [withStrings, h.withStringsAll_eq ref]
  | _, _, .function h => withStrings_function ref h

theorem AllCross.withStringsAll_eq (ref : Ref) : ∀ {es fs : List Expr}, AllCross es fs →
    withStringsAll ref fs = fs
  | _, _, .nil => rfl
  | _, _, .cons h hs => by
    rw [withStringsAll, h.withStrings_eq ref, hs.withStringsAll_eq ref]

end

mutual

/-- What has come back is narrowed, as nothing that was reduced is far. -/
theorem Crosses.narrowed_eq : ∀ {e f : Expr}, e.Crosses f → e.HasReducedDecimals →
    f.narrowed = f
  | _, _, .symbol .., _ | _, _, .array .., _ | _, _, .str .., _ => rfl
  | _, _, .list _ s h, hbig => by
    rw [narrowed, h.narrowedAll_eq fun _ he d hd => hbig d (.item he hd)]
  | _, _, .big d, hbig => by
    have hcanonical := Number.canonical_reduce (hbig.reduced .atom).not_isFar
    exact congrArg Expr.number hcanonical.narrowed_eq
  | _, _, .plain _ hplain, _ => narrowed_plain hplain
  | _, _, .function h, _ => narrowed_function h

theorem AllCross.narrowedAll_eq : ∀ {es fs : List Expr}, AllCross es fs →
    (∀ e ∈ es, e.HasReducedDecimals) → narrowedAll fs = fs
  | _, _, .nil, _ => rfl
  | _, _, .cons h hs, hbig => by
    have hbigs := List.forall_mem_cons.mp hbig
    rw [narrowedAll, h.narrowed_eq hbigs.1, hs.narrowedAll_eq hbigs.2]

end

mutual

/-- The numbers in what comes back were there before, or have been reduced on the way. -/
theorem Crosses.holds {n : Number} : ∀ {e f : Expr}, e.Crosses f → f.Holds n →
    e.Holds n ∨ ∃ given, Number.reduce given = n
  | _, _, .symbol .., hn | _, _, .str .., hn => nomatch hn
  | _, _, .array .., .element hn => .inl (.element hn)
  | _, _, .list _ _ h, .item hf hn =>
    (h.holds hf hn).imp_left fun ⟨_, he, hn⟩ => .item he hn
  | _, _, .big d, hn => by
    cases hn
    exact .inr ⟨d, rfl⟩
  | _, _, .plain .., hn | _, _, .function _, hn => .inl hn

theorem AllCross.holds {n : Number} : ∀ {es fs : List Expr}, AllCross es fs →
    ∀ {f}, f ∈ fs → f.Holds n → (∃ e ∈ es, e.Holds n) ∨ ∃ given, Number.reduce given = n
  | _, _, .cons (e := e) h hs, f, hf, hn => by
    rcases List.mem_cons.mp hf with rfl | hf
    · exact (h.holds hn).imp_left fun hn => ⟨e, List.mem_cons_self, hn⟩
    · exact (hs.holds hf hn).imp_left fun ⟨e, he, hn⟩ => ⟨e, List.mem_cons_of_mem _ he, hn⟩

end

theorem Crosses.hasReducedDecimals {e f : Expr} (h : e.Crosses f)
    (hbig : e.HasReducedDecimals) : f.HasReducedDecimals :=
  fun d hd => (h.holds hd).elim (hbig d) id

theorem Crosses.nanFree {e f : Expr} (h : e.Crosses f) (hnan : e.NaNFree) : f.NaNFree := by
  intro n hn
  rcases h.holds hn with he | ⟨given, rfl⟩
  · exact hnan n he
  · exact Number.isNaN_reduce given

/-! ## What stays the same object -/

/-- The part of a value that the indices lead to, from list to list. -/
def at? : List Nat → Expr → Option Expr
  | [], e => some e
  | i :: path, .list _ items => items[i]?.bind (at? path)
  | _ :: _, _ => none

/-- Whether a value is a function or an object of the host program. -/
def IsHandle (e : Expr) : Prop := e.isFunction = true ∨ ∃ o, e = .atom (.object o)

/--
Whether two values have the same functions and host objects at the same places, and arrays of
the same elements.
-/
structure SharesHandles (e f : Expr) : Prop where
  handles : ∀ path h, h.IsHandle → (e.at? path = some h ↔ f.at? path = some h)
  elements : ∀ path elements,
    (∃ r, e.at? path = some (.array r elements)) ↔ ∃ r, f.at? path = some (.array r elements)

theorem AllCross.getElem? : ∀ {es fs : List Expr}, AllCross es fs → ∀ i : Nat,
    Option.Rel Crosses es[i]? fs[i]?
  | _, _, .nil, _ => .none
  | _, _, .cons h _, 0 => .some h
  | _, _, .cons _ hs, i + 1 => hs.getElem? i

/-- Parts come back at their places. -/
theorem Crosses.at? {e f : Expr} (h : e.Crosses f) (path : List Nat) :
    Option.Rel Crosses (e.at? path) (f.at? path) := by
  induction path generalizing e f with
  | nil => exact .some h
  | cons i path ih =>
    cases h with
    | @list r s es fs hs =>
      have hitem := hs.getElem? i
      rw [Expr.at?, Expr.at?]
      generalize es[i]? = item, fs[i]? = item' at hitem
      cases hitem with
      | some h => exact ih h
      | none => exact .none
    | function hf => cases e <;> first | exact .none | cases hf
    | _ => exact .none

/-- Functions and host objects come back as they are, and nothing else becomes one. -/
theorem Crosses.eq_iff {e f : Expr} (h : e.Crosses f) {p : Expr} (hp : p.IsHandle) :
    e = p ↔ f = p := by
  cases h with
  | plain | function => rfl
  | _ =>
    refine iff_of_false ?_ ?_
    all_goals
      rintro rfl
      rcases hp with hp | ⟨o, ho⟩
      · cases hp
      · cases ho

/-- Arrays come back as arrays of the same elements, and nothing else becomes one. -/
theorem Crosses.array_iff {e f : Expr} (h : e.Crosses f) (elements : Elements) :
    (∃ r, e = .array r elements) ↔ ∃ r, f = .array r elements := by
  cases h with
  | array => simp
  | function => rfl
  | _ => exact iff_of_false (by rintro ⟨r, h⟩; cases h) (by rintro ⟨r, h⟩; cases h)

theorem Crosses.sharesHandles {e f : Expr} (h : e.Crosses f) : e.SharesHandles f := by
  refine ⟨fun path p hp => ?_, fun path elements => ?_⟩
  all_goals
    have hpart := h.at? path
    generalize e.at? path = part, f.at? path = part' at hpart
  · cases hpart with
    | some h => rw [Option.some.injEq, Option.some.injEq, h.eq_iff hp]
    | none => rfl
  · cases hpart with
    | some h => simpa only [Option.some.injEq] using h.array_iff elements
    | none => rfl

end Expr

/--
**The way there and back** always ends, and only takes references. What comes back is equal
to what went, with a string for each symbol, and with a float for each fraction that was
reduced before and has a finite one all the same; where the decimals are canonical there are
no such fractions. It has the functions and the host objects that were in it, each at its
place. After another time across it is equal still, and has the same objects, and the host
program sees no difference.
-/
theorem bridge_returns (e : Expr) (hnan : e.NaNFree) (hbig : e.HasReducedDecimals) :
    (e.HasCanonicalDecimals → e.narrowed = e) ∧
      (HostValue.ofExpr e).toExpr.Yields fun f =>
        (∀ ref, (f == e.narrowed.withStrings ref) = true) ∧
        HostValue.ofExpr f = HostValue.ofExpr e.narrowed ∧ e.SharesHandles f ∧
        (HostValue.ofExpr f).toExpr.Yields fun g =>
          (g == f) = true ∧ HostValue.ofExpr g = HostValue.ofExpr f ∧ f.SharesHandles g := by
  refine ⟨Expr.narrowed_eq_self, fun s => ?_⟩
  obtain ⟨f, n, hrun, hf⟩ := Expr.yields_bridge e s
  have hequal : ∀ ref, (f == e.narrowed.withStrings ref) = true :=
    fun ref => Expr.alike_iff_beq.mp (hf.alike ref hnan hbig)
  refine ⟨f, n, hrun, hequal, hf.ofExpr_eq hbig, hf.sharesHandles, fun t => ?_⟩
  -- the second time is a first time for what has come back
  obtain ⟨g, k, hagain, hg⟩ := Expr.yields_bridge f t
  have hbig' := hf.hasReducedDecimals hbig
  have halike := hg.alike 0 (hf.nanFree hnan) hbig'
  have hseen := hg.ofExpr_eq hbig'
  rw [hf.narrowed_eq hbig] at halike hseen
  rw [hf.withStrings_eq 0] at halike
  exact ⟨g, k, hagain, Expr.alike_iff_beq.mp halike, hseen, hg.sharesHandles⟩

/-- For instance a list with a symbol in an inner list, a decimal, a float and objects. -/
theorem bridge_returns_nested :
    let e : Expr := .list 0 [.list 1 [.symbol "f", .number (.big ⟨10 ^ 20, 0⟩)],
      .number (.float (Binary64.ofInt 2)), .host 2 ⟨"open", [], none, "open"⟩,
      .array 3 (.mixed [.object ⟨7, "File"⟩, .null])]
    (e.NaNFree ∧ e.HasReducedDecimals) ∧ (e.HasCanonicalDecimals → e.narrowed = e) ∧
      (HostValue.ofExpr e).toExpr.Yields fun f =>
        (∀ ref, (f == e.narrowed.withStrings ref) = true) ∧
        HostValue.ofExpr f = HostValue.ofExpr e.narrowed ∧ e.SharesHandles f ∧
        (HostValue.ofExpr f).toExpr.Yields fun g =>
          (g == f) = true ∧ HostValue.ofExpr g = HostValue.ofExpr f ∧ f.SharesHandles g := by
  intro e
  have hnumbers : ∀ n, e.Holds n → n = .big ⟨10 ^ 20, 0⟩ ∨ n = .float (Binary64.ofInt 2) := by
    intro n hn
    unfold e at hn
    cases hn with
    | item hitem hn =>
      simp only [List.mem_cons, List.not_mem_nil, or_false] at hitem
      rcases hitem with rfl | rfl | rfl | rfl
      · cases hn with
        | item hitem hn =>
          simp only [List.mem_cons, List.not_mem_nil, or_false] at hitem
          rcases hitem with rfl | rfl
          · cases hn
          · cases hn
            exact Or.inl rfl
      · cases hn
        exact Or.inr rfl
      · cases hn
      · cases hn with
        | element helement => simp [Elements.atoms] at helement
  have hnan : e.NaNFree := by
    intro n hn
    rcases hnumbers n hn with rfl | rfl
    · rfl
    · decide
  have hbig : e.HasReducedDecimals := by
    intro d hd
    rcases hnumbers _ hd with h | h
    · exact ⟨.ofInt (10 ^ 20), h ▸ rfl⟩
    · cases h
  exact ⟨⟨hnan, hbig⟩, bridge_returns e hnan hbig⟩

/-- A decimal that arithmetic gives need not come back equal to what went. -/
theorem bridge_narrows : ∃ n, Number.product Number.factors = .ok n ∧
    (Expr.number n).NaNFree ∧ (Expr.number n).HasReducedDecimals ∧
    (HostValue.ofExpr (.number n)).toExpr.Yields fun f =>
      ∀ ref, (f == (Expr.number n).withStrings ref) = false := by
  obtain ⟨n, hproduct, hn⟩ := Number.exists_product_not_canonical
  obtain ⟨given, -, hgiven⟩ : ∃ given, (Number.Operation.product _).total = .ok given ∧
      n = .reduce given := Number.Operation.exists_total hproduct
  obtain ⟨d, rfl⟩ : ∃ d, n = .big d := by
    cases n with
    | int k => exact absurd (.int k) hn
    | float x => exact absurd (.float x) hn
    | big d => exact ⟨d, rfl⟩
  have hreduced : (Number.big d).Reduced := hgiven ▸ Number.reduced_reduce given
  have hnarrows : (Number.big d).narrowed = .float d.toFloat := by
    rw [Number.canonical_iff_narrowed hreduced] at hn
    rw [Number.narrowed] at hn ⊢
    exact ite_eq_left_iff.mpr fun hnot => absurd (if_neg hnot) hn
  have hnumbers : ∀ k, (Expr.number (.big d)).Holds k → k = .big d := by
    intro k hk
    cases hk
    rfl
  refine ⟨.big d, hproduct, fun k hk => hnumbers k hk ▸ rfl, fun k hk => ?_, fun s => ?_⟩
  · exact ⟨given, (hnumbers _ hk).symm ▸ hgiven.symm⟩
  · refine ⟨.number (.reduce d), s.nextRef, rfl, fun ref => ?_⟩
    rw [hreduced.reduce_eq, hnarrows]
    rfl

end ExactLisp
