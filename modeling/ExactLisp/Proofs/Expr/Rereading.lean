import ExactLisp.Proofs.Datum.Rereading
import ExactLisp.Proofs.Expr.Printing

/-!
# Expressions that were read, read again

Reading makes an expression that shows the datum of its text (`Expr.Shows`): it is the
datum with references. So it has the datum's text, and two expressions are equal exactly if
the data that they show are. What is known of reading data again therefore holds of
expressions: one that was read is read back from its text exactly if the floats in it are
finite and it nests no deeper than the limit (`read_text_of_read`).
-/

namespace ExactLisp

open StoreM

/-! ## What an expression shows -/

/-- Whether an atom is a literal, but for the reference of a string. -/
inductive Atom.Shows : Atom → Literal → Prop
  | null : Shows .null .null
  | bool (b : Bool) : Shows (.bool b) (.bool b)
  | number (n : Number) : Shows (.number n) (.number n)
  | str (ref : Ref) (s : String) : Shows (.str ref s) (.str s)

mutual

/-- Whether an expression is a datum, but for the references. -/
inductive Expr.Shows : Expr → Datum → Prop
  | symbol (name : String) : Shows (.symbol name) (.symbol name)
  | literal {a : Atom} {l : Literal} : a.Shows l → Shows (.atom a) (.literal l)
  | list {ref : Ref} {es : List Expr} {ds : List Datum} : Expr.AllShow es ds →
    Shows (.list ref es) (.list ds)
  | array {ref : Ref} {as : List Atom} {ls : List Literal} : List.Forall₂ Atom.Shows as ls →
    Shows (.array ref (.ofAtoms as)) (.array ls)

/-- Whether some expressions are some data, but for the references. -/
inductive Expr.AllShow : List Expr → List Datum → Prop
  | nil : AllShow [] []
  | cons {e : Expr} {es : List Expr} {d : Datum} {ds : List Datum} : Expr.Shows e d →
    Expr.AllShow es ds → AllShow (e :: es) (d :: ds)

end

/-! ## Loading -/

theorem yields_loadLiteral (l : Literal) : (loadLiteral l).Yields fun a => a.Shows l := by
  cases l with
  | str s => exact yields_fresh.bind fun ref _ => .pure (.str ref s)
  | null => exact .pure .null
  | bool b => exact .pure (.bool b)
  | number n => exact .pure (.number n)

theorem yields_loadLiterals : ∀ ls : List Literal,
    (loadLiterals ls).Yields fun as => List.Forall₂ Atom.Shows as ls
  | [] => .pure .nil
  | l :: rest => (yields_loadLiteral l).bind fun _ ha =>
    (yields_loadLiterals rest).bind fun _ has => .pure (.cons ha has)

mutual

/-- **A datum is loaded as an expression that shows it.** -/
theorem yields_load : ∀ d : Datum, (load d).Yields fun e => e.Shows d
  | .symbol name => .pure (.symbol name)
  | .literal l => (yields_loadLiteral l).bind fun _ ha => .pure (.literal ha)
  | .list ds => (yields_loadAll ds).bind fun _ hes => yields_fresh.bind fun _ _ => .pure (.list hes)
  | .array ls => (yields_loadLiterals ls).bind fun _ has =>
    yields_fresh.bind fun _ _ => .pure (.array has)

theorem yields_loadAll : ∀ ds : List Datum, (loadAll ds).Yields fun es => Expr.AllShow es ds
  | [] => .pure .nil
  | d :: rest => (yields_load d).bind fun _ he =>
    (yields_loadAll rest).bind fun _ hes => .pure (.cons he hes)

end

/-! ## What is shown is printed and compared -/

namespace Atom.Shows

theorem spelling {a : Atom} {l : Literal} (h : a.Shows l) : a.text.toList = l.spelling := by
  cases h <;> rfl

theorem beq {a b : Atom} {l m : Literal} (ha : a.Shows l) (hb : b.Shows m) :
    (a == b) = (l == m) := by
  cases ha <;> cases hb <;> rfl

/-- A literal is finite if the float that it is, if it is one, is. -/
theorem isFinite_iff {a : Atom} {l : Literal} (h : a.Shows l) :
    l.isFinite = true ↔ ∀ x, .number (.float x) = a → Binary64.isFinite x = true := by
  cases h with
  | number n =>
    cases n with
    | float x => simp [Literal.isFinite]
    | int | big => simp [Literal.isFinite]
  | null | bool | str => simp [Literal.isFinite]

end Atom.Shows

theorem spellings_of_shows {as : List Atom} {ls : List Literal}
    (h : List.Forall₂ Atom.Shows as ls) :
    as.map (fun a => a.text.toList) = ls.map Literal.spelling := by
  induction h with
  | nil => rfl
  | cons ha _ ih => rw [List.map_cons, List.map_cons, ha.spelling, ih]

theorem beq_of_shows {as bs : List Atom} {ls ms : List Literal}
    (ha : List.Forall₂ Atom.Shows as ls) (hb : List.Forall₂ Atom.Shows bs ms) :
    (as == bs) = (ls == ms) := by
  induction ha generalizing bs ms with
  | nil => cases hb <;> rfl
  | cons h _ ih =>
    cases hb with
    | nil => rfl
    | cons h' hs => rw [List.cons_beq_cons, List.cons_beq_cons, h.beq h', ih hs]

theorem finite_iff_of_shows {as : List Atom} {ls : List Literal}
    (h : List.Forall₂ Atom.Shows as ls) :
    (∀ l ∈ ls, l.isFinite = true) ↔
      ∀ x, .number (.float x) ∈ as → Binary64.isFinite x = true := by
  induction h with
  | nil => simp
  | cons ha _ ih =>
    rw [List.forall_mem_cons, ih, ha.isFinite_iff, ← forall_and]
    simp only [List.mem_cons, or_imp]

namespace Expr

mutual

theorem Shows.spelling : ∀ {e : Expr} {d : Datum}, e.Shows d → e.text.toList = d.spelling
  | _, _, .symbol name => rfl
  | _, _, .literal h => h.spelling
  | .list _ es, .list ds, .list hs => by
    have hspellings := hs.spellings
    rw [Datum.spelling, ← hspellings, Expr.text]
    simp [toList_joinWith_space]
  | .array _ _, .array ls, .array hs => by
    rw [Datum.spelling, ← spellings_of_shows hs, Expr.text, Expr.arrayText, Elements.map_ofAtoms]
    simp [toList_joinWith_space, Function.comp_def]

theorem AllShow.spellings : ∀ {es : List Expr} {ds : List Datum}, AllShow es ds →
    (Expr.texts es).map String.toList = Datum.spellings ds
  | _, _, .nil => rfl
  | _, _, .cons h hs => by
    rw [Datum.spellings, ← h.spelling, ← hs.spellings, Expr.texts, List.map_cons]

end

mutual

theorem Shows.depth : ∀ {e : Expr} {d : Datum}, e.Shows d → e.depth = d.depth
  | _, _, .symbol _ | _, _, .literal _ | _, _, .array _ => rfl
  | _, _, .list hs => by rw [Expr.depth, Datum.depth, hs.depths]

theorem AllShow.depths : ∀ {es : List Expr} {ds : List Datum}, AllShow es ds →
    Expr.depths es = Datum.depths ds
  | _, _, .nil => rfl
  | _, _, .cons h hs => by rw [Expr.depths, Datum.depths, h.depth, hs.depths]

end

mutual

/-- **Expressions are equal exactly if the data that they show are.** -/
theorem Shows.beq : ∀ {e f : Expr} {c d : Datum}, e.Shows c → f.Shows d →
    Expr.beq e f = Datum.beq c d
  | _, _, _, _, .symbol _, .symbol _ => rfl
  | _, _, _, _, .literal h, .literal h' => h.beq h'
  | _, _, _, _, .list hs, .list hs' => hs.beqAll hs'
  | _, _, .array ls, .array ms, .array hs, .array hs' => by
    rw [Expr.beq, Datum.beq, ← beq_of_shows hs hs', Elements.ofAtoms_beq_ofAtoms]
  | _, _, _, _, .symbol _, .literal _ | _, _, _, _, .symbol _, .list _
  | _, _, _, _, .symbol _, .array _ | _, _, _, _, .literal _, .symbol _
  | _, _, _, _, .literal _, .list _ | _, _, _, _, .literal _, .array _
  | _, _, _, _, .list _, .symbol _ | _, _, _, _, .list _, .literal _
  | _, _, _, _, .list _, .array _ | _, _, _, _, .array _, .symbol _
  | _, _, _, _, .array _, .literal _ | _, _, _, _, .array _, .list _ => rfl

theorem AllShow.beqAll : ∀ {es fs : List Expr} {cs ds : List Datum}, AllShow es cs →
    AllShow fs ds → Expr.beqAll es fs = Datum.beqAll cs ds
  | _, _, _, _, .nil, .nil => rfl
  | _, _, _, _, .nil, .cons .. => rfl
  | _, _, _, _, .cons .., .nil => rfl
  | _, _, _, _, .cons h hs, .cons h' hs' => by
    rw [Expr.beqAll, Datum.beqAll, h.beq h', hs.beqAll hs']

end

mutual

/-- The floats in an expression are those of the datum that it shows. -/
theorem Shows.finite_iff : ∀ {e : Expr} {d : Datum}, e.Shows d →
    (Datum.count Datum.isNonfinite d = 0 ↔ ∀ x, e.Holds (.float x) → Binary64.isFinite x = true)
  | _, _, .symbol _ => by
    refine iff_of_true rfl ?_
    rintro x ⟨⟩
  | .atom a, .literal l, .literal h => by
    have hcount : Datum.count Datum.isNonfinite (.literal l) = 0 ↔ l.isFinite = true := by
      simp [Datum.count, Datum.isNonfinite]
    rw [hcount, h.isFinite_iff]
    refine forall_congr' fun x => imp_congr_left ⟨?_, ?_⟩
    · rintro rfl
      exact .atom
    · rintro ⟨⟩
      rfl
  | _, _, .list hs => by
    refine hs.finite_iff.trans ⟨fun h x hx => ?_, fun h e he x hx => h x (.item he hx)⟩
    cases hx with
    | item he hx => exact h _ he x hx
  | _, .array ls, @Shows.array ref as _ hs => by
    have hcount : Datum.count Datum.isNonfinite (.array ls) = 0 ↔ ∀ l ∈ ls, l.isFinite = true := by
      simp [Datum.count, Datum.isNonfinite]
    have hholds : ∀ n, .number n ∈ as ↔ (Expr.array ref (.ofAtoms as)).Holds n := by
      intro n
      refine ⟨fun hn => .element (Elements.mem_ofAtoms.mpr hn), ?_⟩
      rintro (_ | hn)
      exact Elements.mem_ofAtoms.mp hn
    rw [hcount, finite_iff_of_shows hs]
    exact forall_congr' fun x => imp_congr_left (hholds (.float x))

theorem AllShow.finite_iff : ∀ {es : List Expr} {ds : List Datum}, AllShow es ds →
    (Datum.countAll Datum.isNonfinite ds = 0 ↔
      ∀ e ∈ es, ∀ x, e.Holds (.float x) → Binary64.isFinite x = true)
  | _, _, .nil => by simp [Datum.countAll]
  | _, _, .cons h hs => by
    rw [Datum.countAll, Nat.add_eq_zero_iff, h.finite_iff, hs.finite_iff, List.forall_mem_cons]

end

end Expr

/-! ## Reading again -/

/-- What is read shows the datum of the text, and there is none if reading fails. -/
theorem runOn_read_eq_ok {text : String} {s s' : Store} {e : Expr}
    (h : (StoreM.read text).runOn s = (.ok e, s')) :
    ∃ d, Datum.read text = .ok d ∧ e.Shows d := by
  rw [StoreM.read] at h
  cases hread : Datum.read text with
  | error fault =>
    rw [hread] at h
    cases h
  | ok d =>
    rw [hread] at h
    obtain ⟨f, n, hload, hf⟩ := yields_load d s
    obtain rfl : f = e := Except.ok.inj (congrArg Prod.fst (hload.symm.trans h))
    exact ⟨d, rfl, hf⟩

/--
**Printing what was read and reading it again gives an equal value** exactly if all floats
in it are finite and it nests no deeper than the default limit.
-/
theorem read_text_of_read {text : String} {s s' : Store} {e : Expr}
    (h : (StoreM.read text).runOn s = (.ok e, s')) (t : Store) :
    (∃ f t', (StoreM.read e.text).runOn t = (.ok f, t') ∧ (f == e) = true) ↔
      (∀ x, e.Holds (.float x) → Binary64.isFinite x = true) ∧
        e.depth ≤ Datum.defaultLimit := by
  obtain ⟨d, hread, he⟩ := runOn_read_eq_ok h
  have htext : d.text = e.text := by rw [Datum.text, ← he.spelling, String.ofList_toList]
  have hdata : (∃ c, Datum.read e.text = .ok c ∧ (c == d) = true) ↔
      (∀ x, e.Holds (.float x) → Binary64.isFinite x = true) ∧
        e.depth ≤ Datum.defaultLimit := by
    rw [← htext, Datum.read_text_iff hread, he.finite_iff, he.depth]
  rw [← hdata]
  constructor
  · rintro ⟨f, t', hf, heq⟩
    obtain ⟨c, hc, hshows⟩ := runOn_read_eq_ok hf
    exact ⟨c, hc, (hshows.beq he).symm.trans heq⟩
  · rintro ⟨c, hc, heq⟩
    obtain ⟨f, n, hload, hf⟩ := yields_load c t
    refine ⟨f, { t with nextRef := n }, ?_, (hf.beq he).trans heq⟩
    rw [StoreM.read, hc]
    exact hload

/-- For instance a program of a symbol and a quoted array. -/
theorem read_text_of_read_program :
    let e : Expr := .list 2 [.symbol "progn", .symbol "a",
      .list 1 [.symbol "quote", .array 0 (.ofAtoms [.number (.int 1), .null])]]
    (StoreM.read "a '[1 null]").runOn .empty = (.ok e, { Store.empty with nextRef := 3 }) ∧
      ((∃ f t, (StoreM.read e.text).runOn .empty = (.ok f, t) ∧ (f == e) = true) ↔
        (∀ x, e.Holds (.float x) → Binary64.isFinite x = true) ∧
          e.depth ≤ Datum.defaultLimit) := by
  intro e
  have hread : (StoreM.read "a '[1 null]").runOn .empty =
      (.ok e, { Store.empty with nextRef := 3 }) := by rfl
  exact ⟨hread, read_text_of_read hread .empty⟩

/-- A numeral past the largest float stands for infinity. -/
theorem Datum.ofWord_overflow : Datum.ofWord "1e999".toList =
    .literal (.number (.float (Binary64.infinity false))) := by
  have hinfinite : Binary64.ofDecimal false 1 999 = Binary64.infinity false := by decide +kernel
  have hparse : Binary64.parse? "1e999".toList = some (Binary64.infinity false) := by
    have hread := @Binary64.magnitude?_of_whole ['1'] ['e', '9', '9', '9'] 999 false
      (by simp) (by simp) (by simp) rfl
    rw [Binary64.heeded_of_natAbs_lt (by decide)] at hread
    exact hread.trans (congrArg some hinfinite)
  have hnumber : Datum.numberOfWord? "1e999".toList = some (.float (Binary64.infinity false)) := by
    have hint : int64? "1e999".toList = none := by decide
    rw [Datum.numberOfWord?, hint]
    dsimp only
    rw [if_pos (by decide), hparse]
    rfl
  rw [Datum.ofWord, hnumber]

/-- Such a numeral is read, but what it is read as is not read from its own text. -/
theorem read_text_ne_of_overflow :
    ∃ e s, (StoreM.read "1e999").runOn .empty = (.ok e, s) ∧
      ¬ ∃ f t, (StoreM.read e.text).runOn s = (.ok f, t) ∧ (f == e) = true := by
  have hread : Datum.read "1e999" = .ok (Datum.ofWord "1e999".toList) := rfl
  refine ⟨.atom (.number (.float (Binary64.infinity false))), .empty, ?_, ?_⟩
  · rw [StoreM.read, hread, Datum.ofWord_overflow]
    rfl
  · rintro ⟨f, t, hf, heq⟩
    have hagain : (StoreM.read "inf").runOn .empty = (.ok (.symbol "inf"), .empty) := rfl
    have htext : Expr.text (.atom (.number (.float (Binary64.infinity false)))) = "inf" := by decide
    rw [htext, hagain] at hf
    cases hf
    cases heq

end ExactLisp
