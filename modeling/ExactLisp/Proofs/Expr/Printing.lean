import ExactLisp.Eval
import ExactLisp.Proofs.Datum.Printing
import ExactLisp.Proofs.Expr.Elements
import ExactLisp.Session

/-!
# Printed expressions read back

An expression made of what the reader takes is printed as some datum is, and loading that
datum gives an equal expression (`exists_mirror`). Loading makes every list, array and
string anew, so what is read is never identical to what was printed; but nothing else
happens in the store than that references are handed out (`StoreM.Yields`).

After a quote mark the same text evaluates to such an expression, in any scope and
whatever the embedding program supplies.
-/

namespace ExactLisp

/-! ## Computations that only take references -/

/-- A computation that gives a value of some kind, and only hands out references. -/
def StoreM.Yields {α : Type} (m : StoreM α) (P : α → Prop) : Prop :=
  ∀ s : Store, ∃ a n, m.runOn s = (.ok a, { s with nextRef := n }) ∧ P a

namespace StoreM

theorem Yields.pure {α : Type} {P : α → Prop} {a : α} (h : P a) : (pure a : StoreM α).Yields P :=
  fun s => ⟨a, s.nextRef, rfl, h⟩

theorem Yields.bind {α β : Type} {m : StoreM α} {f : α → StoreM β} {P : α → Prop} {Q : β → Prop}
    (hm : m.Yields P) (hf : ∀ a, P a → (f a).Yields Q) : (m >>= f).Yields Q := by
  intro s
  obtain ⟨a, n, hrun, ha⟩ := hm s
  obtain ⟨b, n', hrun', hb⟩ := hf a ha { s with nextRef := n }
  refine ⟨b, n', ?_, hb⟩
  rw [runOn_bind, hrun]
  exact hrun'

theorem yields_fresh : fresh.Yields fun _ => True :=
  fun s => ⟨s.nextRef, s.nextRef + 1, rfl, trivial⟩

end StoreM

/-! ## What can be read back -/

/-- Whether an atom is printed as something the reader takes. -/
def Atom.Readable : Atom → Prop
  | .number (.float x) => Binary64.isFinite x = true
  | .number (.big _) | .object _ => False
  | .null | .bool _ | .number (.int _) | .str .. => True

namespace Expr

mutual

/-- Whether an expression is made of what the reader takes. -/
def Readable : Expr → Prop
  | symbol name => IsSymbolName name
  | list _ items => AllReadable items
  | array _ elements => elements.IsNarrow ∧ ∀ a ∈ elements.atoms, a.Readable
  | atom a => a.Readable
  | native .. | closure .. | host .. => False

/-- Whether some expressions are made of what the reader takes. -/
def AllReadable : List Expr → Prop
  | [] => True
  | e :: rest => e.Readable ∧ AllReadable rest

end

mutual

/-- How deep an expression nests: a list is one level deeper than its deepest item. -/
def depth : Expr → Nat
  | list _ items => depths items + 1
  | _ => 1

/-- The depth of the deepest of some expressions. -/
def depths : List Expr → Nat
  | [] => 0
  | e :: rest => max e.depth (depths rest)

end

end Expr

/-! ## The numbers in an expression -/

/-- Whether a number is in a value: as a value, in a list or an array, or in a closure's body. -/
inductive Expr.Holds (n : Number) : Expr → Prop
  | atom : Holds n (.atom (.number n))
  | element {ref : Ref} {elements : Elements} :
    .number n ∈ elements.atoms → Holds n (.array ref elements)
  | item {ref : Ref} {items : List Expr} {e : Expr} :
    e ∈ items → Holds n e → Holds n (.list ref items)
  | body {ref : Ref} {params : List String} {body : List Expr} {scope : ScopeId} {e : Expr} :
    e ∈ body → Holds n e → Holds n (.closure ref params body scope)

/-! ## Loading -/

/-- A literal that is printed as an atom is, and loads as an equal one. -/
structure Literal.Mirrors (l : Literal) (a : Atom) : Prop where
  readable : l.Readable
  spelling : l.spelling = a.text.toList
  /-- The number that it is, if it is one, stays the same. -/
  loads : (StoreM.loadLiteral l).Yields fun b => b.number? = a.number? ∧ (b == a) = true

/-- Literals that are printed as some atoms are, and load as equal ones. -/
structure Literal.MirrorAll (ls : List Literal) (as : List Atom) : Prop where
  readable : ∀ l ∈ ls, l.Readable
  spelling : ls.map Literal.spelling = as.map fun a => a.text.toList
  loads : (StoreM.loadLiterals ls).Yields fun bs =>
    bs.map Atom.number? = as.map Atom.number? ∧ (bs == as) = true

/-- A datum that is printed as an expression is, and loads as an equal one. -/
structure Datum.Mirrors (d : Datum) (e : Expr) : Prop where
  readable : d.Readable
  spelling : d.spelling = e.text.toList
  depth : d.depth = e.depth
  loads : (StoreM.load d).Yields fun f => (f == e) = true

/-- Data that are printed as some expressions are, and load as equal ones. -/
structure Datum.MirrorAll (ds : List Datum) (es : List Expr) : Prop where
  readable : Datum.AllReadable ds
  spelling : Datum.spellings ds = (Expr.texts es).map String.toList
  depths : Datum.depths ds = Expr.depths es
  loads : (StoreM.loadAll ds).Yields fun fs => Expr.beqAll fs es = true

open StoreM

theorem exists_mirror_atom {a : Atom} (h : a.Readable) : ∃ l : Literal, l.Mirrors a := by
  cases a with
  | null => exact ⟨.null, trivial, rfl, .pure ⟨rfl, rfl⟩⟩
  | bool b => exact ⟨.bool b, trivial, rfl, .pure ⟨rfl, beq_self_eq_true b⟩⟩
  | str ref s =>
    refine ⟨.str s, trivial, rfl, ?_⟩
    exact yields_fresh.bind fun _ _ => .pure ⟨rfl, beq_self_eq_true s⟩
  | number n =>
    cases n with
    | int n => exact ⟨.number (.int n), trivial, rfl, .pure ⟨rfl, beq_self_eq_true n⟩⟩
    | float x => exact ⟨.number (.float x), h, rfl, .pure ⟨rfl, Binary64.beq_self h⟩⟩
    | big d => exact absurd h id
  | object o => exact absurd h id

theorem exists_mirror_atoms {as : List Atom} (h : ∀ a ∈ as, a.Readable) :
    ∃ ls : List Literal, Literal.MirrorAll ls as := by
  induction as with
  | nil => exact ⟨[], by simp, rfl, .pure ⟨rfl, rfl⟩⟩
  | cons a rest ih =>
    obtain ⟨l, hl⟩ := exists_mirror_atom (h a List.mem_cons_self)
    obtain ⟨ls, hls⟩ := ih fun b hb => h b (List.mem_cons_of_mem _ hb)
    refine ⟨l :: ls, List.forall_mem_cons.mpr ⟨hl.readable, hls.readable⟩, ?_, ?_⟩
    · rw [List.map_cons, hl.spelling, hls.spelling, List.map_cons]
    · refine hl.loads.bind fun b hb => hls.loads.bind fun bs hbs => .pure ⟨?_, ?_⟩
      · rw [List.map_cons, List.map_cons, hb.1, hbs.1]
      · rw [List.cons_beq_cons, hb.2, hbs.2]
        rfl

/-- Joining texts with a space joins their characters with a space. -/
theorem toList_joinWith_space : ∀ parts : List String,
    (joinWith " " parts).toList = Datum.spaced (parts.map String.toList)
  | [] => by simp [joinWith, Datum.spaced]
  | [part] => by simp [joinWith, Datum.spaced]
  | part :: next :: rest => by
    have ih := toList_joinWith_space (next :: rest)
    rw [joinWith] at ih ⊢
    rw [String.intercalate_cons_cons, String.toList_append, String.toList_append, ih]
    simp [Datum.spaced]

mutual

/-- **A readable expression is printed as some datum is**, which loads as an equal one. -/
theorem exists_mirror : ∀ {e : Expr}, e.Readable → ∃ d : Datum, d.Mirrors e
  | .symbol name, h => ⟨.symbol name, h, rfl, rfl, .pure (beq_self_eq_true name)⟩
  | .list ref items, h => by
    obtain ⟨ds, hds⟩ := exists_mirrors h
    refine ⟨.list ds, hds.readable, ?_, ?_, ?_⟩
    · rw [Datum.spelling, hds.spelling, Expr.text]
      simp [toList_joinWith_space]
    · rw [Datum.depth, Expr.depth, hds.depths]
    · exact hds.loads.bind fun fs hfs => yields_fresh.bind fun _ _ => .pure hfs
  | .array ref elements, ⟨hnarrow, h⟩ => by
    obtain ⟨ls, hls⟩ := exists_mirror_atoms h
    refine ⟨.array ls, hls.readable, ?_, rfl, ?_⟩
    · rw [Datum.spelling, hls.spelling, Expr.text, Expr.arrayText, Elements.map]
      simp [toList_joinWith_space, Function.comp_def]
    · refine hls.loads.bind fun bs hbs => yields_fresh.bind fun _ _ => .pure ?_
      change (Elements.ofAtoms bs == elements) = true
      rw [← hnarrow, Elements.ofAtoms_beq_ofAtoms, hbs.2]
  | .atom a, h => by
    obtain ⟨l, hl⟩ := exists_mirror_atom h
    exact ⟨.literal l, hl.readable, hl.spelling, rfl,
      hl.loads.bind fun b hb => .pure hb.2⟩

/-- The same for some expressions. -/
theorem exists_mirrors : ∀ {es : List Expr}, Expr.AllReadable es →
    ∃ ds : List Datum, Datum.MirrorAll ds es
  | [], _ => ⟨[], trivial, rfl, rfl, .pure rfl⟩
  | e :: rest, h => by
    obtain ⟨d, hd⟩ := exists_mirror h.1
    obtain ⟨ds, hds⟩ := exists_mirrors h.2
    refine ⟨d :: ds, ⟨hd.readable, hds.readable⟩, ?_, ?_, ?_⟩
    · rw [Datum.spellings, hd.spelling, hds.spelling, Expr.texts, List.map_cons]
    · rw [Datum.depths, hd.depth, hds.depths, Expr.depths]
    · refine hd.loads.bind fun f hf => hds.loads.bind fun fs hfs => .pure ?_
      have hf' : Expr.beq f e = true := hf
      rw [Expr.beqAll, hf', hfs]
      rfl

end

/-! ## Reading and evaluating -/

/-- A readable expression is read back from its text. -/
theorem yields_read_text {e : Expr} (h : e.Readable) (hd : e.depth ≤ Datum.defaultLimit) :
    (StoreM.read e.text).Yields fun f => (f == e) = true := by
  obtain ⟨d, hm⟩ := exists_mirror h
  have htext : d.text = e.text := by rw [Datum.text, hm.spelling, String.ofList_toList]
  rw [StoreM.read, ← htext, Datum.read_text hm.readable (by rw [hm.depth]; exact hd)]
  exact hm.loads

/-- A quoted form evaluates to the form. -/
theorem evaluate_quoting (embedding : Embedding) (scope : ScopeId) (ref : Ref) (e : Expr) :
    evaluate embedding scope (.list ref [.symbol Datum.quoteName, e]) = pure e := by
  have hbound : depthBound = 9999999 + 1 := rfl
  rw [evaluate, hbound, evalWithin]
  rfl

/-- A readable expression evaluates to itself after a quote mark. -/
theorem yields_execute_quoted {e : Expr} (h : e.Readable) (hd : e.depth + 1 ≤ Datum.defaultLimit)
    (embedding : Embedding) (scope : ScopeId) :
    (execute embedding scope ("'" ++ e.text)).Yields fun f => (f == e) = true := by
  obtain ⟨d, hm⟩ := exists_mirror h
  have htext : d.text = e.text := by rw [Datum.text, hm.spelling, String.ofList_toList]
  have hread : StoreM.read ("'" ++ e.text) = StoreM.load (Datum.quoting d) := by
    rw [StoreM.read, ← htext, Datum.read_quoted_text hm.readable (by rw [hm.depth]; exact hd)]
  have hload : (StoreM.load (Datum.quoting d)).Yields fun f =>
      ∃ ref g, f = .list ref [.symbol Datum.quoteName, g] ∧ (g == e) = true := by
    have hitems : (StoreM.loadAll [.symbol Datum.quoteName, d]).Yields fun fs =>
        ∃ g, fs = [.symbol Datum.quoteName, g] ∧ (g == e) = true := by
      refine Yields.bind (P := fun f => f = .symbol Datum.quoteName) (.pure rfl) ?_
      rintro _ rfl
      refine Yields.bind (P := fun fs => ∃ g, fs = [g] ∧ (g == e) = true) ?_ ?_
      · exact hm.loads.bind fun g hg => .pure ⟨g, rfl, hg⟩
      · rintro _ ⟨g, rfl, hg⟩
        exact .pure ⟨g, rfl, hg⟩
    refine hitems.bind ?_
    rintro _ ⟨g, rfl, hg⟩
    exact yields_fresh.bind fun ref _ => .pure ⟨ref, g, rfl, hg⟩
  rw [execute, Evaluator.execute, hread]
  refine hload.bind ?_
  rintro _ ⟨ref, g, rfl, hg⟩
  have heval : (evaluator embedding).eval = evaluate embedding := rfl
  rw [heval, evaluate_quoting]
  exact .pure hg

/--
**Printing and then reading is the identity.** A readable expression that nests no deeper
than the default limit is read back from its text as an equal one. If a quote mark still
has room, the text after a quote mark evaluates to an equal one in any scope, whatever
the embedding program supplies. Neither changes anything in the store but the next
reference, so nothing is bound.
-/
theorem read_text_eq (e : Expr) (h : e.Readable) (hd : e.depth ≤ Datum.defaultLimit) (s : Store) :
    (∃ f n, (StoreM.read e.text).runOn s = (.ok f, { s with nextRef := n }) ∧ (f == e) = true) ∧
      (e.depth + 1 ≤ Datum.defaultLimit → ∀ (embedding : Embedding) (scope : ScopeId),
        ∃ f n, (execute embedding scope ("'" ++ e.text)).runOn s =
          (.ok f, { s with nextRef := n }) ∧ (f == e) = true) :=
  ⟨yields_read_text h hd s,
    fun hq embedding scope => yields_execute_quoted h hq embedding scope s⟩

/-- For instance a list of a symbol, a string that looks like syntax, an array and a float. -/
theorem read_text_eq_of_list :
    let e : Expr := .list 0 [.symbol "a", .atom (.str 1 "(\x22"),
      .array 2 (.ofAtoms [.number (.int (-1)), .null]),
      .atom (.number (.float (Float.ofBits 0x3FF8000000000000)))]
    (∃ f n, (StoreM.read e.text).runOn .empty = (.ok f, { Store.empty with nextRef := n }) ∧
        (f == e) = true) ∧
      ∃ f n, (execute .nothing 0 ("'" ++ e.text)).runOn .empty =
        (.ok f, { Store.empty with nextRef := n }) ∧ (f == e) = true := by
  intro e
  have hsymbol : IsSymbolName "a" := ⟨by decide, List.forall_mem_singleton.mpr rfl, rfl⟩
  have harray : ∀ a ∈ (Elements.ofAtoms [.number (.int (-1)), .null]).atoms, a.Readable := by
    simp [Atom.Readable]
  have hfloat : Binary64.isFinite (Float.ofBits 0x3FF8000000000000) = true := by decide
  have hreadable : e.Readable :=
    ⟨hsymbol, trivial, ⟨Elements.isNarrow_ofAtoms _, harray⟩, hfloat, trivial⟩
  have hdepth : e.depth = 2 := rfl
  have hlimit : Datum.defaultLimit = 512 := rfl
  obtain ⟨hread, hquoted⟩ := read_text_eq e hreadable (by omega) .empty
  exact ⟨hread, hquoted (by omega) .nothing 0⟩

end ExactLisp
