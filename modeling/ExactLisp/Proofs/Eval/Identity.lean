import ExactLisp.Proofs.Eval.Numbers
import ExactLisp.Proofs.Eval.Objects
import ExactLisp.Proofs.Eval.TrackedSessions
import ExactLisp.Proofs.Expr.Equality

/-!
# Identity refines equality

The commands of a session only add to the record of what references stand for, and all values
that a session has brought up are what the last record has for their references
(`Session.exists_record`). So values that are identical are the same object, and equal,
unless there is NaN in them. This is what allows equality of values to be answered by identity
first (`identity_refines_equality`).

NaN can only come from the embedding program: the reader takes no text for it, and no
arithmetic gives it (`NaNFree.of_hasValue`).
-/

namespace ExactLisp

variable {embedding : Embedding} {H : Record}

/-! ## One object for each reference -/

/-- What is identical, and recorded, is equal. -/
theorem Expr.beq_of_identical {a b : Expr} (ha : a.Recorded H) (hb : b.Recorded H)
    (hnan : a.NaNFree) (h : a.identical b = true) : (a == b) = true := by
  have hsame : a = b → (a == b) = true := fun heq => heq ▸ hnan.beq_self
  cases same_of_identical h with
  | symbol => exact hnan.beq_self
  | list | array => exact hsame (Option.some.inj (ha.1.symm.trans hb.1))
  | str r x y =>
    have hx : H r = some (.atom (.str r x)) := ha
    have hy : H r = some (.atom (.str r y)) := hb
    exact hsame (Option.some.inj (hx.symm.trans hy))
  | atom _ hequal => exact hequal
  | function he hf => exact alike_iff_beq.mp (.function he hf)

/-- Before anything is handed out, nothing is recorded. -/
theorem Record.describes_empty : Record.Describes (fun _ => none) Store.empty where
  taken := nofun
  bound scope name value hfound := by
    simp [Store.ownBindings, Store.empty] at hfound

/-! ## The values in a session -/

/-- The values that are in a value, among them itself: items, elements and forms of a body. -/
inductive Expr.IsPartOf (p : Expr) : Expr → Prop
  | self : IsPartOf p p
  | item {ref : Ref} {items : List Expr} {e : Expr} :
    e ∈ items → IsPartOf p e → IsPartOf p (.list ref items)
  | element {ref : Ref} {elements : Elements} {a : Atom} :
    a ∈ elements.atoms → p = .atom a → IsPartOf p (.array ref elements)
  | body {ref : Ref} {params : List String} {body : List Expr} {scope : ScopeId} {e : Expr} :
    e ∈ body → IsPartOf p e → IsPartOf p (.closure ref params body scope)

/-- The values that a run of a session has brought up: bound, kept aside or answered. -/
inductive Session.HasValue (run : List Answer × Session) (v : Expr) : Prop
  | bound {scope : ScopeId} {name : String} {value : Expr} :
    (run.2.store.ownBindings scope)[name]? = some value → v.IsPartOf value → HasValue run v
  | held {value : Expr} : run.2.held = some value → v.IsPartOf value → HasValue run v
  | answered {answer : Answer} {value : Expr} :
    answer ∈ run.1 → answer.Returns value → v.IsPartOf value → HasValue run v

theorem Expr.IsPartOf.recorded {p e : Expr} (h : p.IsPartOf e) (he : e.Recorded H) :
    p.Recorded H := by
  induction h with
  | self => exact he
  | item hmem _ ih => exact ih (recordedAll_iff.mp he.2 _ hmem)
  | element hmem heq => exact heq ▸ he.2 _ hmem
  | body hmem _ ih => exact ih (recordedAll_iff.mp he.2 _ hmem)

theorem Expr.IsPartOf.meets {r : Requirement} {p e : Expr} (h : p.IsPartOf e) (he : e.Meets r) :
    p.Meets r := by
  induction h with
  | self => exact he
  | item hmem _ ih => exact ih (meetsAll_iff.mp he _ hmem)
  | element hmem heq => exact heq ▸ he _ hmem
  | body hmem _ ih => exact ih (meetsAll_iff.mp he.2 _ hmem)

/-- **One record has all values of a session.** -/
theorem Session.exists_record (h : embedding.Records) (kind : Store.Starting)
    (commands : List Command) :
    ∃ K : Record, ∀ v, HasValue ((start embedding .empty none kind).runAll embedding commands) v →
      v.Recorded K := by
  have hnone : ∀ e : Expr, none = some e → Record.tracking.value (fun _ => none) e := nofun
  obtain ⟨H, -, hstart⟩ := tracks_start h.admits Record.describes_empty hnone kind
  obtain ⟨K, -, hsession, hanswers⟩ := tracks_runAll h.admits hstart commands
  refine ⟨K, fun v hv => ?_⟩
  cases hv with
  | bound hfound hpart => exact hpart.recorded (hsession.store.bound _ _ _ hfound)
  | held hheld hpart => exact hpart.recorded (hsession.held _ hheld)
  | answered hanswer hreturns hpart => exact hpart.recorded (hanswers _ hanswer _ hreturns)

/-! ### NaN -/

namespace Number

/-- No text is read as NaN. -/
theorem isNaN_of_numberOfWord? (w : List Char) (n : Number)
    (h : Datum.numberOfWord? w = some n) : n.isNaN = false := by
  unfold Datum.numberOfWord? at h
  split at h
  · cases h
    rfl
  · split at h
    · obtain ⟨x, hx, rfl⟩ := Option.map_eq_some_iff.mp h
      rcases Binary64.finite_or_infinity_of_parse? hx with hfinite | ⟨negative, rfl⟩
      · exact isNaN_of_isFinite hfinite
      · cases negative <;> decide
    · cases h

end Number

/-- Whether the embedding program makes no NaN of what holds none. -/
abbrev Embedding.MakesNoNaN (embedding : Embedding) : Prop :=
  embedding.KeepsNumbers fun n => n.isNaN = false

/-- **NaN can only come from the embedding program.** -/
theorem Expr.NaNFree.of_hasValue (h : embedding.MakesNoNaN) {kind : Store.Starting}
    {commands : List Command} {v : Expr}
    (hv : Session.HasValue
      ((Session.start embedding .empty none kind).runAll embedding commands) v) : v.NaNFree := by
  obtain ⟨hsession, hanswers⟩ := Session.meets_runAll_of_starts
    (Requirement.stable_onNumbers Number.isNaN_of_numberOfWord? Number.isNaN_reduce h)
    Requirement.standard_onNumbers
    (Session.meets_start_of_starts Requirement.standard_onNumbers fun _ => h.install)
    fun kind (_ : .restart kind ∈ commands) _ => h.install
  intro n hn
  refine hn.meets (r := .onNumbers fun n => n.isNaN = false) ?_
  cases hv with
  | bound hfound hpart => exact hpart.meets (hsession.store _ _ _ hfound).2
  | held hheld hpart => exact hpart.meets (hsession.held _ hheld)
  | answered hanswer hreturns hpart => exact hpart.meets (hanswers _ hanswer _ hreturns)

/-- The built-in function for equality answers by equality, whatever it tries first. -/
theorem invoke_equal_eq {a b : Expr} (h : a.identical b = true → (a == b) = true) (ref : Ref) :
    invoke embedding (.native ref (Store.builtinNative .equal)) [a, b] =
      pure (.bool (a == b)) := by
  have hargs : Builtin.equal.arity.accepts [a, b].length = true := rfl
  obtain ⟨call, hcall⟩ := invoke_builtin embedding hargs ref
  have hrun : Builtin.equal.run call [a, b] = pure (.bool (a.identical b || a == b)) := rfl
  rw [hcall, hrun]
  congr 2
  cases hidentical : a.identical b with
  | false => exact Bool.false_or _
  | true => rw [h hidentical, Bool.true_or]

/-! ## Operations of an embedding program -/

/-- The function `call1` takes the references that the function takes that it calls. -/
theorem Sample.records_call1 {invoke : Invoke}
    (hinvoke : ∀ {H f args}, Expr.Recorded H f → Expr.RecordedAll H args →
      (invoke f args).Records H Expr.Recorded) {args : List Expr}
    (hargs : Expr.RecordedAll H args) :
    (Sample.call1.run invoke args).Records H Expr.Recorded := by
  refine StoreM.records_iff.mpr
    (Sample.tracks_call1 (fun hf hargs => ?_) (Record.values_worlds.mpr hargs))
  exact StoreM.records_iff.mp (hinvoke hf (Record.values_worlds.mp hargs))

/-- The function `echo` gives back what it was given. -/
theorem Sample.recorded_of_echo {receiver : Option HostObject} {args : List HostValue}
    {cells : Array Int64} {v : HostValue} (hargs : HostValue.RecordedAll H args)
    (hv : ((Sample.echo.run receiver args).run.run cells).1 = .ok v) : v.Recorded H :=
  HostValue.recordedAll_iff.mp hargs v (Sample.mem_of_echo hv)

/-! ## Equality in a session -/

/--
**Identity refines equality.** Of the values that a session brings up, those that are identical
are equal, but for values that hold NaN; so the built-in function for equality answers whether
two values are equal, though it tries identity first. Equality and identity are both
equivalences, NaN again apart. And there is no NaN unless the embedding program makes it.
-/
theorem identity_refines_equality (h : embedding.Records) (kind : Store.Starting)
    (commands : List Command) :
    let run := (Session.start embedding .empty none kind).runAll embedding commands
    (∀ a b, Session.HasValue run a → Session.HasValue run b → a.NaNFree →
      (a.identical b = true → (a == b) = true) ∧
        ∀ ref, invoke embedding (.native ref (Store.builtinNative .equal)) [a, b] =
          pure (.bool (a == b))) ∧
      (∀ a : Expr, a.NaNFree → (a == a) = true ∧ a.identical a = true) ∧
      (∀ a b : Expr, ((a == b) = true → (b == a) = true) ∧
        (a.identical b = true → b.identical a = true)) ∧
      (∀ a b c : Expr, ((a == b) = true → (b == c) = true → (a == c) = true) ∧
        (a.identical b = true → b.identical c = true → a.identical c = true)) ∧
      (embedding.MakesNoNaN → ∀ a, Session.HasValue run a → a.NaNFree) := by
  intro run
  obtain ⟨K, hrecorded⟩ := Session.exists_record h kind commands
  refine ⟨fun a b ha hb hnan => ?_, fun a hnan => ⟨hnan.beq_self, hnan.identical_self⟩,
    fun a b => ⟨BEq.symm, Expr.identical_symm⟩, fun a b c => ⟨BEq.trans, Expr.identical_trans⟩,
    fun hnone a ha => .of_hasValue hnone ha⟩
  have hequal := Expr.beq_of_identical (hrecorded a ha) (hrecorded b hb) hnan
  exact ⟨hequal, invoke_equal_eq hequal⟩

/--
For instance in a session where a list is handed to a host function, which gives it back, and
compared with what comes back, and with itself.
-/
theorem identity_refines_equality_echo :
    let embedding : Embedding :=
      { natives := [Sample.call1]
        hosts := [Sample.echo]
        install := fun scope s =>
          (s.registerNative scope (Sample.nativeOf Sample.call1)).registerHost scope "echo"
            (Sample.hostOf Sample.echo none) }
    let commands : List Command :=
      [.execute "(def x (list 1 '(a \"b\")))", .hold "x", .restart .embedded, .bindHeld "y",
        .execute "(list (eq y (call1 echo y)) (eq y y) (is y (echo y)))"]
    let run := (Session.start embedding .empty none .embedded).runAll embedding commands
    (embedding.Records ∧ embedding.MakesNoNaN) ∧
      (∀ a b, Session.HasValue run a → Session.HasValue run b → a.NaNFree →
        (a.identical b = true → (a == b) = true) ∧
          ∀ ref, invoke embedding (.native ref (Store.builtinNative .equal)) [a, b] =
            pure (.bool (a == b))) ∧
      (∀ a : Expr, a.NaNFree → (a == a) = true ∧ a.identical a = true) ∧
      (∀ a b : Expr, ((a == b) = true → (b == a) = true) ∧
        (a.identical b = true → b.identical a = true)) ∧
      (∀ a b c : Expr, ((a == b) = true → (b == c) = true → (a == c) = true) ∧
        (a.identical b = true → b.identical c = true → a.identical c = true)) ∧
      (embedding.MakesNoNaN → ∀ a, Session.HasValue run a → a.NaNFree) := by
  intro embedding commands run
  have hrecords : embedding.Records := by
    refine ⟨?_, ?_, fun scope s H hs => ?_⟩
    · exact List.forall_mem_singleton.mpr fun _ hinvoke _ _ => Sample.records_call1 hinvoke
    · exact List.forall_mem_singleton.mpr fun _ _ _ _ _ => Sample.recorded_of_echo
    · have hnative := Record.tracking.registerNative hs scope
        (f := Sample.nativeOf Sample.call1) trivial
      obtain ⟨K, hk, hinstalled, -⟩ := Record.tracking.leadsTo_trans hnative fun _ _ hs _ =>
        Record.tracking.registerHost hs scope "echo" (Sample.hostOf Sample.echo none)
      exact ⟨K, hk, hinstalled⟩
  have hnone : embedding.MakesNoNaN := by
    refine ⟨?_, ?_, fun scope s hs => ?_⟩
    · exact List.forall_mem_singleton.mpr fun _ hinvoke _ =>
        Sample.upholds_call1 (fun _ => trivial) hinvoke
    · exact List.forall_mem_singleton.mpr fun _ _ _ _ => Sample.meets_of_echo
    · have hnative := Store.meets_registerNative hs scope (f := Sample.nativeOf Sample.call1)
        trivial trivial
      exact Store.meets_registerHost hnative scope trivial trivial
  exact ⟨⟨hrecords, hnone⟩, identity_refines_equality hrecords .embedded commands⟩

end ExactLisp
