import ExactLisp.Embedding.Sample
import ExactLisp.Proofs.Datum.Rereading
import ExactLisp.Proofs.Eval.Sessions
import ExactLisp.Proofs.Expr.Printing
import ExactLisp.Proofs.Number.Canonical

/-!
# The numbers in a session

Numbers come into a session from the reader, which gives integers and floats, from arithmetic
and from the lengths of lists, which are reduced, and from the embedding program, whose
decimals are reduced on the way in. From there on they are only moved about. So every number
that is bound, kept aside or answered is canonical, or it is what the run has reduced a far
decimal to (`numbers_canonical`). Whole numbers are canonical in any case, so two of them are
equal exactly if they are the same integer.

A far decimal has very many places. To come to one a run needs a product of some two thousand
factors at least (`number_not_canonical`).
-/

namespace ExactLisp

open StoreM

/-! ## Requirements on numbers -/

/-- The requirement that all numbers are of some kind. -/
def Requirement.onNumbers (number : Number → Prop) : Requirement where
  name _ := True
  number := number
  params _ := True
  native _ := True
  host _ := True
  error _ := True

/-- Whether what the embedding program supplies makes numbers of a kind if it is given those. -/
structure Embedding.KeepsNumbers (embedding : Embedding) (number : Number → Prop) : Prop where
  native : ∀ operation ∈ embedding.natives, ∀ invoke : Invoke,
    (∀ f args, Expr.Meets (.onNumbers number) f → Expr.MeetsAll (.onNumbers number) args →
      (invoke f args).Upholds (.onNumbers number) (Expr.Meets (.onNumbers number))) →
    ∀ args, Expr.MeetsAll (.onNumbers number) args →
      (operation.run invoke args).Upholds (.onNumbers number) (Expr.Meets (.onNumbers number))
  host : ∀ operation ∈ embedding.hosts, ∀ receiver args cells v,
    HostValue.MeetsAll (.onNumbers number) args →
    ((operation.run receiver args).run.run cells).1 = .ok v → v.Meets (.onNumbers number)
  install : ∀ scope s, s.Meets (.onNumbers number) →
    (embedding.install scope s).Meets (.onNumbers number)

variable {embedding : Embedding} {number : Number → Prop}

/-- What a host operation gives is as required. -/
theorem Embedding.KeepsNumbers.hosted (h : embedding.KeepsNumbers number) (f : HostFunction)
    {args : List Expr} (hargs : Expr.MeetsAll (.onNumbers number) args) :
    (embedding.hosted f args).Upholds (.onNumbers number)
      (HostValue.Meets (.onNumbers number)) := by
  rw [Embedding.hosted]
  split
  next operation hfound =>
    have hmem := List.mem_of_find?_eq_some hfound
    intro s hs
    rw [Embedding.runOn_runHostM]
    refine ⟨hs, ?_⟩
    cases hend : ((operation.run f.receiver (HostValue.ofExprs args)).run.run s.cells).1 with
    | ok v => exact h.host operation hmem _ _ _ v (HostValue.meetsAll_ofExprs hargs) hend
    | error => exact trivial
  · exact .fail trivial

/--
A requirement on numbers is regular if it is met by the numbers that are read, by what comes
back from the host program, and by what the embedding program makes.
-/
theorem Requirement.regular_onNumbers (hread : ∀ w n, Datum.numberOfWord? w = some n → number n)
    (hreturned : ∀ d, number (.big d) → number (.reduce d)) (h : embedding.KeepsNumbers number) :
    (Requirement.onNumbers number).Regular embedding where
  word w := by
    rcases Datum.ofWord_cases w with ⟨n, hn, hw⟩ | (hw | ⟨b, hw⟩) | hw
    · rw [hw]
      exact hread w n hn
    all_goals
      rw [hw]
      exact trivial
  quote := trivial
  sequence := trivial
  params _ _ _ := trivial
  param _ _ _ _ := trivial
  raised _ _ := trivial
  located _ _ _ _ := trivial
  embedded f key _ _ invoke hinvoke args hargs := by
    rw [Embedding.runNative]
    split
    next operation hfound =>
      exact h.native operation (List.mem_of_find?_eq_some hfound) invoke hinvoke args hargs
    · exact .fail trivial
  hosted f _ _ hargs := h.hosted f hargs
  returned := hreturned

/-- It is stable if it is met by all numbers that have been reduced. -/
theorem Requirement.stable_onNumbers (hread : ∀ w n, Datum.numberOfWord? w = some n → number n)
    (hreduced : ∀ d, number (.reduce d)) (h : embedding.KeepsNumbers number) :
    (Requirement.onNumbers number).Stable embedding where
  toRegular := regular_onNumbers hread (fun d _ => hreduced d) h
  reduced := hreduced

theorem Requirement.standard_onNumbers : (Requirement.onNumbers number).Standard where
  name _ _ := trivial
  builtin _ := trivial
  eval _ := trivial
  exec _ := trivial

/-! ## Canonical numbers -/

/-- The reader gives integers and floats. -/
theorem Datum.canonical_of_numberOfWord? {w : List Char} {n : Number}
    (h : numberOfWord? w = some n) : n.Canonical := by
  unfold numberOfWord? at h
  split at h
  next k _ =>
    cases h
    exact .int k
  · split at h
    · obtain ⟨x, -, rfl⟩ := Option.map_eq_some_iff.mp h
      exact .float x
    · cases h

/--
Whether what the embedding program supplies makes only canonical numbers; others it may pass on
if it is given them. What a host operation gives as an integer, a float or a decimal is not
asked about, as it is reduced: it could only make others in an array or in a function.
-/
def Embedding.KeepsCanonical (embedding : Embedding) : Prop :=
  ∀ number : Number → Prop, (∀ n, n.Canonical → number n) → embedding.KeepsNumbers number

/-- The numbers in a value are as required if the value is. -/
theorem Expr.Holds.meets {r : Requirement} {n : Number} {e : Expr} (h : e.Holds n)
    (he : e.Meets r) : r.number n := by
  induction h with
  | atom => exact he
  | element hmem => exact he _ hmem
  | item hmem _ ih => exact ih (meetsAll_iff.mp he _ hmem)
  | body hmem _ ih => exact ih (meetsAll_iff.mp he.2 _ hmem)

/-! ## Calls of built-in functions -/

theorem invoke_builtin (embedding : Embedding) {b : Builtin} {args : List Expr}
    (hargs : b.arity.accepts args.length = true) (ref : Ref) :
    ∃ call : Invoke, invoke embedding (.native ref (Store.builtinNative b)) args =
      b.run call args := by
  obtain ⟨depth, hdepth⟩ : ∃ depth, depthBound = depth + 1 := ⟨9999999, rfl⟩
  refine ⟨invokeWithin embedding depth, ?_⟩
  rw [invoke, hdepth, invokeWithin, Evaluator.invokeStep, StoreM.expect, Store.builtinNative,
    Error.checkArity, if_pos hargs]
  rfl

theorem asNumbers_map (ns : List Number) : Expr.asNumbers (ns.map .number) = .ok ns := by
  rw [Expr.asNumbers]
  induction ns with
  | nil => rfl
  | cons n rest ih =>
    rw [List.map_cons, Expr.convertAll, ih]
    rfl

/-- What equality answers for two whole numbers. -/
theorem invoke_equal {a b : Number} {m n : Int} (ha : a.Reduced) (hb : b.Reduced)
    (hm : a.integer? = some m) (hn : b.integer? = some n) (ref : Ref) :
    invoke embedding (.native ref (Store.builtinNative .equal)) [.number a, .number b] =
      pure (.bool (decide (m = n))) := by
  have hargs : Builtin.equal.arity.accepts [Expr.number a, Expr.number b].length = true := rfl
  obtain ⟨call, hcall⟩ := invoke_builtin embedding hargs ref
  have hrun : Builtin.equal.run call [.number a, .number b] =
      pure (.bool (a == b || a == b)) := rfl
  rw [hcall, hrun, Number.beq_eq_decide ha hb hm hn, Bool.or_self]

/-! ## Sessions -/

/-- The numbers that a run of a session has brought up: bound, kept aside or answered. -/
inductive Session.HasNumber (run : List Answer × Session) (n : Number) : Prop
  | bound {scope : ScopeId} {name : String} {value : Expr} :
    (run.2.store.ownBindings scope)[name]? = some value → value.Holds n → HasNumber run n
  | held {value : Expr} : run.2.held = some value → value.Holds n → HasNumber run n
  | answered {answer : Answer} {value : Expr} :
    answer ∈ run.1 → answer.Returns value → value.Holds n → HasNumber run n

/-- The numbers that a run brings up are as required if evaluation upholds that. -/
theorem Session.HasNumber.meets {ev : Evaluator} (hev : ev.Upholds (.onNumbers number))
    (hregular : (Requirement.onNumbers number).Regular embedding)
    (h : embedding.KeepsNumbers number) {kind : Store.Starting} {commands : List Command}
    {n : Number} (hn : Session.HasNumber
      ((Session.start embedding .empty none kind).runAllBy ev embedding commands) n) :
    number n := by
  have hstarts : ∀ kind, (Requirement.onNumbers number).Starts embedding kind :=
    fun _ _ => h.install
  have hstart := Session.meets_start_of_starts Requirement.standard_onNumbers (hstarts kind)
  obtain ⟨hsession, hanswers⟩ := Session.meets_runAllBy hev hregular
    Requirement.standard_onNumbers hstart fun kind (_ : .restart kind ∈ commands) => hstarts kind
  cases hn with
  | bound hfound hholds => exact hholds.meets (hsession.store _ _ _ hfound).2
  | held hheld hholds => exact hholds.meets (hsession.held _ hheld)
  | answered hanswer hreturns hholds => exact hholds.meets (hanswers _ hanswer _ hreturns)

/--
A number that a run brings up is canonical, or the run has reduced a far decimal to it. For if
the run is the same where that would end it, no other numbers than these come up.
-/
theorem Session.HasNumber.canonical_or_reduces (h : embedding.KeepsCanonical)
    {start : Store.Starting} {commands : List Command} {n : Number}
    (hn : Session.HasNumber
      ((Session.start embedding .empty none start).runAll embedding commands) n)
    {kind : Decimal → Prop} (hkind : ∀ d : Decimal, d.IsFar → Number.reduce d = n → kind d) :
    n.Canonical ∨ (Session.start embedding .empty none start).Reduces embedding commands kind := by
  by_cases hreduces : (Session.start embedding .empty none start).Reduces embedding commands kind
  · exact Or.inr hreduces
  -- numbers are canonical, or they are at least not the one that is asked about
  obtain ⟨other, hother⟩ : ∃ other : Number → Prop,
      ∀ k, other k ↔ k.Canonical ∨ (k.Reduced ∧ k ≠ n) := ⟨_, fun _ => Iff.rfl⟩
  have hkeeps := h other fun k hk => (hother k).mpr (Or.inl hk)
  have hregular := Requirement.regular_onNumbers
    (fun _ k hk => (hother k).mpr (Or.inl (Datum.canonical_of_numberOfWord? hk)))
    (fun d hd => (hother _).mpr (Or.inl (Number.canonical_reduce
      (Number.Reduced.not_isFar (((hother _).mp hd).elim Or.inl And.left))))) hkeeps
  have hev := upholds_stopping hregular kind (fun d hd => (hother _).mpr ?_) depthBound
  · have hsame := not_ne_iff.mp hreduces
    rw [← hsame] at hn
    exact Or.inl (((hother n).mp (hn.meets hev hregular hkeeps)).resolve_right
      fun hne => hne.2 rfl)
  · by_cases hfar : d.IsFar
    · exact Or.inr ⟨Number.reduced_reduce d, fun heq => hd (hkind d hfar heq)⟩
    · exact Or.inl (Number.canonical_reduce hfar)

/-- Every number that a run brings up is in a form that reducing gives. -/
theorem Session.HasNumber.reduced (h : embedding.KeepsCanonical) {kind : Store.Starting}
    {commands : List Command} {n : Number}
    (hn : Session.HasNumber
      ((Session.start embedding .empty none kind).runAll embedding commands) n) : n.Reduced := by
  have hkeeps := h Number.Reduced fun _ => Or.inl
  have hstable : (Requirement.onNumbers Number.Reduced).Stable embedding :=
    Requirement.stable_onNumbers (fun _ _ hk => Or.inl (Datum.canonical_of_numberOfWord? hk))
      Number.reduced_reduce hkeeps
  exact hn.meets (upholds_within hstable depthBound) hstable.toRegular hkeeps

/--
**Numbers in a session are canonical** as long as the run reduces no far decimal, whatever is
asked of a session that starts from a new environment: all that are in a value that is bound,
kept aside or answered. If it does reduce far decimals, a number that is not canonical is what
one of these has been reduced to. And in any case two that are integers, in whatever form, are
equal to the built-in function exactly if they are the same integer.
-/
theorem numbers_canonical (h : embedding.KeepsCanonical) (kind : Store.Starting)
    (commands : List Command) :
    let session := Session.start embedding .empty none kind
    let run := session.runAll embedding commands
    (¬ session.Reduces embedding commands Decimal.IsFar →
      ∀ n, Session.HasNumber run n → n.Canonical) ∧
      (∀ n, Session.HasNumber run n → n.Canonical ∨
        session.Reduces embedding commands fun d => d.IsFar ∧ Number.reduce d = n) ∧
      ∀ a b, Session.HasNumber run a → Session.HasNumber run b →
        ∀ m n, a.integer? = some m → b.integer? = some n → ∀ ref,
          invoke embedding (.native ref (Store.builtinNative .equal)) [.number a, .number b] =
            pure (.bool (decide (m = n))) := by
  intro session run
  refine ⟨fun hnone n hn => ?_, fun n hn => ?_, fun a b ha hb m n hm hn ref => ?_⟩
  · exact (hn.canonical_or_reduces h fun _ hfar _ => hfar).resolve_right hnone
  · exact hn.canonical_or_reduces h fun _ hfar heq => ⟨hfar, heq⟩
  · exact invoke_equal (ha.reduced h) (hb.reduced h) hm hn ref

/-- The function `call1` upholds what the function upholds that it calls. -/
theorem Sample.upholds_call1 {r : Requirement} (herror : ∀ e, r.error e) {invoke : Invoke}
    (hinvoke : ∀ f args, Expr.Meets r f → Expr.MeetsAll r args →
      (invoke f args).Upholds r (Expr.Meets r)) {args : List Expr} (hargs : Expr.MeetsAll r args) :
    (Sample.call1.run invoke args).Upholds r (Expr.Meets r) := by
  rcases args with _ | ⟨f, _ | ⟨a, _ | ⟨_, _⟩⟩⟩
  · exact .fail (herror _)
  · exact .fail (herror _)
  · have hrun : Sample.call1.run invoke [f, a] =
        (do invoke (← StoreM.ofExcept f.asFunction) [a]) := rfl
    rw [hrun, Expr.asFunction]
    split
    · exact hinvoke f [a] hargs.1 hargs.2
    · exact .fail (herror _)
  · exact .fail (herror _)

/-- The function `echo` gives back what it was given. -/
theorem Sample.meets_of_echo {r : Requirement} {receiver : Option HostObject}
    {args : List HostValue} {cells : Array Int64} {v : HostValue}
    (hargs : HostValue.MeetsAll r args)
    (hv : ((Sample.echo.run receiver args).run.run cells).1 = .ok v) : v.Meets r := by
  rcases args with _ | ⟨a, _ | ⟨_, _⟩⟩
  · cases hv
  · cases hv
    exact hargs.1
  · cases hv

/-- The function `decimal` makes a decimal of a string, or fails. -/
theorem Sample.meets_of_decimal {r : Requirement} {receiver : Option HostObject}
    {args : List HostValue} {cells : Array Int64} {v : HostValue}
    (hv : ((Sample.decimal.run receiver args).run.run cells).1 = .ok v) : v.Meets r := by
  rcases args with _ | ⟨arg, _ | ⟨_, _⟩⟩
  · cases hv
  · cases arg with
    | str text =>
      have hasString : (HostValue.str text).asString = pure text := rfl
      simp only [Sample.decimal, HostOperation.function, hasString, pure_bind] at hv
      cases hparse : Decimal.parse? text with
      | none =>
        rw [hparse] at hv
        cases hv
      | some d =>
        rw [hparse] at hv
        cases hv
        exact trivial
    | _ => cases hv
  · cases hv

/--
For instance with an operation that calls a function, one that makes decimals and one that
gives back what it is given, arrays and functions included.
-/
theorem numbers_canonical_embedded :
    let embedding : Embedding :=
      { natives := [Sample.call1]
        hosts := [Sample.decimal, Sample.echo]
        install := fun scope s =>
          ((s.registerNative scope (Sample.nativeOf Sample.call1)).registerHost scope "decimal"
            (Sample.hostOf Sample.decimal none)).registerHost scope "echo"
              (Sample.hostOf Sample.echo none) }
    let commands : List Command :=
      [.execute "(def x (decimal \"1e400\"))", .hold "x", .restart .embedded, .bindHeld "y",
        .execute "(eq (+ y 0.5) (call1 echo y))"]
    let session := Session.start embedding .empty none .embedded
    let run := session.runAll embedding commands
    embedding.KeepsCanonical ∧
      (¬ session.Reduces embedding commands Decimal.IsFar →
        ∀ n, Session.HasNumber run n → n.Canonical) ∧
      (∀ n, Session.HasNumber run n → n.Canonical ∨
        session.Reduces embedding commands fun d => d.IsFar ∧ Number.reduce d = n) ∧
      ∀ a b, Session.HasNumber run a → Session.HasNumber run b →
        ∀ m n, a.integer? = some m → b.integer? = some n → ∀ ref,
          invoke embedding (.native ref (Store.builtinNative .equal)) [.number a, .number b] =
            pure (.bool (decide (m = n))) := by
  intro embedding commands session run
  have hkeeps : embedding.KeepsCanonical := by
    refine fun number _ => ⟨List.forall_mem_singleton.mpr fun invoke hinvoke args hargs => ?_,
      fun operation hoperation => ?_, fun scope s hs => ?_⟩
    · exact Sample.upholds_call1 (fun _ => trivial) hinvoke hargs
    · intro receiver args cells v hargs hv
      rcases List.mem_pair.mp hoperation with rfl | rfl
      · exact Sample.meets_of_decimal hv
      · exact Sample.meets_of_echo hargs hv
    · have hnative := Store.meets_registerNative hs scope (f := Sample.nativeOf Sample.call1)
        trivial trivial
      have hdecimal : (Store.registerHost _ scope "decimal"
          (Sample.hostOf Sample.decimal none)).Meets (.onNumbers number) :=
        Store.meets_registerHost hnative scope trivial trivial
      exact Store.meets_registerHost hdecimal scope trivial trivial
  exact ⟨hkeeps, numbers_canonical hkeeps .embedded commands⟩

/-! ## A number that is not canonical -/

/-- Texts that are read as numbers, and leave the store alone. -/
theorem readEach_replicate {text : String} {n : Number} (h : StoreM.read text = pure (.number n))
    (k : Nat) {texts : List String} {ns : List Number}
    (hrest : Session.readEach texts = pure (ns.map .number)) :
    Session.readEach (List.replicate k text ++ texts) =
      pure ((List.replicate k n ++ ns).map .number) := by
  induction k with
  | zero => exact hrest
  | succ k ih =>
    rw [List.replicate_succ, List.cons_append, Session.readEach, h, pure_bind, ih]
    rfl

theorem read_tiny : StoreM.read "1e-320" = pure (.number Number.tiny) := by
  have hparse : Binary64.parse? "1e-320".toList = some (Binary64.ofDecimal false 1 (-320)) := by
    have hread := @Binary64.magnitude?_of_whole ['1'] ['e', '-', '3', '2', '0'] (-320) false
      (by simp) (by simp) (by simp) rfl
    rw [Binary64.heeded_of_natAbs_lt (by decide)] at hread
    exact hread
  have hnumber : Datum.numberOfWord? "1e-320".toList = some Number.tiny := by
    have hint : int64? "1e-320".toList = none := by decide
    rw [Datum.numberOfWord?, hint]
    dsimp only
    rw [if_pos (by decide), hparse]
    rfl
  have hread : Datum.read "1e-320" = .ok (Datum.ofWord "1e-320".toList) := rfl
  rw [StoreM.read, hread, Datum.ofWord, hnumber]
  rfl

theorem read_nines : StoreM.read "999999999999999999" = pure (.number Number.nines) := by
  have hread : Datum.read "999999999999999999" = .ok (.literal (.number Number.nines)) := rfl
  rw [StoreM.read, hread]
  rfl

theorem readEach_ten : Session.readEach ["10"] = pure ([Number.int 10].map .number) := rfl

theorem readEach_factors :
    Session.readEach (List.replicate 2048 "1e-320" ++
      (List.replicate 4096 "999999999999999999" ++ ["10"])) =
        pure (Number.factors.map .number) := by
  have hnines := readEach_replicate read_nines 4096 readEach_ten
  rw [Number.factors]
  exact readEach_replicate read_tiny 2048 hnines

/-- A new default environment binds the product. -/
theorem get_multiply : ∃ ref, (Session.start .nothing .empty none .defaults).store.get 0 "*" =
    .ok (.native ref (Store.builtinNative .multiply)) :=
  ⟨2, by cbv⟩

/-- A call of a function that leaves the store alone. -/
theorem run_call {session : Session} {name : String} {texts : List String} {f v : Expr}
    {values : List Expr} (hget : session.store.get session.current name = .ok f)
    (hread : Session.readEach texts = pure values) (hv : invoke embedding f values = pure v) :
    session.run embedding (.call name texts) = (.value (.ok v), session) := by
  have hask : (ask fun s => s.get session.current name).runOn session.store =
      (.ok f, session.store) := by
    rw [runOn_ask, hget]
    rfl
  have hinvoke : (evaluator embedding).invoke = invoke embedding := rfl
  rw [Session.run, Session.runBy, Session.answerValue, runOn_bind_of_ok hask, hread, pure_bind,
    hinvoke, hv]
  rfl

/-- The product of numbers that are read is answered by a call in a new session. -/
theorem hasNumber_product {texts : List String} {numbers : List Number} {n : Number}
    (hread : Session.readEach texts = pure (numbers.map .number))
    (hproduct : Number.product numbers = .ok n) :
    Session.HasNumber
      ((Session.start .nothing .empty none .defaults).runAll .nothing [.call "*" texts]) n := by
  obtain ⟨ref, hget⟩ := get_multiply
  have hargs : Builtin.multiply.arity.accepts (numbers.map Expr.number).length = true := rfl
  obtain ⟨call, hcall⟩ := invoke_builtin .nothing hargs ref
  have hmultiply : Builtin.multiply.run call (numbers.map .number) = pure (.number n) := by
    rw [Builtin.run, asNumbers_map]
    change ofArithmetic (Number.product numbers) = _
    rw [hproduct]
    rfl
  have hrun := run_call hget hread (hcall.trans hmultiply)
  rw [Session.run] at hrun
  rw [Session.runAll, Session.runAllBy, hrun]
  exact .answered List.mem_cons_self (.value _) .atom

/-- In a session there can be a fraction that is kept exactly though its float is finite. -/
theorem number_not_canonical :
    let texts := List.replicate 2048 "1e-320" ++
      (List.replicate 4096 "999999999999999999" ++ ["10"])
    let run := (Session.start .nothing .empty none .defaults).runAll .nothing [.call "*" texts]
    ∃ n, Session.HasNumber run n ∧ ¬ n.Canonical := by
  obtain ⟨n, hproduct, hn⟩ := Number.exists_product_not_canonical
  exact ⟨n, hasNumber_product readEach_factors hproduct, hn⟩

end ExactLisp
