import ExactLisp.Embedding.Sample
import ExactLisp.Proofs.Eval.Upheld

/-!
# Errors and the calls they come from

An argument error that comes out of a call carries the call, and no other error does. So an
error never carries more than one call, however many it has crossed: once it does, it is no
argument error any more (`located_locate`).

What one call does with errors is written out in `Evaluator.CallFails`: what is raised by its
head or by an argument goes through as it is, and what the callee raises is located. That
every evaluation ends in a located error is a requirement that evaluation upholds.

Of what the embedding program supplies it has to be assumed that it does not make such errors
itself. It may pass them on from the functions that it calls.
-/

namespace ExactLisp

/-! ## Located errors -/

/-- Whether an error carries no call, or one call and an argument error in it. -/
def Error.Located : Error → Prop
  | .atCall _ _ cause => cause.isArgumentError = true
  | _ => True

namespace Error

/-- What carries no call is located. -/
theorem located_of_ne {e : Error} (h : ∀ head callee cause, e ≠ .atCall head callee cause) :
    e.Located := by
  cases e with
  | atCall head callee cause => exact absurd rfl (h head callee cause)
  | _ => exact trivial

/-- Beneath the call that a located error carries there is no further one. -/
theorem rootCause_of_located {head callee : String} {cause : Error}
    (h : (Error.atCall head callee cause).Located) :
    (Error.atCall head callee cause).rootCause = cause := by
  rw [rootCause]
  cases cause with
  | atCall => cases h
  | _ => rfl

end Error

open Error (Located)

/-- A call locates an argument error and leaves a located one alone. -/
theorem Evaluator.located_locate (head callee : Expr) {e : Error} (h : e.Located) :
    (Evaluator.locate head callee e).Located := by
  rw [Evaluator.locate]
  split
  next hargument => exact hargument
  · exact h

/-! ## What the embedding program supplies -/

/-- Whether every error with a call that a computation ends in is one of those known. -/
def StoreM.RaisesCalls {α : Type} (known : Error → Prop) (m : StoreM α) : Prop :=
  ∀ s head callee cause, (m.runOn s).1 = .error (.error (.atCall head callee cause)) →
    known (.atCall head callee cause)

/--
Whether the functions of the embedding program do not themselves raise errors with a call: a
native operation passes them on from the functions that it calls, at most.
-/
structure Embedding.AddsNoCalls (embedding : Embedding) : Prop where
  native : ∀ operation ∈ embedding.natives, ∀ (known : Error → Prop) (invoke : Invoke),
    (∀ f args, (invoke f args).RaisesCalls known) →
      ∀ args, (operation.run invoke args).RaisesCalls known
  host : ∀ operation ∈ embedding.hosts, ∀ receiver args cells e,
    ((operation.run receiver args).run.run cells).1 = .error (.rejected e) →
      ∀ head callee cause, e ≠ .atCall head callee cause

/-! ## Requirements on errors -/

/-- A requirement on errors, and on nothing else. -/
def Requirement.onErrors (holds : Error → Prop) : Requirement where
  name _ := True
  number _ := True
  params _ := True
  native _ := True
  host _ := True
  error := holds

section

variable {holds : Error → Prop}

theorem Atom.meets_onErrors (a : Atom) : a.Meets (.onErrors holds) := by
  cases a <;> exact trivial

mutual

theorem Expr.meets_onErrors : ∀ e : Expr, e.Meets (.onErrors holds)
  | .symbol _ | .native .. | .host .. => trivial
  | .list _ items => Expr.meetsAll_onErrors items
  | .array _ _ => fun a _ => a.meets_onErrors
  | .atom a => a.meets_onErrors
  | .closure _ _ body _ => ⟨trivial, Expr.meetsAll_onErrors body⟩

theorem Expr.meetsAll_onErrors (es : List Expr) : Expr.MeetsAll (.onErrors holds) es := by
  cases es with
  | nil => trivial
  | cons e rest => exact ⟨e.meets_onErrors, Expr.meetsAll_onErrors rest⟩

end

mutual

theorem HostValue.meets_onErrors : ∀ v : HostValue, v.Meets (.onErrors holds)
  | .null | .bool _ | .int _ | .float _ | .decimal _ | .str _ | .object _ => trivial
  | .list items => HostValue.meetsAll_onErrors items
  | .array _ => fun a _ => a.meets_onErrors
  | .function f => f.meets_onErrors

theorem HostValue.meetsAll_onErrors (vs : List HostValue) :
    HostValue.MeetsAll (.onErrors holds) vs := by
  cases vs with
  | nil => trivial
  | cons v rest => exact ⟨v.meets_onErrors, HostValue.meetsAll_onErrors rest⟩

end

theorem Store.meets_onErrors (s : Store) : s.Meets (.onErrors holds) :=
  fun _ _ value _ => ⟨trivial, value.meets_onErrors⟩

/-- To uphold a requirement on errors is to end in no others. -/
theorem StoreM.upholds_onErrors_iff {m : StoreM Expr} :
    m.Upholds (.onErrors holds) (Expr.Meets (.onErrors holds)) ↔
      ∀ s e, (m.runOn s).1 = .error (.error e) → holds e := by
  constructor
  · intro h s e he
    have hend := (h s s.meets_onErrors).2
    rw [he] at hend
    exact hend
  · intro h s _
    refine ⟨(m.runOn s).2.meets_onErrors, ?_⟩
    match hend : (m.runOn s).1 with
    | .ok v => exact v.meets_onErrors
    | .error (.error e) => exact h s e hend
    | .error .exhausted => exact trivial

end

/-- To be located is a stable requirement. -/
theorem Requirement.stable_located {embedding : Embedding} (h : embedding.AddsNoCalls) :
    (Requirement.onErrors Located).Stable embedding where
  word w := by
    unfold Datum.ofWord
    split
    · exact trivial
    · repeat' split
      all_goals exact trivial
  quote := trivial
  sequence := trivial
  reduced _ := trivial
  params _ _ _ := trivial
  param _ _ _ _ := trivial
  raised _ he := Error.located_of_ne he
  located head callee _ he := Evaluator.located_locate head callee he
  embedded f key _ _ invoke hinvoke args _ := by
    rw [Embedding.runNative]
    split
    next operation hfound =>
      have hmem := List.mem_of_find?_eq_some hfound
      -- what is known of the errors that the operation passes on is that they are located
      have hcalls : ∀ g values, (invoke g values).RaisesCalls Located :=
        fun g values s head callee cause hend =>
          StoreM.upholds_onErrors_iff.mp
            (hinvoke g values g.meets_onErrors (Expr.meetsAll_onErrors values)) s _ hend
      refine StoreM.upholds_onErrors_iff.mpr fun s e he => ?_
      match e with
      | .atCall head callee cause => exact h.native operation hmem _ invoke hcalls args s _ _ _ he
      | .parse _ | .undefinedSymbol _ | .type _ | .arity .. | .indexOutOfRange ..
      | .reservedName _ | .evaluation _ | .host .. => exact trivial
    · exact .fail trivial
  hosted f _ args _ := by
    rw [Embedding.hosted]
    split
    next operation hfound =>
      have hmem := List.mem_of_find?_eq_some hfound
      intro s _
      rw [Embedding.runOn_runHostM]
      refine ⟨Store.meets_onErrors _, ?_⟩
      rcases hend : ((operation.run f.receiver (HostValue.ofExprs args)).run.run s.cells).1
        with fault | v
      · cases fault with
        | failed text => exact trivial
        | rejected e => exact Error.located_of_ne (h.host operation hmem _ _ _ e hend)
      · exact v.meets_onErrors
    · exact .fail trivial
  returned _ _ := trivial

/-! ## What a call does with errors -/

namespace Evaluator

variable {ev : Evaluator} {scope : ScopeId}

/--
The errors that a call ends in, and the store that it leaves behind. What is raised before
the callee is invoked is left as it is, and so is what the callee raises, if it is not an
argument error.
-/
inductive CallFails (ev : Evaluator) (scope : ScopeId) (head : Expr) (args : List Expr)
    (s : Store) : Error → Store → Prop
  | head {e : Error} {next : Store} :
    (ev.eval scope head).runOn s = (.error (.error e), next) →
      CallFails ev scope head args s e next
  | notFunction {callee : Expr} {next : Store} :
    (ev.eval scope head).runOn s = (.ok callee, next) → callee.isFunction = false →
      CallFails ev scope head args s
        (.atCall head.text callee.text (.type (.notCallable callee.text))) next
  | argument {callee arg : Expr} {before after values : List Expr} {mid there next : Store}
      {e : Error} :
    (ev.eval scope head).runOn s = (.ok callee, mid) → callee.isFunction = true →
    args = before ++ arg :: after →
    (ev.evalEach scope before).runOn mid = (.ok values, there) →
    (ev.eval scope arg).runOn there = (.error (.error e), next) →
      CallFails ev scope head args s e next
  | rejected {callee : Expr} {values : List Expr} {mid there next : Store} {e : Error} :
    (ev.eval scope head).runOn s = (.ok callee, mid) → callee.isFunction = true →
    (ev.evalEach scope args).runOn mid = (.ok values, there) →
    (ev.invoke callee values).runOn there = (.error (.error e), next) →
    e.isArgumentError = true →
      CallFails ev scope head args s (.atCall head.text callee.text e) next
  | passed {callee : Expr} {values : List Expr} {mid there next : Store} {e : Error} :
    (ev.eval scope head).runOn s = (.ok callee, mid) → callee.isFunction = true →
    (ev.evalEach scope args).runOn mid = (.ok values, there) →
    (ev.invoke callee values).runOn there = (.error (.error e), next) →
    e.isArgumentError = false →
      CallFails ev scope head args s e next

theorem runOn_evalEach_cons_eq_ok_iff {form : Expr} {rest values : List Expr} {s next : Store} :
    (ev.evalEach scope (form :: rest)).runOn s = (.ok values, next) ↔
      ∃ v vs there, values = v :: vs ∧ (ev.eval scope form).runOn s = (.ok v, there) ∧
        (ev.evalEach scope rest).runOn there = (.ok vs, next) := by
  simp only [evalEach, StoreM.runOn_bind_eq_ok_iff]
  constructor
  · rintro ⟨v, there, hform, vs, last, hrest, ⟨⟩⟩
    exact ⟨v, vs, there, rfl, hform, hrest⟩
  · rintro ⟨v, vs, there, rfl, hform, hrest⟩
    exact ⟨v, there, hform, vs, next, hrest, rfl⟩

theorem runOn_evalEach_cons_eq_error_iff {form : Expr} {rest : List Expr} {s next : Store}
    {stop : Stop} :
    (ev.evalEach scope (form :: rest)).runOn s = (.error stop, next) ↔
      (ev.eval scope form).runOn s = (.error stop, next) ∨
        ∃ v there, (ev.eval scope form).runOn s = (.ok v, there) ∧
          (ev.evalEach scope rest).runOn there = (.error stop, next) := by
  rw [evalEach, StoreM.runOn_bind_eq_error_iff]
  refine or_congr_right (exists_congr fun v => exists_congr fun there => and_congr_right' ?_)
  rw [StoreM.runOn_bind_eq_error_iff]
  refine or_iff_left ?_
  rintro ⟨vs, last, -, ⟨⟩⟩

/-- Forms fail to be evaluated in order at the first of them that fails. -/
theorem runOn_evalEach_eq_error_iff {forms : List Expr} {s next : Store} {stop : Stop} :
    (ev.evalEach scope forms).runOn s = (.error stop, next) ↔
      ∃ before form after values there, forms = before ++ form :: after ∧
        (ev.evalEach scope before).runOn s = (.ok values, there) ∧
        (ev.eval scope form).runOn there = (.error stop, next) := by
  constructor
  · intro h
    induction forms generalizing s with
    | nil => cases h
    | cons form rest ih =>
      rcases runOn_evalEach_cons_eq_error_iff.mp h with hform | ⟨v, there, hform, hrest⟩
      · exact ⟨[], form, rest, [], s, rfl, rfl, hform⟩
      · obtain ⟨before, other, after, values, far, rfl, hbefore, hother⟩ := ih hrest
        exact ⟨form :: before, other, after, v :: values, far, rfl,
          runOn_evalEach_cons_eq_ok_iff.mpr ⟨v, values, there, rfl, hform, hbefore⟩, hother⟩
  · rintro ⟨before, form, after, values, there, rfl, hbefore, hform⟩
    induction before generalizing s values with
    | nil =>
      cases hbefore
      rw [List.nil_append, evalEach, StoreM.runOn_bind_of_error hform]
    | cons first before ih =>
      obtain ⟨v, vs, near, rfl, hfirst, hrest⟩ := runOn_evalEach_cons_eq_ok_iff.mp hbefore
      exact runOn_evalEach_cons_eq_error_iff.mpr (.inr ⟨v, near, hfirst, ih vs hrest⟩)

theorem runOn_atCallSite_of_error {head callee : Expr} {m : StoreM Expr} {s next : Store}
    {e : Error} (h : m.runOn s = (.error (.error e), next)) :
    (atCallSite head callee m).runOn s = (.error (.error (locate head callee e)), next) := by
  rw [atCallSite, StoreM.runOn_tryCatch_of_error h, StoreM.runOn_fail]

theorem runOn_evalCall_of_notFunction {head callee : Expr} {args : List Expr} {s next : Store}
    (hhead : (ev.eval scope head).runOn s = (.ok callee, next))
    (hcallee : callee.isFunction = false) :
    (ev.evalCall scope head args).runOn s =
      (.error (.error (.atCall head.text callee.text (.type (.notCallable callee.text)))),
        next) := by
  rw [evalCall, StoreM.runOn_bind_of_ok hhead, hcallee]
  rfl

theorem runOn_evalCall_of_function {head callee : Expr} {args : List Expr} {s next : Store}
    (hhead : (ev.eval scope head).runOn s = (.ok callee, next))
    (hcallee : callee.isFunction = true) :
    (ev.evalCall scope head args).runOn s =
      (do
        let values ← ev.evalEach scope args
        atCallSite head callee (ev.invoke callee values)).runOn next := by
  rw [evalCall, StoreM.runOn_bind_of_ok hhead, hcallee]
  rfl

/-- **The errors of a call** are the ones that `CallFails` lists, and no others. -/
theorem runOn_evalCall_eq_error_iff {head : Expr} {args : List Expr} {s next : Store} {e : Error} :
    (ev.evalCall scope head args).runOn s = (.error (.error e), next) ↔
      ev.CallFails scope head args s e next := by
  constructor
  · intro h
    -- a call fails in its head, as no function, in an argument or in what it invokes
    rcases hhead : (ev.eval scope head).runOn s with ⟨stop | callee, mid⟩
    · rw [evalCall, StoreM.runOn_bind_of_error hhead] at h
      cases h
      exact .head hhead
    cases hcallee : callee.isFunction with
    | false =>
      rw [runOn_evalCall_of_notFunction hhead hcallee] at h
      cases h
      exact .notFunction hhead hcallee
    | true =>
      rw [runOn_evalCall_of_function hhead hcallee] at h
      rcases hargs : (ev.evalEach scope args).runOn mid with ⟨stop | values, there⟩
      · rw [StoreM.runOn_bind_of_error hargs] at h
        cases h
        obtain ⟨before, arg, after, values, far, rfl, hbefore, harg⟩ :=
          runOn_evalEach_eq_error_iff.mp hargs
        exact .argument hhead hcallee rfl hbefore harg
      rw [StoreM.runOn_bind_of_ok hargs] at h
      rcases hinvoke : (ev.invoke callee values).runOn there with ⟨(raised | _) | v, last⟩
      · rw [runOn_atCallSite_of_error hinvoke, locate] at h
        split at h
        next hargument =>
          cases h
          exact .rejected hhead hcallee hargs hinvoke hargument
        next hother =>
          cases h
          exact .passed hhead hcallee hargs hinvoke (Bool.eq_false_iff.mpr hother)
      · rw [atCallSite, StoreM.runOn_tryCatch_of_error hinvoke] at h
        cases h
      · rw [atCallSite, StoreM.runOn_tryCatch_of_ok hinvoke] at h
        cases h
  · intro h
    cases h with
    | head hhead => rw [evalCall, StoreM.runOn_bind_of_error hhead]
    | notFunction hhead hcallee => exact runOn_evalCall_of_notFunction hhead hcallee
    | argument hhead hcallee hargs hbefore harg =>
      rw [runOn_evalCall_of_function hhead hcallee, StoreM.runOn_bind_of_error]
      exact runOn_evalEach_eq_error_iff.mpr ⟨_, _, _, _, _, hargs, hbefore, harg⟩
    | rejected hhead hcallee hargs hinvoke hargument =>
      rw [runOn_evalCall_of_function hhead hcallee, StoreM.runOn_bind_of_ok hargs,
        runOn_atCallSite_of_error hinvoke, locate, if_pos hargument]
    | passed hhead hcallee hargs hinvoke hother =>
      rw [runOn_evalCall_of_function hhead hcallee, StoreM.runOn_bind_of_ok hargs,
        runOn_atCallSite_of_error hinvoke, locate, if_neg (Bool.eq_false_iff.mp hother)]

/-- A list is a call if its head does not name a special form. -/
theorem evalStep_eq_evalCall {ref : Ref} {head : Expr} {args : List Expr}
    (h : ∀ name, head = .symbol name → SpecialForm.ofName? name = none) :
    ev.evalStep scope (.list ref (head :: args)) = ev.evalCall scope head args := by
  cases head with
  | symbol name => rw [evalStep, h name rfl]
  | _ => rfl

end Evaluator

/--
**An error carries the call that rejected its arguments, and no other.** Whatever is
evaluated in whatever store, an error that carries a call has an argument error in it, which
is its innermost cause. And a list that is a call fails with just the errors of
`Evaluator.CallFails`: those of its head and of its arguments as they are, and those of the
callee with the call if they are argument errors, and as they are if not.
-/
theorem calls_carried_once {embedding : Embedding} (h : embedding.AddsNoCalls) (depth : Nat)
    (scope : ScopeId) (s : Store) :
    (∀ e head callee cause,
      ((evalWithin embedding depth scope e).runOn s).1 =
          .error (.error (.atCall head callee cause)) →
        cause.isArgumentError = true ∧ (Error.atCall head callee cause).rootCause = cause) ∧
    (∀ ref head args, (∀ name, head = .symbol name → SpecialForm.ofName? name = none) →
      ∀ e next, (evalWithin embedding (depth + 1) scope (.list ref (head :: args))).runOn s =
          (.error (.error e), next) ↔
        Evaluator.CallFails ⟨evalWithin embedding depth, invokeWithin embedding depth⟩
          scope head args s e next) := by
  constructor
  · intro e head callee cause hend
    have hupholds := (upholds_within (Requirement.stable_located h) depth).eval scope e
      e.meets_onErrors
    have hlocated := StoreM.upholds_onErrors_iff.mp hupholds s _ hend
    exact ⟨hlocated, Error.rootCause_of_located hlocated⟩
  · intro ref head args hhead e next
    rw [evalWithin, Evaluator.evalStep_eq_evalCall hhead]
    exact Evaluator.runOn_evalCall_eq_error_iff

/--
For instance when an operation of the embedding program calls a closure without parameters on
an argument: the error comes out of the closure, crosses the operation, and carries the call
of the operation.
-/
theorem calls_carried_once_native :
    let embedding : Embedding := { Embedding.nothing with natives := [Sample.call1] }
    let operation : Expr := .native 0 (Sample.nativeOf Sample.call1)
    let operands : List Expr := [.list 1 [.symbol "lambda", .list 2 []], .null]
    let cause : Error := .arity (.exactly 0) 1
    let located : Error := .atCall operation.text operation.text cause
    let s : Store := (Store.empty.newScope none).2
    embedding.AddsNoCalls ∧
      ((evalWithin embedding 3 0 (.list 3 (operation :: operands))).runOn s).1 =
        .error (.error located) ∧
      (cause.isArgumentError = true ∧ located.rootCause = cause) ∧
      Evaluator.CallFails ⟨evalWithin embedding 2, invokeWithin embedding 2⟩ 0 operation operands
        s located s.fresh.2 := by
  intro embedding operation operands cause located s
  have hadds : embedding.AddsNoCalls := by
    refine ⟨List.forall_mem_singleton.mpr fun known invoke hinvoke args => ?_,
      List.forall_mem_nil _⟩
    intro s head callee cause hend
    rcases args with _ | ⟨f, _ | ⟨a, _ | ⟨_, _⟩⟩⟩
    · cases hend
    · cases hend
    · have hrun : Sample.call1.run invoke [f, a] =
          (do invoke (← StoreM.ofExcept f.asFunction) [a]) := rfl
      rw [hrun, Expr.asFunction] at hend
      split at hend
      · exact hinvoke f [a] s head callee cause hend
      · cases hend
    · cases hend
  have hrun : (evalWithin embedding 3 0 (.list 3 (operation :: operands))).runOn s =
      (.error (.error located), s.fresh.2) := rfl
  have hsymbol : ∀ name, operation = .symbol name → SpecialForm.ofName? name = none := by
    intro name hname
    exact Expr.noConfusion hname
  obtain ⟨hcarried, -⟩ := calls_carried_once hadds 3 0 s
  obtain ⟨-, hfails⟩ := calls_carried_once hadds 2 0 s
  exact ⟨hadds, congrArg Prod.fst hrun, hcarried _ _ _ _ (congrArg Prod.fst hrun),
    (hfails 3 operation operands hsymbol located s.fresh.2).mp hrun⟩

end ExactLisp
