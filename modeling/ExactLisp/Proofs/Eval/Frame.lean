import ExactLisp.Embedding.Sample
import ExactLisp.Proofs.Eval.Upheld

/-!
# What evaluation leaves alone

Every definition is made in the scope that evaluation is in, so whatever happens inside,
all scopes that were there before stay as they were, but for that one. A `let*` form and a
call make their definitions in a scope of their own: they leave even the scope alone that
they are in, and a closure the scope that it was made in (`scopes_kept`).

There is one exception. The functions `eval` and `exec` evaluate in the scope that they
were made for, and they can be called from anywhere. So the law is about a scope whose own
`eval` and `exec` are not called along the way. To say this of a run there is a second
evaluator, which stops where it would have to call one of them (`evalSparing`) and does
everything else in the same way: a run that calls none of them is the same run there. The
second evaluator leaves the scope alone whatever it evaluates (`spares_sparing`).

Of what the embedding program supplies it has to be assumed that it does not act on scopes
itself. It may still call the functions that it is given.
-/

namespace ExactLisp

/-! ## Computations that leave a scope alone -/

/-- Whether a computation leaves a scope as it is, if the scope is there beforehand. -/
def StoreM.Keeps {α : Type} (i : ScopeId) (m : StoreM α) : Prop :=
  ∀ s : Store, i < s.scopes.size → (m.runOn s).2.scopes[i]? = s.scopes[i]?

namespace StoreM

variable {α β : Type} {i : ScopeId}

namespace Keeps

theorem pure (a : α) : (pure a : StoreM α).Keeps i := fun _ _ => rfl

theorem throw (stop : Stop) : (throw stop : StoreM α).Keeps i := fun _ _ => rfl

theorem fail (e : Error) : (fail e : StoreM α).Keeps i := .throw _

/-- A scope that has been left alone is still there. -/
theorem lt_size {m : StoreM α} (h : m.Keeps i) {s : Store} (hi : i < s.scopes.size) :
    i < (m.runOn s).2.scopes.size := by
  have hsome := h s hi
  rw [Array.getElem?_eq_getElem hi] at hsome
  exact (Array.getElem?_eq_some_iff.mp hsome).1

/-- What leaves a scope alone, followed by something that does. -/
theorem bind {m : StoreM α} {f : α → StoreM β} (hm : m.Keeps i) (hf : ∀ a, (f a).Keeps i) :
    (m >>= f).Keeps i := by
  intro s hi
  have hkept := hm s hi
  have hlt := hm.lt_size hi
  rw [runOn_bind]
  rcases hrun : m.runOn s with ⟨stop | a, next⟩
  · rw [hrun] at hkept
    exact hkept
  · rw [hrun] at hkept hlt
    exact (hf a next hlt).trans hkept

theorem tryCatch {m : StoreM α} {handle : Stop → StoreM α} (hm : m.Keeps i)
    (hh : ∀ stop, (handle stop).Keeps i) : (tryCatch m handle).Keeps i := by
  intro s hi
  have hkept := hm s hi
  have hlt := hm.lt_size hi
  rcases hrun : m.runOn s with ⟨stop | a, next⟩
  · rw [hrun] at hkept hlt
    rw [runOn_tryCatch_of_error hrun]
    exact (hh stop next hlt).trans hkept
  · rw [hrun] at hkept
    rw [runOn_tryCatch_of_ok hrun]
    exact hkept

theorem ofExcept (x : Except Error α) : (ofExcept x).Keeps i := by
  cases x with
  | ok a => exact .pure a
  | error e => exact .fail e

theorem ofArithmetic (x : Except ArithmeticFault Number) : (ofArithmetic x).Keeps i := by
  cases x with
  | ok n => exact .pure _
  | error fault => exact .fail _

theorem get : (get : StoreM Store).Keeps i := fun _ _ => rfl

theorem ask (f : Store → Except Error α) : (ask f).Keeps i := get.bind fun s => .ofExcept (f s)

theorem fresh : fresh.Keeps i := fun _ _ => rfl

theorem newList (items : List Expr) : (newList items).Keeps i := fresh.bind fun _ => .pure _

theorem newString (s : String) : (newString s).Keeps i := fresh.bind fun _ => .pure _

theorem newArray (elements : Elements) : (newArray elements).Keeps i :=
  fresh.bind fun _ => .pure _

/-! Binding changes one scope, and a new scope is none of those before. -/

theorem bindName {scope : ScopeId} (h : i ≠ scope) (name : String) (value : Expr) :
    (StoreM.bind scope name value).Keeps i := by
  intro s _
  change (s.bind scope name value).scopes[i]? = s.scopes[i]?
  rw [Store.bind, Array.getElem?_modify, if_neg (Ne.symm h)]

theorem define {scope : ScopeId} (h : i ≠ scope) (name : String) (value : Expr) :
    (define scope name value).Keeps i := by
  intro s hi
  rw [StoreM.define, runOn_bind, runOn_ask, Store.define]
  by_cases hname : name ∈ reservedNames
  · rw [if_pos hname]
    rfl
  · rw [if_neg hname]
    exact bindName h name value s hi

/-- What happens in a new scope leaves all scopes alone that were there before. -/
theorem inNewScope {f : ScopeId → StoreM α} (h : ∀ inner, i ≠ inner → (f inner).Keeps i)
    (parent : ScopeId) : (newScope parent >>= f).Keeps i := by
  intro s hi
  have hpush : (s.newScope (some parent)).2.scopes[i]? = s.scopes[i]? := by
    simp [Store.newScope, Array.getElem?_push, Nat.ne_of_lt hi]
  have hlt : i < (s.newScope (some parent)).2.scopes.size := by
    rw [Store.newScope, Array.size_push]
    exact Nat.lt_succ_of_lt hi
  rw [runOn_bind]
  exact (h s.scopes.size (Nat.ne_of_lt hi) _ hlt).trans hpush

/-! ### Data as expressions -/

theorem loadLiteral (l : Literal) : (loadLiteral l).Keeps i := by
  cases l with
  | str s => exact fresh.bind fun _ => .pure _
  | null | bool | number => exact .pure _

theorem loadLiterals : ∀ ls : List Literal, (loadLiterals ls).Keeps i
  | [] => .pure _
  | l :: rest => (loadLiteral l).bind fun _ => (loadLiterals rest).bind fun _ => .pure _

mutual

theorem load : ∀ d : Datum, (load d).Keeps i
  | .symbol _ => .pure _
  | .literal l => (loadLiteral l).bind fun _ => .pure _
  | .list items => (loadAll items).bind fun _ => .newList _
  | .array elements => (loadLiterals elements).bind fun _ => .newArray _

theorem loadAll : ∀ ds : List Datum, (loadAll ds).Keeps i
  | [] => .pure _
  | d :: rest => (load d).bind fun _ => (loadAll rest).bind fun _ => .pure _

end

theorem read (text : String) : (read text).Keeps i := by
  rw [StoreM.read]
  cases Datum.read text with
  | ok d => exact load d
  | error e => exact .fail _

end Keeps

end StoreM

open StoreM (Keeps)

/-! ## What the embedding program supplies -/

mutual

theorem HostValue.keeps_toExpr {i : ScopeId} : ∀ v : HostValue, v.toExpr.Keeps i
  | .null | .bool _ | .int _ | .float _ | .decimal _ | .object _ | .function _ => .pure _
  | .str s => .newString s
  | .list items => (HostValue.keeps_toExprs items).bind fun _ => .newList _
  | .array elements => .newArray elements

theorem HostValue.keeps_toExprs {i : ScopeId} : ∀ vs : List HostValue,
    (HostValue.toExprs vs).Keeps i
  | [] => .pure _
  | v :: rest =>
    (HostValue.keeps_toExpr v).bind fun _ => (HostValue.keeps_toExprs rest).bind fun _ => .pure _

end

/-- A host operation only has the contents of host objects to change. -/
theorem Embedding.keeps_runHost (embedding : Embedding) (i : ScopeId) (f : HostFunction)
    (args : List Expr) : (embedding.runHost f args).Keeps i := by
  rw [runHost]
  split
  · refine Keeps.bind (Keeps.bind ?_ ?_) HostValue.keeps_toExpr
    · intro s hi
      rfl
    · rintro (⟨_ | _⟩ | _)
      · exact .fail _
      · exact .fail _
      · exact .pure _
  · exact .fail _

/--
Whether the native operations of the embedding program change scopes only through the
functions that they call.
-/
def Embedding.SparesScopes (embedding : Embedding) : Prop :=
  ∀ operation ∈ embedding.natives, ∀ (i : ScopeId) (invoke : Invoke),
    (∀ f args, (invoke f args).Keeps i) → ∀ args, (operation.run invoke args).Keeps i

/-! ## One step -/

/-- Whether evaluation leaves a scope alone in all others, and calls leave it alone anyway. -/
structure Evaluator.Spares (i : ScopeId) (ev : Evaluator) : Prop where
  eval : ∀ scope e, i ≠ scope → (ev.eval scope e).Keeps i
  invoke : ∀ f args, (ev.invoke f args).Keeps i

namespace Evaluator.Spares

variable {i scope : ScopeId} {ev : Evaluator}

theorem evalSequence (h : ev.Spares i) (hs : i ≠ scope) :
    ∀ forms : List Expr, (ev.evalSequence scope forms).Keeps i
  | [] => .pure _
  | [e] => h.eval scope e hs
  | e :: f :: rest => (h.eval scope e hs).bind fun _ => h.evalSequence hs (f :: rest)

theorem evalEach (h : ev.Spares i) (hs : i ≠ scope) :
    ∀ forms : List Expr, (ev.evalEach scope forms).Keeps i
  | [] => .pure _
  | e :: rest => (h.eval scope e hs).bind fun _ => (h.evalEach hs rest).bind fun _ => .pure _

theorem evalDefine (h : ev.Spares i) (hs : i ≠ scope) (args : List Expr) :
    (ev.evalDefine scope args).Keeps i := by
  unfold Evaluator.evalDefine
  split
  next name form =>
    exact (h.eval scope form hs).bind fun v => (Keeps.define hs name v).bind fun _ => .pure _
  · exact .fail _
  · exact .fail _

theorem evalBindings (h : ev.Spares i) (hs : i ≠ scope) :
    ∀ bindings : List Expr, (ev.evalBindings scope bindings).Keeps i := by
  intro bindings
  fun_induction Evaluator.evalBindings ev scope bindings with
  | case1 => exact .pure _
  | case2 ref name form rest ih =>
    exact (h.eval scope form hs).bind fun v => (Keeps.bindName hs name v).bind fun _ => ih
  | case3 => exact .fail _

/-- A `let*` form leaves even the scope alone that it is in. -/
theorem evalLetStar (h : ev.Spares i) (scope : ScopeId) (args : List Expr) :
    (ev.evalLetStar scope args).Keeps i := by
  unfold Evaluator.evalLetStar
  split
  next bindings body =>
    exact Keeps.inNewScope (fun inner hi =>
      (h.evalBindings hi bindings).bind fun _ => h.evalSequence hi body) scope
  · exact .fail _
  · exact .fail _

theorem evalConditional (h : ev.Spares i) (hs : i ≠ scope) (args : List Expr) :
    (ev.evalConditional scope args).Keeps i := by
  unfold Evaluator.evalConditional
  split
  next condition consequent alternatives =>
    refine (h.eval scope condition hs).bind fun v => ?_
    split
    · exact h.eval scope consequent hs
    · split
      · exact .newList _
      · exact h.evalSequence hs alternatives
  · exact .fail _

theorem evalLambda (args : List Expr) : (Evaluator.evalLambda scope args).Keeps i := by
  unfold Evaluator.evalLambda
  split
  · exact (Keeps.ofExcept _).bind fun _ => Keeps.fresh.bind fun _ => .pure _
  · exact .fail _
  · exact .fail _

theorem evalSpecial (h : ev.Spares i) (hs : i ≠ scope) (args : List Expr) (form : SpecialForm) :
    (ev.evalSpecial scope args form).Keeps i := by
  cases form with
  | define => exact h.evalDefine hs args
  | lambda => exact evalLambda args
  | conditional => exact h.evalConditional hs args
  | quote =>
    show (Evaluator.evalQuote args).Keeps i
    unfold Evaluator.evalQuote
    split
    · exact .pure _
    · exact .fail _
  | sequence => exact h.evalSequence hs args
  | letStar => exact h.evalLetStar scope args

theorem evalCall (h : ev.Spares i) (hs : i ≠ scope) (head : Expr) (args : List Expr) :
    (ev.evalCall scope head args).Keeps i := by
  refine (h.eval scope head hs).bind fun callee => ?_
  split
  · refine (h.evalEach hs args).bind fun values => ?_
    refine (h.invoke callee values).tryCatch fun stop => ?_
    cases stop with
    | error e => exact .fail _
    | exhausted => exact .throw _
  · exact .fail _

/-- **One step of evaluation** leaves all scopes alone but the one that it is in. -/
theorem evalStep (h : ev.Spares i) (hs : i ≠ scope) (e : Expr) :
    (ev.evalStep scope e).Keeps i := by
  unfold Evaluator.evalStep
  split
  · exact .ask _
  · split
    · exact h.evalSpecial hs _ _
    · exact h.evalCall hs _ _
  · exact h.evalCall hs _ _
  · exact .pure _

/-! ### Calls -/

theorem mapItems (h : ev.Spares i) (f : Expr) :
    ∀ items : List Expr, (Builtin.mapItems ev.invoke f items).Keeps i
  | [] => .pure _
  | e :: rest => (h.invoke f [e]).bind fun _ => (h.mapItems f rest).bind fun _ => .pure _

/-- A built-in function changes scopes only through the functions that it calls. -/
theorem runBuiltin (h : ev.Spares i) (b : Builtin) (args : List Expr) :
    (b.run ev.invoke args).Keeps i := by
  have hcompare : ∀ holds first others, (Builtin.compare holds first others).Keeps i :=
    fun holds first others =>
      (Keeps.ofExcept _).bind fun _ => (Keeps.ofExcept _).bind fun _ => .pure _
  fun_cases Builtin.run ev.invoke b args with
  | case1 | case2 => exact (Keeps.ofExcept _).bind fun _ => .ofArithmetic _
  | case3 | case4 =>
    exact (Keeps.ofExcept _).bind fun _ => (Keeps.ofExcept _).bind fun _ => .ofArithmetic _
  | case5 | case6 | case7 | case8 => exact hcompare _ _ _
  | case9 | case10 => exact .pure _
  | case11 | case12 =>
    refine (Keeps.ofExcept _).bind fun items => ?_
    cases items with
    | nil => exact .fail _
    | cons => first | exact .pure _ | exact .newList _
  | case13 | case14 | case16 => exact .newList _
  | case15 => exact (Keeps.ofExcept _).bind fun _ => .pure _
  | case17 =>
    -- `map` calls its function once for each item
    exact (Keeps.ofExcept _).bind fun f => (Keeps.ofExcept _).bind fun items =>
      (h.mapItems f items).bind fun _ => .newList _
  | case18 => exact (Keeps.ofExcept _).bind fun _ => (Keeps.ofExcept _).bind fun _ => .ofExcept _
  | case19 => exact (Keeps.ofExcept _).bind fun f => h.invoke f _
  | case20 => exact (Keeps.ofExcept _).bind fun _ => .read _
  | case21 => exact .fail _

theorem bindAll (hs : i ≠ scope) : ∀ (names : List String) (values : List Expr),
    (Evaluator.bindAll scope names values).Keeps i
  | name :: names, v :: values => (Keeps.bindName hs name v).bind fun _ => bindAll hs names values
  | [], _ => .pure _
  | _ :: _, [] => .pure _

theorem requireLive (ambient : ScopeId) : (Evaluator.requireLive ambient).Keeps i := by
  refine Keeps.get.bind fun s => ?_
  split
  · exact .pure _
  · exact .fail _

end Evaluator.Spares

/-- The scope that a native function evaluates in whoever calls it, if it is `eval` or `exec`. -/
def NativeCode.ambient? : NativeCode → Option ScopeId
  | eval ambient | exec ambient => some ambient
  | builtin _ | embedded _ => none

/-- The scope that a function evaluates in whoever calls it, if it is `eval` or `exec`. -/
def Expr.ambient? : Expr → Option ScopeId
  | native _ f => f.code.ambient?
  | _ => none

namespace Evaluator.Spares

variable {i : ScopeId} {ev : Evaluator} {embedding : Embedding}

theorem runNative (h : ev.Spares i) (hembedding : embedding.SparesScopes) (args : List Expr) :
    ∀ code : NativeCode, code.ambient? ≠ some i →
      (Evaluator.runNative embedding ev args code).Keeps i
  | .builtin b, _ => h.runBuiltin b args
  | .eval ambient, hc => by
    have hs : i ≠ ambient := fun he => hc (congrArg some he.symm)
    rcases args with _ | ⟨e, _ | ⟨_, _⟩⟩
    · exact .fail _
    · exact (requireLive ambient).bind fun _ => h.eval ambient e hs
    · exact .fail _
  | .exec ambient, hc => by
    have hs : i ≠ ambient := fun he => hc (congrArg some he.symm)
    rcases args with _ | ⟨e, _ | ⟨_, _⟩⟩
    · exact .fail _
    · exact (Keeps.ofExcept _).bind fun text => (requireLive ambient).bind fun _ =>
        (Keeps.read text).bind fun e => h.eval ambient e hs
    · exact .fail _
  | .embedded key, _ => by
    rw [Evaluator.runNative, Embedding.runNative]
    split
    next operation hfound =>
      have hmem := List.mem_of_find?_eq_some hfound
      exact hembedding operation hmem i ev.invoke h.invoke args
    · exact .fail _

/-- **One step of a call** leaves all scopes alone, unless it is a call of `eval` or `exec`. -/
theorem invokeStep (h : ev.Spares i) (hembedding : embedding.SparesScopes) {f : Expr}
    (hf : f.ambient? ≠ some i) (args : List Expr) : (ev.invokeStep embedding f args).Keeps i := by
  cases f with
  | native ref n => exact (Keeps.ofExcept _).bind fun _ => h.runNative hembedding args n.code hf
  | closure ref params body captured =>
    -- the captured scope is only the parent of the one that the body is evaluated in
    have hbody : ∀ inner, i ≠ inner →
        (do Evaluator.bindAll inner params args; ev.evalSequence inner body).Keeps i :=
      fun inner hi => (bindAll hi params args).bind fun _ => h.evalSequence hi body
    exact (Keeps.ofExcept _).bind fun _ => Keeps.inNewScope hbody captured
  | host ref f => exact embedding.keeps_runHost i f args
  | symbol | list | array | atom => exact .ofExcept _

end Evaluator.Spares

/-! ## Runs that do not call `eval` or `exec` of a scope -/

mutual

/-- Evaluate an expression, but stop instead of calling `eval` or `exec` of the spared scope. -/
def evalSparing (embedding : Embedding) (spared : ScopeId) :
    Nat → ScopeId → Expr → StoreM Expr
  | 0, _, _ => throw .exhausted
  | depth + 1, scope, e =>
    Evaluator.evalStep
      ⟨evalSparing embedding spared depth, invokeSparing embedding spared depth⟩ scope e

/-- Invoke a function, but stop instead of calling `eval` or `exec` of the spared scope. -/
def invokeSparing (embedding : Embedding) (spared : ScopeId) :
    Nat → Expr → List Expr → StoreM Expr
  | 0, _, _ => throw .exhausted
  | depth + 1, f, args =>
    if f.ambient? = some spared then throw .exhausted
    else
      Evaluator.invokeStep embedding
        ⟨evalSparing embedding spared depth, invokeSparing embedding spared depth⟩ f args

end

/-- The spared scope is left alone however deep evaluation nests. -/
theorem spares_sparing {embedding : Embedding} (h : embedding.SparesScopes) (i : ScopeId)
    (depth : Nat) :
    Evaluator.Spares i ⟨evalSparing embedding i depth, invokeSparing embedding i depth⟩ := by
  induction depth with
  | zero => exact ⟨fun _ _ _ => .throw _, fun _ _ => .throw _⟩
  | succ depth ih =>
    refine ⟨fun scope e hs => ih.evalStep hs e, fun f args => ?_⟩
    show (invokeSparing embedding i (depth + 1) f args).Keeps i
    rw [invokeSparing]
    split
    · exact .throw _
    next hf => exact ih.invokeStep h hf args

/--
Whether the evaluation of an expression calls no `eval` or `exec` of a scope: it is the
same where such a call would end it.
-/
def EvalAvoids (embedding : Embedding) (depth : Nat) (i scope : ScopeId) (e : Expr) (s : Store) :
    Prop :=
  (evalSparing embedding i depth scope e).runOn s = (evalWithin embedding depth scope e).runOn s

/-- Whether the call of a function is not, and does not come to, one of `eval` or `exec` of a scope. -/
def InvokeAvoids (embedding : Embedding) (depth : Nat) (i : ScopeId) (f : Expr)
    (args : List Expr) (s : Store) : Prop :=
  (invokeSparing embedding i depth f args).runOn s = (invokeWithin embedding depth f args).runOn s

/--
**Evaluation changes no other scope.** A scope that is there beforehand is afterwards as
it was, whether there is a value or an error, if it is not the one that evaluation is in
and its `eval` and `exec` are not called. For a `let*` form, and for a call, it may be any
scope: the one that the form is in, that of the caller, or the one that a closure was made
in. Definitions go to scopes that the form or the call has added.
-/
theorem scopes_kept {embedding : Embedding} (h : embedding.SparesScopes) (depth : Nat)
    {s : Store} {i : ScopeId} (hi : i < s.scopes.size) :
    (∀ scope e, i ≠ scope → EvalAvoids embedding depth i scope e s →
      ((evalWithin embedding depth scope e).runOn s).2.scopes[i]? = s.scopes[i]?) ∧
    (∀ scope ref operands,
      EvalAvoids embedding depth i scope (.list ref (.symbol "let*" :: operands)) s →
        ((evalWithin embedding depth scope (.list ref (.symbol "let*" :: operands))).runOn
          s).2.scopes[i]? = s.scopes[i]?) ∧
    (∀ f args, InvokeAvoids embedding depth i f args s →
      ((invokeWithin embedding depth f args).runOn s).2.scopes[i]? = s.scopes[i]?) := by
  refine ⟨fun scope e hs ha => ?_, fun scope ref operands ha => ?_, fun f args ha => ?_⟩
  · rw [← ha]
    exact (spares_sparing h i depth).eval scope e hs s hi
  · rw [← ha]
    cases depth with
    | zero => rfl
    | succ depth =>
      exact (spares_sparing h i depth).evalLetStar scope operands s hi
  · rw [← ha]
    exact (spares_sparing h i depth).invoke f args s hi

/--
For instance in a store of a scope and another inside it: a definition in the inner one, a
definition in a `let*` form in the outer one, and a closure made in the outer one that
defines something and is called by an operation of the embedding program.
-/
theorem scopes_kept_outer :
    let embedding : Embedding := { Embedding.nothing with natives := [Sample.call1] }
    let s : Store := ((Store.empty.newScope none).2.newScope (some 0)).2
    let definition : Expr := .list 0 [.symbol "def", .symbol "x", .bool true]
    let letForm : List Expr := [.list 1 [.list 2 [.symbol "y", .bool false]], definition]
    let setter : Expr := .closure 3 ["y"] [definition] 0
    let call : Expr := .native 4 (Sample.nativeOf Sample.call1)
    (embedding.SparesScopes ∧ 0 < s.scopes.size) ∧
      (EvalAvoids embedding 2 0 1 definition s ∧
        ((evalWithin embedding 2 1 definition).runOn s).2.scopes[0]? = s.scopes[0]?) ∧
      (EvalAvoids embedding 3 0 0 (.list 5 (.symbol "let*" :: letForm)) s ∧
        ((evalWithin embedding 3 0 (.list 5 (.symbol "let*" :: letForm))).runOn s).2.scopes[0]? =
          s.scopes[0]?) ∧
      (InvokeAvoids embedding 4 0 call [setter, .null] s ∧
        ((invokeWithin embedding 4 call [setter, .null]).runOn s).2.scopes[0]? =
          s.scopes[0]?) := by
  intro embedding s definition letForm setter call
  have hspares : embedding.SparesScopes := by
    refine List.forall_mem_singleton.mpr fun i invoke h args => ?_
    rcases args with _ | ⟨f, _ | ⟨a, _ | ⟨_, _⟩⟩⟩
    · exact .fail _
    · exact .fail _
    · exact (Keeps.ofExcept _).bind fun f => h f [a]
    · exact .fail _
  have hsize : 0 < s.scopes.size := by decide
  have heval : EvalAvoids embedding 2 0 1 definition s := rfl
  have hlet : EvalAvoids embedding 3 0 0 (.list 5 (.symbol "let*" :: letForm)) s := rfl
  have hcall : InvokeAvoids embedding 4 0 call [setter, .null] s := by
    -- the operation does nothing but call its argument
    have hwithin : invokeWithin embedding 4 call [setter, .null] =
        invokeWithin embedding 3 setter [.null] := rfl
    have hsparing : invokeSparing embedding 0 4 call [setter, .null] =
        invokeSparing embedding 0 3 setter [.null] := rfl
    rw [InvokeAvoids, hwithin, hsparing]
    rfl
  obtain ⟨hothers, -, -⟩ := scopes_kept hspares 2 hsize
  obtain ⟨-, hletForms, -⟩ := scopes_kept hspares 3 hsize
  obtain ⟨-, -, hcalls⟩ := scopes_kept hspares 4 hsize
  exact ⟨⟨hspares, hsize⟩, ⟨heval, hothers 1 definition (by decide) heval⟩,
    ⟨hlet, hletForms 0 5 letForm hlet⟩, ⟨hcall, hcalls call _ hcall⟩⟩

end ExactLisp
