import ExactLisp.Builtin.Run

/-!
# Evaluation

Symbols are looked up; atoms, arrays, functions and the empty list are their own
values. A list whose head is one of six symbols is a special form. Any other list
is a call: the head is evaluated, then the arguments from the left, and the
function is invoked with them.

Evaluation and invocation call each other without an end that the code shows: the
program decides. So each is written as one step, given both for everything that it
does inside (`Evaluator`), and the two steps are tied together once, by a bound on
how deep they may nest. A program that stays below the bound never notices it.
-/

namespace ExactLisp

open StoreM

/-- The two operations that evaluation is made of. -/
structure Evaluator where
  eval : ScopeId → Expr → StoreM Expr
  invoke : Invoke

/-- The forms whose operands are not evaluated first. -/
inductive SpecialForm where
  | define
  | lambda
  | conditional
  | quote
  | sequence
  | letStar
  deriving DecidableEq, Repr

/-- The special form that a symbol at the head of a list names. -/
def SpecialForm.ofName? (name : String) : Option SpecialForm :=
  if name = "def" then some define
  else if name = "lambda" then some lambda
  else if name = "if" then some conditional
  else if name = Datum.quoteName then some quote
  else if name = Datum.sequenceName then some sequence
  else if name = "let*" then some letStar
  else none

namespace Evaluator

/-! ## Sequences -/

/-- Evaluate forms in order; the value is that of the last one, and null for none. -/
def evalSequence (ev : Evaluator) (scope : ScopeId) : List Expr → StoreM Expr
  | [] => pure .null
  | [e] => ev.eval scope e
  | e :: rest => do
    let _ ← ev.eval scope e
    ev.evalSequence scope rest

/-- Evaluate forms in order and keep all values. -/
def evalEach (ev : Evaluator) (scope : ScopeId) : List Expr → StoreM (List Expr)
  | [] => pure []
  | e :: rest => do
    let v ← ev.eval scope e
    return v :: (← ev.evalEach scope rest)

/-! ## Special forms -/

/-- Bind a symbol in the current scope to the value of a form. -/
def evalDefine (ev : Evaluator) (scope : ScopeId) : List Expr → StoreM Expr
  | [.symbol name, form] => do
    let v ← ev.eval scope form
    define scope name v
    return v
  | [target, _] => fail (.type (.definitionTarget target.text))
  | args => fail (.arity (.exactly 2) args.length)

/-- The names in a parameter list, which are symbols and distinct from those before them. -/
def parameterNames (seen : List String) : List Expr → Except Error (List String)
  | [] => .ok seen.reverse
  | .symbol name :: rest =>
    if name ∈ seen then .error (.type (.duplicateParameter name))
    else parameterNames (name :: seen) rest
  | e :: _ => .error (.type (.parameterName e.text))

/-- Make a closure over the current scope. -/
def evalLambda (scope : ScopeId) : List Expr → StoreM Expr
  | .list _ params :: body => do
    let names ← ofExcept (parameterNames [] params)
    return .closure (← fresh) names body scope
  | e :: _ => fail (.type (.parameterList e.text))
  | [] => fail (.arity (.atLeast 1) 0)

/-- Evaluate one branch or the other; a missing second branch is the empty list. -/
def evalConditional (ev : Evaluator) (scope : ScopeId) : List Expr → StoreM Expr
  | condition :: consequent :: alternatives => do
    if (← ev.eval scope condition).isTruthy then ev.eval scope consequent
    else if alternatives.isEmpty then newList []
    else ev.evalSequence scope alternatives
  | args => fail (.arity (.atLeast 2) args.length)

/-- Give back a form unevaluated. -/
def evalQuote : List Expr → StoreM Expr
  | [e] => pure e
  | args => fail (.arity (.exactly 1) args.length)

/-- Make bindings in order, each with the ones before it in scope. -/
def evalBindings (ev : Evaluator) (scope : ScopeId) : List Expr → StoreM Unit
  | [] => pure ()
  | .list _ [.symbol name, form] :: rest => do
    let v ← ev.eval scope form
    bind scope name v
    ev.evalBindings scope rest
  | e :: _ => fail (.type (.binding e.text))

/-- Evaluate a body in a new scope with the given bindings. -/
def evalLetStar (ev : Evaluator) (scope : ScopeId) : List Expr → StoreM Expr
  | .list _ bindings :: body => do
    let inner ← newScope scope
    ev.evalBindings inner bindings
    ev.evalSequence inner body
  | e :: _ => fail (.type (.bindingList e.text))
  | [] => fail (.arity (.atLeast 1) 0)

/-- Evaluate a special form with its operands. -/
def evalSpecial (ev : Evaluator) (scope : ScopeId) (args : List Expr) :
    SpecialForm → StoreM Expr
  | .define => ev.evalDefine scope args
  | .lambda => evalLambda scope args
  | .conditional => ev.evalConditional scope args
  | .quote => evalQuote args
  | .sequence => ev.evalSequence scope args
  | .letStar => ev.evalLetStar scope args

/-! ## Calls -/

/-- An error together with the call it came from, if the callee rejected its arguments. -/
def locate (head callee : Expr) (e : Error) : Error :=
  if e.isArgumentError then .atCall head.text callee.text e else e

/-- Run a call; its argument errors carry the call. -/
def atCallSite (head callee : Expr) (m : StoreM Expr) : StoreM Expr :=
  tryCatch m fun
    | .error e => fail (locate head callee e)
    | .exhausted => throw .exhausted

/-- Evaluate a call. -/
def evalCall (ev : Evaluator) (scope : ScopeId) (head : Expr) (args : List Expr) :
    StoreM Expr := do
  let callee ← ev.eval scope head
  if callee.isFunction then
    let values ← ev.evalEach scope args
    atCallSite head callee (ev.invoke callee values)
  else fail (locate head callee (.type (.notCallable callee.text)))

/-- One step of evaluation. -/
def evalStep (ev : Evaluator) (scope : ScopeId) : Expr → StoreM Expr
  | .symbol name => ask fun s => s.get scope name
  | .list _ (.symbol name :: args) =>
    match SpecialForm.ofName? name with
    | some form => ev.evalSpecial scope args form
    | none => ev.evalCall scope (.symbol name) args
  | .list _ (head :: args) => ev.evalCall scope head args
  | e => pure e

/-! ## Invocation -/

/-- Go on only if a scope is still in use. -/
def requireLive (scope : ScopeId) : StoreM Unit := do
  unless (← get).isLive scope do fail (.evaluation .environmentGone)

/-- Run a native function whose number of arguments is right. -/
def runNative (embedding : Embedding) (ev : Evaluator) (args : List Expr) :
    NativeCode → StoreM Expr
  | .builtin b => b.run ev.invoke args
  | .eval ambient =>
    match args with
    | [e] => do
      requireLive ambient
      ev.eval ambient e
    | _ => fail (.arity (.exactly 1) args.length)
  | .exec ambient =>
    match args with
    | [e] => do
      let text ← ofExcept e.asString
      requireLive ambient
      ev.eval ambient (← read text)
    | _ => fail (.arity (.exactly 1) args.length)
  | .embedded key => embedding.runNative ev.invoke key args

/-- Bind parameters to arguments, as many as there are of both. -/
def bindAll (scope : ScopeId) : List String → List Expr → StoreM Unit
  | name :: names, v :: values => do
    bind scope name v
    bindAll scope names values
  | _, _ => pure ()

/-- One step of invocation: check the number of arguments, then run the function. -/
def invokeStep (embedding : Embedding) (ev : Evaluator) (f : Expr) (args : List Expr) :
    StoreM Expr :=
  match f with
  | .native _ n => do
    expect n.arity args
    runNative embedding ev args n.code
  | .closure _ params body captured => do
    expect (.exactly params.length) args
    let scope ← newScope captured
    bindAll scope params args
    ev.evalSequence scope body
  | .host _ h => embedding.runHost h args
  | other => ofExcept (other.mismatch "function")

end Evaluator

/-! ## Tying the steps together -/

mutual

/-- Evaluate an expression in a scope, nesting at most `depth` deep. -/
def evalWithin (embedding : Embedding) : Nat → ScopeId → Expr → StoreM Expr
  | 0, _, _ => throw .exhausted
  | depth + 1, scope, e =>
    Evaluator.evalStep ⟨evalWithin embedding depth, invokeWithin embedding depth⟩ scope e

/-- Invoke a function, nesting at most `depth` deep. -/
def invokeWithin (embedding : Embedding) : Nat → Expr → List Expr → StoreM Expr
  | 0, _, _ => throw .exhausted
  | depth + 1, f, args =>
    Evaluator.invokeStep embedding
      ⟨evalWithin embedding depth, invokeWithin embedding depth⟩ f args

end

/-- How deep evaluation may nest: far deeper than any program that ends needs in practice. -/
def depthBound : Nat := 10000000

/-- Evaluate an expression in a scope. -/
def evaluate (embedding : Embedding) (scope : ScopeId) (e : Expr) : StoreM Expr :=
  evalWithin embedding depthBound scope e

/-- Call a function with arguments that have been evaluated. -/
def invoke (embedding : Embedding) (f : Expr) (args : List Expr) : StoreM Expr :=
  invokeWithin embedding depthBound f args

/-- Evaluation and invocation with the functions of an embedding program. -/
def evaluator (embedding : Embedding) : Evaluator := ⟨evaluate embedding, invoke embedding⟩

/-- Read a text and evaluate it in a scope. -/
def Evaluator.execute (ev : Evaluator) (scope : ScopeId) (text : String) : StoreM Expr := do
  ev.eval scope (← read text)

/-- Read a text and evaluate it in a scope, with the functions of an embedding program. -/
def execute (embedding : Embedding) (scope : ScopeId) (text : String) : StoreM Expr :=
  (evaluator embedding).execute scope text

end ExactLisp
