import ExactLisp.Embedding

/-!
# Environments

An environment is a scope as a program starts with it. The default one binds every
built-in function, equality under a second name, and two functions that act on the
environment itself: `eval` evaluates an expression there, `exec` a text. They do
not keep the environment alive; once it is dropped they fail.
-/

namespace ExactLisp.Store

/-- Bind a new native function under its name. -/
def registerNative (s : Store) (scope : ScopeId) (f : Native) : Store :=
  let (ref, s) := s.fresh
  s.bind scope f.name (.native ref f)

/-- Bind a new host function under a name, which need not be its own. -/
def registerHost (s : Store) (scope : ScopeId) (name : String) (f : HostFunction) : Store :=
  let (ref, s) := s.fresh
  s.bind scope name (.host ref f)

/-- Bind the current value of one name under another as well. -/
def addAlias (s : Store) (scope : ScopeId) (source target : String) : Except Error Store :=
  match s.get scope source with
  | .ok value => s.define scope target value
  | .error e => .error e

/-- A built-in function as a native function. -/
def builtinNative (b : Builtin) : Native :=
  { name := b.name, params := b.params, arity := b.arity, code := .builtin b }

/-- The function that evaluates an expression in a scope. -/
def evalNative (ambient : ScopeId) : Native :=
  { name := "eval", params := ["expression"], arity := .exactly 1, code := .eval ambient }

/-- The function that evaluates a text in a scope. -/
def execNative (ambient : ScopeId) : Native :=
  { name := "exec", params := ["text"], arity := .exactly 1, code := .exec ambient }

/-- Bind all that a default environment has. -/
def installDefaults (s : Store) (scope : ScopeId) : Store :=
  let s := Builtin.all.foldl (fun s b => s.registerNative scope (builtinNative b)) s
  let s := (s.registerNative scope (evalNative scope)).registerNative scope (execNative scope)
  match s.addAlias scope Builtin.equal.name "=" with
  | .ok s => s
  | .error _ => s

/-- The fixed starting points of an environment. -/
inductive Starting where
  /-- Nothing is bound. -/
  | bare
  /-- The built-in functions are bound. -/
  | defaults
  /-- What the embedding program supplies is bound as well. -/
  | embedded
  deriving DecidableEq, Repr

/-- A new environment. -/
def newEnvironment (s : Store) (embedding : Embedding) (start : Starting) : ScopeId × Store :=
  let (scope, s) := s.newScope none
  match start with
  | .bare => (scope, s)
  | .defaults => (scope, s.installDefaults scope)
  | .embedded => (scope, embedding.install scope (s.installDefaults scope))

/-- A scope as it is shown for inspection: the names it binds itself, not their values. -/
def inspectScope (s : Store) (scope : ScopeId) : String :=
  let names := joinWith ", " ((s.ownBindings scope).keys.map inspected)
  let hasParent := toString (s.parent? scope).isSome
  "Environment \x7b bindings: [" ++ names ++ "], has_parent: " ++ hasParent ++ " \x7d"

end ExactLisp.Store
