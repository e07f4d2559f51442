import ExactLisp.Host.Value

/-!
# Embedding

The program that embeds the language supplies functions of two kinds. A native
operation works on expressions like a built-in function and may call functions it
is given. A host operation works on host values and the contents of the host's own
objects; it can neither evaluate nor see a scope.
-/

namespace ExactLisp

/-- A way to call a function with arguments that have been evaluated. -/
abbrev Invoke := Expr → List Expr → StoreM Expr

/-- A function of the embedding program that works on expressions. -/
structure NativeOperation where
  name : String
  params : List String
  arity : Arity
  run : Invoke → List Expr → StoreM Expr

/-- Why a host operation failed. -/
inductive HostFault where
  /-- The operation rejected its arguments. -/
  | rejected (e : Error)
  /-- The operation failed, in the host program's words. -/
  | failed (text : String)

/-- The contents of the host objects. -/
abbrev HostCells := Array Int64

/-- A computation of the host program. -/
abbrev HostM (α : Type) := ExceptT HostFault (StateM HostCells) α

/-- A function of the embedding program that works on host values. -/
structure HostOperation where
  name : String
  params : List String
  run : Option HostObject → List HostValue → HostM HostValue

/-- What the embedding program supplies. -/
structure Embedding where
  natives : List NativeOperation
  hosts : List HostOperation
  /-- Bind what the program supplies in a scope. -/
  install : ScopeId → Store → Store

namespace Embedding

/-- An embedding program that supplies nothing. -/
def nothing : Embedding := { natives := [], hosts := [], install := fun _ s => s }

/-- Run a native operation. -/
def runNative (embedding : Embedding) (invoke : Invoke) (key : String) (args : List Expr) :
    StoreM Expr :=
  match embedding.natives.find? (·.name == key) with
  | some operation => operation.run invoke args
  | none => StoreM.fail (.undefinedSymbol key)

/-- Run a computation of the host program on the store's cells. -/
def runHostM {α : Type} (name : String) (m : HostM α) : StoreM α := do
  let outcome ← StoreM.onStore fun s =>
    let (outcome, cells) := m.run s.cells
    (outcome, { s with cells })
  match outcome with
  | .ok a => pure a
  | .error (.rejected e) => StoreM.fail e
  | .error (.failed text) => StoreM.fail (.host name text)

/-- Call a host function. -/
def runHost (embedding : Embedding) (f : HostFunction) (args : List Expr) : StoreM Expr :=
  match embedding.hosts.find? (·.name == f.key) with
  | some operation => do
    let v ← runHostM f.name (operation.run f.receiver (HostValue.ofExprs args))
    v.toExpr
  | none => StoreM.fail (.undefinedSymbol f.key)

end Embedding

end ExactLisp
