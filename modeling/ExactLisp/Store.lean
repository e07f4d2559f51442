import ExactLisp.Datum.Word
import ExactLisp.Error
import ExactLisp.Expr.Basic
import Std.Data.TreeMap

/-!
# The store

A running session keeps its scopes in a store. A scope binds names to values and
may have a parent, which is always an older scope: the scopes form a forest, and
following parents from any of them comes to an end. Scopes are only ever added.

The store also hands out references, so that a new object differs from all that
are there, and holds one integer cell for every host object.

A scope is *live* until nothing holds on to it any more. The functions that act
on a scope from elsewhere check this first.
-/

namespace ExactLisp

/-- The bindings of one scope, ordered by name. -/
abbrev Bindings := Std.TreeMap String Expr

/-- A scope. -/
structure Scope where
  bindings : Bindings
  parent : Option ScopeId
  live : Bool

/-- Everything that evaluation can change. -/
structure Store where
  /-- The scopes, oldest first; a scope is known by its place. -/
  scopes : Array Scope
  /-- The reference that the next new object gets. -/
  nextRef : Ref
  /-- The contents of the host objects. -/
  cells : Array Int64

namespace Store

/-- A store with nothing in it. -/
def empty : Store := { scopes := #[], nextRef := 0, cells := #[] }

/-! ## Looking names up -/

/-- The parent of a scope. Only an older scope counts as one. -/
def parent? (s : Store) (id : ScopeId) : Option { p : ScopeId // p < id } :=
  match s.scopes[id]? with
  | some scope =>
    match scope.parent with
    | some p => if h : p < id then some ⟨p, h⟩ else none
    | none => none
  | none => none

/-- A scope followed by each enclosing one, innermost first. -/
def chain (s : Store) (id : ScopeId) : List ScopeId :=
  match s.parent? id with
  | some p => id :: s.chain p.1
  | none => [id]
termination_by id
decreasing_by exact p.2

/-- The bindings that a scope itself makes. -/
def ownBindings (s : Store) (id : ScopeId) : Bindings :=
  match s.scopes[id]? with
  | some scope => scope.bindings
  | none => ∅

/-- The value of a name in a scope or the nearest enclosing one that binds it. -/
def lookup (s : Store) (id : ScopeId) (name : String) : Option Expr :=
  (s.chain id).findSome? fun scope => (s.ownBindings scope)[name]?

/-- The value of a name; a name that is not bound is an error. -/
def get (s : Store) (id : ScopeId) (name : String) : Except Error Expr :=
  match s.lookup id name with
  | some value => .ok value
  | none => .error (.undefinedSymbol name)

/-- Whether a name is bound. -/
def contains (s : Store) (id : ScopeId) (name : String) : Bool := (s.lookup id name).isSome

/-- All visible bindings in the order of their names; inner ones hide outer ones. -/
def bindings (s : Store) (id : ScopeId) : List (String × Expr) :=
  let merged := (s.chain id).reverse.foldl
    (fun (all : Bindings) scope => (s.ownBindings scope).foldl (fun acc n v => acc.insert n v) all) ∅
  merged.toList

/-- The visible names that start with `stem`, in order. -/
def complete (s : Store) (id : ScopeId) (stem : String) : List String :=
  let names := (s.chain id).flatMap fun scope => (s.ownBindings scope).keys
  let matching := names.filter fun name => stem.toList.isPrefixOf name.toList
  (matching.foldl (fun (all : Std.TreeMap String Unit) name => all.insert name ()) ∅).keys

/-! ## Changing the store -/

/-- Bind a name in a scope, whatever the name. -/
def bind (s : Store) (id : ScopeId) (name : String) (value : Expr) : Store :=
  { s with
    scopes := s.scopes.modify id fun scope =>
      { scope with bindings := scope.bindings.insert name value } }

/-- Bind a name in a scope, unless the name is reserved. -/
def define (s : Store) (id : ScopeId) (name : String) (value : Expr) : Except Error Store :=
  if name ∈ reservedNames then .error (.reservedName name) else .ok (s.bind id name value)

/-- Add a scope. -/
def newScope (s : Store) (parent : Option ScopeId) : ScopeId × Store :=
  (s.scopes.size, { s with scopes := s.scopes.push { bindings := ∅, parent, live := true } })

/-- Whether a scope is still in use. -/
def isLive (s : Store) (id : ScopeId) : Bool :=
  match s.scopes[id]? with
  | some scope => scope.live
  | none => false

/-- Take a scope out of use. -/
def release (s : Store) (id : ScopeId) : Store :=
  { s with scopes := s.scopes.modify id fun scope => { scope with live := false } }

/-- A reference that no object has yet. -/
def fresh (s : Store) : Ref × Store := (s.nextRef, { s with nextRef := s.nextRef + 1 })

/-- A new host object. -/
def newObject (s : Store) (typeName : String) (content : Int64) : HostObject × Store :=
  ({ id := s.cells.size, typeName }, { s with cells := s.cells.push content })

end Store

end ExactLisp
