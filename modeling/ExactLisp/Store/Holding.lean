import ExactLisp.Store

/-!
# What holds on to a scope

A scope stays in use as long as something holds on to it: the program that talks to it, a scope
inside it, or a closure that was made in it and can still be found, in a value that the program
has kept or bound in a scope that is itself in use. So a scope that binds a closure made in it
holds on to itself, and stays in use for good.

The scopes in use are found from above: of all that are in use, those are taken away that
nothing among them holds on to, until nothing more can be taken away.
-/

namespace ExactLisp

namespace Expr

mutual

/-- The scopes that the closures in an expression were made in. -/
def captured : Expr → List ScopeId
  | list _ items => capturedAll items
  | closure _ _ body scope => scope :: capturedAll body
  | _ => []

/-- The scopes that the closures in some expressions were made in. -/
def capturedAll : List Expr → List ScopeId
  | [] => []
  | e :: rest => captured e ++ capturedAll rest

end

end Expr

namespace Store

/-- The scopes that a scope holds on to: its parent, and those of the closures that it binds. -/
def holds (s : Store) (id : ScopeId) : List ScopeId :=
  (s.parent? id).toList.map Subtype.val ++ (s.ownBindings id).values.flatMap Expr.captured

/-- Of some scopes those that are `roots`, or that one of them holds on to. -/
def heldAmong (s : Store) (roots scopes : List ScopeId) : List ScopeId :=
  let held := roots ++ scopes.flatMap s.holds
  scopes.filter (held.contains ·)

/-- Take away the scopes that nothing holds on to, as often as there are any. -/
def settleHeld (s : Store) (roots : List ScopeId) : Nat → List ScopeId → List ScopeId
  | 0, scopes => scopes
  | rounds + 1, scopes =>
    let held := s.heldAmong roots scopes
    if held.length = scopes.length then scopes else s.settleHeld roots rounds held

/-- The scopes in use, if the program holds on to `roots`. -/
def inUse (s : Store) (roots : List ScopeId) : List ScopeId :=
  s.settleHeld roots s.scopes.size ((List.range s.scopes.size).filter s.isLive)

/-- Take all scopes out of use that nothing holds on to. -/
def releaseUnheld (s : Store) (roots : List ScopeId) : Store :=
  let held := s.inUse roots
  ((List.range s.scopes.size).filter fun id => !held.contains id).foldl release s

end Store

end ExactLisp
