import ExactLisp.Embedding

/-!
# Arguments of host operations

How a host operation takes its arguments as values of the types it works on. The
number of arguments is checked first, then each is converted from the left.
-/

namespace ExactLisp

namespace HostValue

/-- Reject an argument that is not of the expected kind. -/
def mismatch {α : Type} (expected : String) (v : HostValue) : HostM α :=
  throw (.rejected (.type (.mismatch expected v.typeName)))

/-- A 64-bit integer. -/
def asInt64 : HostValue → HostM Int64
  | int n => pure n
  | v => mismatch "int" v

/-- A natural number below `2^32`. -/
def asUInt32 : HostValue → HostM Nat
  | int n =>
    if 0 ≤ n.toInt ∧ n.toInt < twoPow 32 then pure n.toInt.toNat
    else throw (.rejected (.type (.unsignedRange n)))
  | v => mismatch "int" v

/-- Any number, as a float. -/
def asFloat : HostValue → HostM Float
  | float x => pure x
  | int n => pure (Binary64.ofInt n.toInt)
  | decimal d => pure d.toFloat
  | v => mismatch "double" v

/-- A boolean. -/
def asBool : HostValue → HostM Bool
  | bool b => pure b
  | v => mismatch "boolean" v

/-- A string. -/
def asString : HostValue → HostM String
  | str s => pure s
  | v => mismatch "string" v

/-- A host object. -/
def asObject : HostValue → HostM HostObject
  | object o => pure o
  | v => mismatch "object" v

/-- The items of a list or the elements of an array. -/
def asList : HostValue → HostM (List HostValue)
  | list items => pure items
  | array elements => pure (elements.map ofAtom)
  | v => mismatch "list" v

end HostValue

namespace HostOperation

/-- Reject a wrong number of arguments. -/
def refuse {α : Type} (expected got : Nat) : HostM α :=
  throw (.rejected (.arity (.exactly expected) got))

/-- Fail in the host program's words. -/
def failure {α : Type} (text : String) : HostM α := throw (.failed text)

/-- An operation that takes a fixed number of arguments and no receiver. -/
def function (name : String) (params : List String)
    (body : List HostValue → HostM HostValue) : HostOperation where
  name := name
  params := params
  run _ args :=
    if args.length = params.length then body args else refuse params.length args.length

/--
An operation on an object of the given type. It needs a receiver, and one of that
type, before it looks at the number of arguments.
-/
def method (name typeName : String) (params : List String)
    (body : HostObject → List HostValue → HostM HostValue) : HostOperation where
  name := name
  params := params
  run receiver args :=
    match receiver with
    | none => throw (.rejected (.type .receiverMissing))
    | some o =>
      if o.typeName = typeName then
        if args.length = params.length then body o args else refuse params.length args.length
      else throw (.rejected (.type (.receiverMismatch typeName o.typeName)))

/-- The content of a host object. -/
def content (o : HostObject) : HostM Int64 := do
  return (← get).getD o.id 0

/-- Change the content of a host object. -/
def setContent (o : HostObject) (n : Int64) : HostM Unit :=
  modify fun cells => cells.setIfInBounds o.id n

/-- A new host object. -/
def newObject (typeName : String) (n : Int64) : HostM HostObject :=
  modifyGet fun cells => ({ id := cells.size, typeName }, cells.push n)

end HostOperation

end ExactLisp
