import ExactLisp.StoreM
import ExactLisp.Embedding

/-!
# What the built-in functions compute

Arguments are converted from the left, and the first that does not fit decides the
error. The number of arguments has been checked before a function runs.
-/

namespace ExactLisp.Builtin

open StoreM

/-- Arguments that the arity check would have refused. -/
def refuse (b : Builtin) (args : List Expr) : StoreM Expr :=
  fail (.arity b.arity args.length)

/-- Whether every later number stands in a relation to the first, as floats. -/
def compare (holds : Float → Float → Bool) (first : Expr) (others : List Expr) :
    StoreM Expr := do
  let x ← ofExcept first.asNumber
  let ys ← ofExcept (Expr.asNumbers others)
  return .bool (ys.all fun y => holds x.toFloat y.toFloat)

/-- Call a function on each item in turn. -/
def mapItems (invoke : Invoke) (f : Expr) : List Expr → StoreM (List Expr)
  | [] => pure []
  | e :: others => do
    let v ← invoke f [e]
    return v :: (← mapItems invoke f others)

/-- The element at a position counted from zero. -/
def elementAt (index : Int64) (elements : List Expr) : Except Error Expr :=
  let outOfRange : Except Error Expr := .error (.indexOutOfRange index elements.length)
  if index.toInt < 0 then outOfRange
  else
    match elements[index.toInt.toNat]? with
    | some e => .ok e
    | none => outOfRange

/-- Arguments in which a list in last place stands for its items. -/
def spliced : List Expr → List Expr
  | [] => []
  | [.list _ items] => items
  | e :: others => e :: spliced others

/-- Run a built-in function on arguments that have been evaluated. -/
def run (invoke : Invoke) : Builtin → List Expr → StoreM Expr
  | .add, args => do ofArithmetic (Number.sum (← ofExcept (Expr.asNumbers args)))
  | .multiply, args => do ofArithmetic (Number.product (← ofExcept (Expr.asNumbers args)))
  | .subtract, e :: others => do
    let n ← ofExcept e.asNumber
    ofArithmetic (Number.difference n (← ofExcept (Expr.asNumbers others)))
  | .divide, e :: others => do
    let n ← ofExcept e.asNumber
    ofArithmetic (Number.quotient n (← ofExcept (Expr.asNumbers others)))
  | .less, e :: others => compare (fun x y => x < y) e others
  | .greater, e :: others => compare (fun x y => x > y) e others
  | .atMost, e :: others => compare (fun x y => x ≤ y) e others
  | .atLeast, e :: others => compare (fun x y => x ≥ y) e others
  | .same, [a, b] => pure (.bool (a.identical b))
  | .equal, [a, b] => pure (.bool (a.identical b || a == b))
  | .first, [e] => do
    match ← ofExcept e.asItems with
    | item :: _ => pure item
    | [] => fail (.indexOutOfRange 0 0)
  | .rest, [e] => do
    match ← ofExcept e.asItems with
    | _ :: items => newList items
    | [] => fail (.indexOutOfRange 1 0)
  | .cons, [a, .list _ items] => newList (a :: items)
  | .cons, [a, b] => newList [a, b]
  | .length, [e] => do return .nat (← ofExcept e.asSequence).length
  | .list, args => newList args
  | .map, [f, e] => do
    let f ← ofExcept f.asFunction
    let items ← ofExcept e.asItems
    newList (← mapItems invoke f items)
  | .nth, [i, e] => do
    let index ← ofExcept i.asInt64
    let elements ← ofExcept e.asSequence
    ofExcept (elementAt index elements)
  | .apply, f :: args => do
    let f ← ofExcept f.asFunction
    invoke f (spliced args)
  | .parse, [e] => do read (← ofExcept e.asString)
  | b, args => refuse b args

end ExactLisp.Builtin
