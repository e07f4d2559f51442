import ExactLisp.Environment
import ExactLisp.Host.Argument

/-!
# A sample embedding

A host program with a few dozen functions, at least one for every way in which an
embedding program can supply them: native operations with a fixed and with a
variable number of arguments, host operations over every type of argument, and
methods of a counter object, bound to their receiver in every possible way.
-/

namespace ExactLisp.Sample

open StoreM

/-! ## Native operations with a fixed number of arguments -/

/-- A native operation that takes exactly the arguments it has labels for. -/
def fixed (name : String) (params : List String)
    (body : Invoke → List Expr → StoreM Expr) : NativeOperation where
  name := name
  params := params
  arity := .exactly params.length
  run := body

/-- Arguments that the arity check would have refused. -/
def refuse (expected : Arity) (args : List Expr) : StoreM Expr :=
  fail (.arity expected args.length)

/-- An integer as an expression. -/
def int (n : Int64) : Expr := .number (.int n)

/-- The sum of two integers, if it fits. -/
def add2 : NativeOperation := fixed "add2" ["int", "int"] fun _ args =>
  match args with
  | [a, b] => do
    let a ← ofExcept a.asInt64
    let b ← ofExcept b.asInt64
    let n := a.toInt + b.toInt
    if Number.fitsInt64 n then return int (Int64.ofInt n)
    else fail (.evaluation (.custom "overflow"))
  | _ => refuse (.exactly 2) args

/-- A constant. -/
def fortyTwo : NativeOperation := fixed "forty-two" [] fun _ args =>
  match args with
  | [] => pure (int 42)
  | _ => refuse (.exactly 0) args

/-- Negation. -/
def negation : NativeOperation := fixed "not" ["boolean"] fun _ args =>
  match args with
  | [b] => do return .bool !(← ofExcept b.asBool)
  | _ => refuse (.exactly 1) args

/-- Strings from a list with a separator between neighbours. -/
def join : NativeOperation := fixed "join" ["string", "list"] fun _ args =>
  match args with
  | [separator, strings] => do
    let separator ← ofExcept separator.asString
    let strings ← ofExcept (strings.asItems.bind Expr.asStrings)
    newString (joinWith separator strings)
  | _ => refuse (.exactly 2) args

/-- The sum of a list of numbers. -/
def sumList : NativeOperation := fixed "sum-list" ["list"] fun _ args =>
  match args with
  | [numbers] => do
    ofArithmetic (Number.sum (← ofExcept (numbers.asItems.bind Expr.asNumbers)))
  | _ => refuse (.exactly 1) args

/-- The length of a list. -/
def countList : NativeOperation := fixed "count-list" ["list"] fun _ args =>
  match args with
  | [list] => do return .nat (← ofExcept list.asItems).length
  | _ => refuse (.exactly 1) args

/-- Call a function with one argument. -/
def call1 : NativeOperation := fixed "call1" ["function", "value"] fun invoke args =>
  match args with
  | [f, a] => do invoke (← ofExcept f.asFunction) [a]
  | _ => refuse (.exactly 2) args

/-- Three arguments in reverse. -/
def three : NativeOperation := fixed "three" ["int", "string", "value"] fun _ args =>
  match args with
  | [a, b, c] => do
    let a ← ofExcept a.asInt64
    let b ← ofExcept b.asString
    newList [c, ← newString b, int a]
  | _ => refuse (.exactly 3) args

/-- Four arguments in reverse. -/
def four : NativeOperation :=
  fixed "four" ["int", "boolean", "string", "number"] fun _ args =>
    match args with
    | [a, b, c, d] => do
      let a ← ofExcept a.asInt64
      let b ← ofExcept b.asBool
      let c ← ofExcept c.asString
      let d ← ofExcept d.asNumber
      newList [.number d, ← newString c, .bool b, int a]
    | _ => refuse (.exactly 4) args

/-- Five arguments in reverse. -/
def five : NativeOperation :=
  fixed "five" ["value", "value", "value", "value", "value"] fun _ args =>
    match args with
    | [a, b, c, d, e] => newList [e, d, c, b, a]
    | _ => refuse (.exactly 5) args

/-- An argument three times over. -/
def triple : NativeOperation := fixed "triple" ["value"] fun _ args =>
  match args with
  | [a] => newList [a, a, a]
  | _ => refuse (.exactly 1) args

/-- An argument twice over. -/
def twice : NativeOperation := fixed "twice" ["value"] fun _ args =>
  match args with
  | [a] => newList [a, a]
  | _ => refuse (.exactly 1) args

/-- An index that is always out of range. -/
def failIndex : NativeOperation := fixed "fail-index" ["int"] fun _ args =>
  match args with
  | [i] => do fail (.indexOutOfRange (← ofExcept i.asInt64) 7)
  | _ => refuse (.exactly 1) args

/-- The number of arguments. -/
def countArgs : NativeOperation where
  name := "count-args"
  params := ["args..."]
  arity := .any
  run _ args := pure (.nat args.length)

/-- Two arguments as a list. -/
def pair : NativeOperation := fixed "pair" ["value", "value"] fun _ args => newList args

/-! ## Native operations with a variable number of arguments -/

/-- The sum of some numbers times a weight. -/
def weightedSum : NativeOperation where
  name := "weighted-sum"
  params := ["int", "numbers..."]
  arity := .atLeast 1
  run _ args :=
    match args with
    | w :: numbers => do
      let w ← ofExcept w.asInt64
      let numbers ← ofExcept (Expr.asNumbers numbers)
      ofArithmetic (Number.sum numbers |>.bind fun total => Number.product [.int w, total])
    | [] => refuse (.atLeast 1) args

/-- The number of arguments. -/
def count : NativeOperation where
  name := "count"
  params := ["values..."]
  arity := .any
  run _ args := pure (.nat args.length)

/-- Strings put together. -/
def concat : NativeOperation where
  name := "concat"
  params := ["strings..."]
  arity := .atLeast 2
  run _ args := do newString (String.join (← ofExcept (Expr.asStrings args)))

/-- Two integers and how many numbers follow them. -/
def lax2 : NativeOperation where
  name := "lax2"
  params := ["int", "int", "numbers..."]
  arity := .any
  run _ args :=
    match args with
    | a :: b :: numbers => do
      let a ← ofExcept a.asInt64
      let b ← ofExcept b.asInt64
      let numbers ← ofExcept (Expr.asNumbers numbers)
      newList [int a, int b, .nat numbers.length]
    | _ => refuse (.atLeast 2) args

/-- Three arguments of given types and the ones that follow. -/
def tag3 : NativeOperation where
  name := "tag3"
  params := ["int", "string", "boolean", "values..."]
  arity := .exactly 4
  run _ args :=
    match args with
    | a :: b :: c :: others => do
      let a ← ofExcept a.asInt64
      let b ← ofExcept b.asString
      let c ← ofExcept c.asBool
      newList (int a :: (← newString b) :: .bool c :: others)
    | _ => refuse (.atLeast 3) args

/-! ## Host operations -/

/-- A number in a radix; except in base ten a negative number is shown as its 64 bits. -/
def inRadix (n : Int64) (radix : Nat) : String :=
  if radix = 10 then Number.int64Text n
  else String.ofList (Nat.toDigits radix n.toUInt64.toNat)

/-- An integer written in one of four radices. -/
def toRadix : HostOperation := .function "to-radix" ["int", "int"] fun args =>
  match args with
  | [n, r] => do
    let n ← n.asInt64
    let r ← r.asUInt32
    if r ∈ [2, 8, 10, 16] then return .str (inRadix n r)
    else HostOperation.failure s!"unsupported radix {r}"
  | _ => HostOperation.refuse 2 args.length

/-- Nothing. -/
def noop : HostOperation := .function "noop" [] fun _ => pure .null

/-- The float that is not a number. -/
def nan : HostOperation := .function "nan" [] fun _ => pure (.float Binary64.notANumber)

/-- Half of a number. -/
def half : HostOperation := .function "half" ["double"] fun args =>
  match args with
  | [x] => do return .float ((← x.asFloat) / 2)
  | _ => HostOperation.refuse 1 args.length

/-- The integers from zero up to a number, a thousand of them at most. -/
def range : HostOperation := .function "range" ["int"] fun args =>
  match args with
  | [n] => do
    let n ← n.asInt64
    return .list ((List.range (min 1000 n.toInt.toNat)).map fun i => .int (Int64.ofNat i))
  | _ => HostOperation.refuse 1 args.length

/-- A number if it is positive. -/
def positive : HostOperation := .function "positive" ["int"] fun args =>
  match args with
  | [n] => do
    let n ← n.asInt64
    return if 0 < n.toInt then .int n else .null
  | _ => HostOperation.refuse 1 args.length

/-- The sign of a number. -/
def sign : HostOperation := .function "sign" ["int"] fun args =>
  match args with
  | [n] => do return .int (Int64.ofInt (← n.asInt64).toInt.sign)
  | _ => HostOperation.refuse 1 args.length

/-- A number that is not negative. -/
def unsigned : HostOperation := .function "unsigned" ["int"] fun args =>
  match args with
  | [n] => do return .int (Int64.ofNat (← n.asUInt32))
  | _ => HostOperation.refuse 1 args.length

/-- Negation. -/
def hostNot : HostOperation := .function "host-not" ["boolean"] fun args =>
  match args with
  | [b] => do return .bool !(← b.asBool)
  | _ => HostOperation.refuse 1 args.length

/-- Three strings put together. -/
def concat3 : HostOperation := .function "concat3" ["string", "string", "string"] fun args =>
  match args with
  | [a, b, c] => do
    let a ← a.asString
    let b ← b.asString
    let c ← c.asString
    return .str (a ++ b ++ c)
  | _ => HostOperation.refuse 3 args.length

/-- One of two values, by whether a number is zero. -/
def pick : HostOperation := .function "pick" ["int", "value", "value", "boolean"] fun args =>
  match args with
  | [n, a, b, invert] => do
    let n ← n.asInt64
    let invert ← invert.asBool
    return if (n == 0) == invert then b else a
  | _ => HostOperation.refuse 4 args.length

/-- A value as it came. -/
def echo : HostOperation := .function "echo" ["value"] fun args =>
  match args with
  | [v] => pure v
  | _ => HostOperation.refuse 1 args.length

/-- The type that the host program sees. -/
def hostType : HostOperation := .function "host-type" ["value"] fun args =>
  match args with
  | [v] => pure (.str v.typeName)
  | _ => HostOperation.refuse 1 args.length

/-- The length of a list. -/
def hostCount : HostOperation := .function "host-count" ["list"] fun args =>
  match args with
  | [v] => do return .int (Int64.ofNat (← v.asList).length)
  | _ => HostOperation.refuse 1 args.length

/-- A list in reverse. -/
def reverse : HostOperation := .function "reverse" ["list"] fun args =>
  match args with
  | [v] => do return .list (← v.asList).reverse
  | _ => HostOperation.refuse 1 args.length

/-- An exact decimal from its text. -/
def decimal : HostOperation := .function "decimal" ["string"] fun args =>
  match args with
  | [s] => do
    let s ← s.asString
    match Decimal.parse? s with
    | some d => return .decimal d
    | none => HostOperation.failure ("bad decimal " ++ s)
  | _ => HostOperation.refuse 1 args.length

/-- Whether two objects are one. -/
def sameObject : HostOperation := .function "same-object" ["object", "object"] fun args =>
  match args with
  | [a, b] => do
    let a ← a.asObject
    let b ← b.asObject
    return .bool (a.id == b.id)
  | _ => HostOperation.refuse 2 args.length

/-- An object as it came. -/
def echoObject : HostOperation := .function "echo-object" ["object"] fun args =>
  match args with
  | [o] => do return .object (← o.asObject)
  | _ => HostOperation.refuse 1 args.length

/-! ## Counters -/

/-- The type of a counter. -/
def counterType : String := "Counter"

/-- A new counter at zero. -/
def newCounter : HostOperation := .function "new-counter" [] fun _ => do
  return .object (← HostOperation.newObject counterType 0)

/-- The count of a counter; null for another object. -/
def hits : HostOperation := .function "hits" ["object"] fun args =>
  match args with
  | [o] => do
    let o ← o.asObject
    if o.typeName = counterType then return .int (← HostOperation.content o) else return .null
  | _ => HostOperation.refuse 1 args.length

/-- Add to a counter and give the new count. -/
def bump : HostOperation := .method "bump" counterType ["int"] fun counter args =>
  match args with
  | [n] => do
    let n ← n.asInt64
    let total := (← HostOperation.content counter) + n
    HostOperation.setContent counter total
    return .int total
  | _ => HostOperation.refuse 1 args.length

/-- The count of a counter. -/
def read : HostOperation := .method "read" counterType [] fun counter _ => do
  return .int (← HostOperation.content counter)

/-! ## The embedding -/

/-- The native operations. -/
def natives : List NativeOperation :=
  [add2, fortyTwo, negation, join, sumList, countList, call1, three, four, five, triple, twice,
   failIndex, countArgs, pair, weightedSum, count, concat, lax2, tag3]

/-- The host operations that are called without a receiver. -/
def functions : List HostOperation :=
  [toRadix, noop, nan, half, range, positive, sign, unsigned, hostNot, concat3, pick, echo,
   hostType, hostCount, reverse, decimal, sameObject, echoObject, newCounter, hits]

/-- A native operation as a function value. -/
def nativeOf (operation : NativeOperation) : Native :=
  { name := operation.name, params := operation.params, arity := operation.arity,
    code := .embedded operation.name }

/-- A host operation as a function value, with or without a receiver. -/
def hostOf (operation : HostOperation) (receiver : Option HostObject) : HostFunction :=
  { name := operation.name, params := operation.params, receiver, key := operation.name }

/-- Bind everything in a scope, with new objects. -/
def install (scope : ScopeId) (s : Store) : Store :=
  let s := natives.foldl (fun s operation => s.registerNative scope (nativeOf operation)) s
  let s := functions.foldl
    (fun s operation => s.registerHost scope operation.name (hostOf operation none)) s
  let (counter, s) := s.newObject counterType 0
  let (counter2, s) := s.newObject counterType 0
  let (vector, s) := s.newObject "Vec" 0
  let (integer, s) := s.newObject "i64" 0
  let (boxed, s) := s.newObject "Boxed" 0
  let (other, s) := s.newObject "Vec" 0
  let s :=
    [("counter", counter), ("counter2", counter2), ("vec-obj", vector), ("int-obj", integer),
      ("boxed", boxed)].foldl (fun s p => s.bind scope p.1 (.atom (.object p.2))) s
  [("bump", hostOf bump (some counter)), ("read", hostOf read (some counter)),
    ("bump2", hostOf bump (some counter2)), ("bump-unbound", hostOf bump none),
    ("bump-wrong", hostOf bump (some other))].foldl (fun s p => s.registerHost scope p.1 p.2) s

/-- The sample embedding. -/
def embedding : Embedding :=
  { natives, hosts := functions ++ [bump, read], install }

end ExactLisp.Sample
