import ExactLisp.Completion
import ExactLisp.Environment
import ExactLisp.Eval
import ExactLisp.Store.Holding

/-!
# Sessions

A session is a conversation with one store. It has a stack of scopes, the current
one on top, can come back to scopes that it has left, and can keep one value aside
while the environment is exchanged. Each command gives an answer, and an error in one
does not end the session.

What a command evaluates it evaluates by an `Evaluator`. For a session that is the one
of the embedding program (`Session.run`).
-/

namespace ExactLisp

/-- The end of a computation: a value, or why there is none. -/
abbrev Outcome (α : Type) := Except Stop α

/-- Run a computation on a store. -/
def StoreM.runOn {α : Type} (m : StoreM α) (s : Store) : Outcome α × Store :=
  m.run.run s

theorem StoreM.runOn_bind {α β : Type} (m : StoreM α) (f : α → StoreM β) (s : Store) :
    (m >>= f).runOn s =
      match m.runOn s with
      | (.ok a, next) => (f a).runOn next
      | (.error stop, next) => (.error stop, next) := by
  rw [StoreM.runOn, ExceptT.run_bind, StateT.run_bind]
  change _ = match m.run.run s with
    | (.ok a, next) => (f a).runOn next
    | (.error stop, next) => (.error stop, next)
  rcases m.run.run s with ⟨_ | a, next⟩ <;> rfl

/-- A session between two commands. -/
structure Session where
  store : Store
  /-- The scope that commands act on. -/
  current : ScopeId
  /-- The scopes beneath it, innermost first. -/
  outer : List ScopeId
  /-- The scopes that have been left, the latest first. -/
  left : List ScopeId
  /-- The value kept aside. -/
  held : Option Expr

/-- What a session can be asked to do. -/
inductive Command where
  | execute (text : String)
  /-- Bind a form without evaluating it. -/
  | define (name text : String)
  | get (name : String)
  | contains (name : String)
  | addAlias (source target : String)
  | complete (stem : String)
  | completeLine (line : String)
  | bindings (withoutFunctions : Bool)
  | inspectScope
  | enterChild
  | leaveChild
  /-- Go on in a scope that has been left; the current one is then beneath it. -/
  | comeBack (index : Nat)
  /-- Let go of all scopes and start from a new environment. -/
  | restart (start : Store.Starting)
  | hold (name : String)
  | bindHeld (name : String)
  /-- Call a function with forms that are not evaluated. -/
  | call (name : String) (args : List String)
  | inspect (text : String) (other : Option String)

/-- What an array tells about itself. -/
structure ArrayInspection where
  length : Nat
  isEmpty : Bool
  /-- Whether there is nothing at the index that equals the length. -/
  endsAtLength : Bool
  first : Option Expr

/-- Everything there is to know about a value. -/
structure Inspection where
  value : Expr
  shown : String
  inspected : String
  typeName : String
  isTruthy : Bool
  isNil : Bool
  symbol : Option String
  listLength : Option Nat
  int64 : Except Error Int64
  bool : Except Error Bool
  number : Except Error Number
  function : Except Error String
  identicalToItself : Bool
  equalToItself : Bool
  hostType : String
  hostInspected : String
  /-- The value after it has been to the host program and back. -/
  hostReturned : Expr
  evaluatedAgain : Outcome Expr
  array : Option ArrayInspection
  /-- Equality and identity with a second value, if there is one. -/
  comparison : Option (Outcome (Bool × Bool))

/-- What a command is answered with. -/
inductive Answer where
  | value (outcome : Outcome Expr)
  | done (outcome : Outcome Unit)
  | truth (b : Bool)
  | names (names : List String)
  | completion (completion : Option Completion)
  | bindings (shown : List (String × String))
  | text (s : String)
  /-- The number of scopes on the stack. -/
  | stackHeight (n : Nat)
  | inspection (outcome : Outcome Inspection)

namespace Session

/-- A session that starts from a new environment in a store. -/
def start (embedding : Embedding) (s : Store) (held : Option Expr) (start : Store.Starting) :
    Session :=
  let (scope, s) := s.newEnvironment embedding start
  { store := s, current := scope, outer := [], left := [], held }

/-- How many scopes are on the stack. -/
def height (session : Session) : Nat := session.outer.length + 1

/-- An array seen from inside. -/
def inspectArray : Expr → Option ArrayInspection
  | .array _ elements =>
    some
      { length := elements.atoms.length
        isEmpty := elements.atoms.isEmpty
        endsAtLength := elements.atoms[elements.atoms.length]?.isNone
        first := elements.atoms.head?.map .atom }
  | _ => none

/-- The text of a function value. -/
def functionText (e : Expr) : Except Error String := e.asFunction.map Expr.inspect

/-- The scopes that the program itself holds on to. -/
def scopes (session : Session) : List ScopeId :=
  session.current :: (session.outer ++ session.left)

/-- The scopes that the value kept aside holds on to. -/
def capturedByHeld (session : Session) : List ScopeId :=
  match session.held with
  | some value => value.captured
  | none => []

/-- Evaluate a text and tell everything about its value. -/
def inspectText (ev : Evaluator) (scope : ScopeId) (text : String) (other : Option String)
    (s : Store) : Outcome Inspection × Store :=
  match (ev.execute scope text).runOn s with
  | (.error stop, s) => (.error stop, s)
  | (.ok value, s) =>
    let hosted := HostValue.ofExpr value
    match hosted.toExpr.runOn s with
    | (.error stop, s) => (.error stop, s)
    | (.ok returned, s) =>
      let (again, s) := (ev.eval scope value).runOn s
      let (comparison, s) :=
        match other with
        | some otherText =>
          let (outcome, s) := (ev.execute scope otherText).runOn s
          (some (outcome.map fun e => (value == e, value.identical e)), s)
        | none => (none, s)
      let inspection :=
        { value
          shown := value.text
          inspected := value.inspect
          typeName := value.typeName
          isTruthy := value.isTruthy
          isNil := value.isNil
          symbol := value.symbol?
          listLength := value.items?.map List.length
          int64 := value.asInt64
          bool := value.asBool
          number := value.asNumber
          function := functionText value
          identicalToItself := value.identical value
          equalToItself := value == value
          hostType := hosted.typeName
          hostInspected := hosted.inspect
          hostReturned := returned
          evaluatedAgain := again
          array := inspectArray value
          comparison }
      (.ok inspection, s)

/-- Run a computation and answer with its value. -/
def answerValue (session : Session) (m : StoreM Expr) : Answer × Session :=
  let (outcome, s) := m.runOn session.store
  (.value outcome, { session with store := s })

/-- Run a computation and answer whether it succeeded. -/
def answerDone (session : Session) (m : StoreM Unit) : Answer × Session :=
  let (outcome, s) := m.runOn session.store
  (.done outcome, { session with store := s })

open StoreM

/-- Read each text as an expression. -/
def readEach : List String → StoreM (List Expr)
  | [] => pure []
  | text :: rest => do
    let e ← read text
    return e :: (← readEach rest)

/-- Carry out a command, with everything evaluated by `ev`. -/
def runBy (ev : Evaluator) (embedding : Embedding) (session : Session) :
    Command → Answer × Session
  | .execute text => session.answerValue (ev.execute session.current text)
  | .define name text =>
    session.answerDone do
      let e ← read text
      StoreM.define session.current name e
  | .get name => session.answerValue (ask fun s => s.get session.current name)
  | .contains name => (.truth (session.store.contains session.current name), session)
  | .addAlias source target =>
    session.answerDone do set (← ask fun s => s.addAlias session.current source target)
  | .complete stem => (.names (session.store.complete session.current stem), session)
  | .completeLine line =>
    (.completion (session.store.completeLine? session.current line), session)
  | .bindings withoutFunctions =>
    let all := session.store.bindings session.current
    let kept := if withoutFunctions then all.filter fun b => !b.2.isFunction else all
    (.bindings (kept.map fun b => (b.1, b.2.text)), session)
  | .inspectScope => (.text (session.store.inspectScope session.current), session)
  | .enterChild =>
    let (scope, s) := session.store.newScope (some session.current)
    let session :=
      { session with store := s, current := scope, outer := session.current :: session.outer }
    (.stackHeight session.height, session)
  | .leaveChild =>
    let session :=
      match session.outer with
      | scope :: outer =>
        { session with current := scope, outer, left := session.current :: session.left }
      | [] => session
    (.stackHeight session.height, session)
  | .comeBack index =>
    let session :=
      match session.left[index]? with
      | some scope =>
        { session with
          current := scope, outer := session.current :: session.outer,
          left := session.left.eraseIdx index }
      | none => session
    (.stackHeight session.height, session)
  | .restart kind =>
    let s := session.store.releaseUnheld session.capturedByHeld
    let session := start embedding s session.held kind
    (.stackHeight session.height, session)
  | .hold name =>
    match session.store.get session.current name with
    | .ok value =>
      let session := { session with held := some value }
      let s := session.store.releaseUnheld (session.scopes ++ session.capturedByHeld)
      (.done (.ok ()), { session with store := s })
    | .error e => (.done (.error (.error e)), session)
  | .bindHeld name =>
    match session.held with
    | some value => session.answerDone (StoreM.define session.current name value)
    | none => (.done (.error (.error (.undefinedSymbol name))), session)
  | .call name args =>
    session.answerValue do
      let f ← ask fun s => s.get session.current name
      ev.invoke f (← readEach args)
  | .inspect text other =>
    let (outcome, s) := inspectText ev session.current text other session.store
    (.inspection outcome, { session with store := s })

/-- Carry out some commands in order, with everything evaluated by `ev`. -/
def runAllBy (ev : Evaluator) (embedding : Embedding) :
    Session → List Command → List Answer × Session
  | session, [] => ([], session)
  | session, command :: rest =>
    let (answer, session) := session.runBy ev embedding command
    let (answers, session) := session.runAllBy ev embedding rest
    (answer :: answers, session)

/-- Carry out a command. -/
def run (embedding : Embedding) (session : Session) (command : Command) : Answer × Session :=
  session.runBy (evaluator embedding) embedding command

/-- Carry out some commands in order. -/
def runAll (embedding : Embedding) (session : Session) (commands : List Command) :
    List Answer × Session :=
  session.runAllBy (evaluator embedding) embedding commands

end Session

end ExactLisp
