import ExactLisp.Proofs.Eval.Running
import ExactLisp.Proofs.Number.Totals

/-!
# What a run reduces

Decimals are reduced where a built-in function computes, an exact total or a length, and where
a host function gives them, on the way in. So what a call reduces is told by the function, its
arguments and the store (`Expr.Reduces`).

What a whole run reduces is not to be seen in what it leaves behind. To speak of it there is a
second evaluator, which stops where a call would reduce one of some decimals and does
everything else in the same way (`evalStopping`). A run comes to reduce one of them if it is
not the same run there (`Session.Reduces`).
-/

namespace ExactLisp

/-! ## What one call reduces -/

namespace HostValue

mutual

/-- The decimals in a host value, which are reduced when it becomes an expression. -/
def decimals : HostValue → List Decimal
  | decimal d => [d]
  | list items => decimalsAll items
  | _ => []

/-- The decimals in some host values. -/
def decimalsAll : List HostValue → List Decimal
  | [] => []
  | v :: rest => decimals v ++ decimalsAll rest

end

end HostValue

namespace Embedding

/-- What a host function gives, before it is made an expression. -/
def hosted (embedding : Embedding) (f : HostFunction) (args : List Expr) : StoreM HostValue :=
  match embedding.hosts.find? (·.name == f.key) with
  | some operation => runHostM f.name (operation.run f.receiver (HostValue.ofExprs args))
  | none => StoreM.fail (.undefinedSymbol f.key)

theorem runHost_eq (embedding : Embedding) (f : HostFunction) (args : List Expr) :
    embedding.runHost f args = embedding.hosted f args >>= HostValue.toExpr := by
  rw [runHost, hosted]
  cases embedding.hosts.find? (·.name == f.key) <;> rfl

end Embedding

/-- The decimals that a built-in function reduces: what it computes, or a length. -/
inductive Builtin.Reduces : Builtin → List Expr → Decimal → Prop
  | sum {args : List Expr} {numbers : List Number} {d : Decimal} :
    Expr.asNumbers args = .ok numbers → (Number.Operation.sum numbers).total = .ok d →
      Reduces .add args d
  | product {args : List Expr} {numbers : List Number} {d : Decimal} :
    Expr.asNumbers args = .ok numbers → (Number.Operation.product numbers).total = .ok d →
      Reduces .multiply args d
  | difference {e : Expr} {others : List Expr} {first : Number} {rest : List Number}
    {d : Decimal} : e.asNumber = .ok first → Expr.asNumbers others = .ok rest →
      (Number.Operation.difference first rest).total = .ok d → Reduces .subtract (e :: others) d
  | quotient {e : Expr} {others : List Expr} {first : Number} {rest : List Number}
    {d : Decimal} : e.asNumber = .ok first → Expr.asNumbers others = .ok rest →
      (Number.Operation.quotient first rest).total = .ok d → Reduces .divide (e :: others) d
  | length {e : Expr} {items : List Expr} :
    e.asSequence = .ok items → Reduces .length [e] (.ofInt items.length)

/-- The decimals that the call of a function reduces by itself, in a store. -/
inductive Expr.Reduces (embedding : Embedding) (s : Store) : Expr → List Expr → Decimal → Prop
  | builtin {ref : Ref} {f : Native} {b : Builtin} {args : List Expr} {d : Decimal} :
    f.code = .builtin b → b.Reduces args d → Reduces embedding s (.native ref f) args d
  | host {ref : Ref} {f : HostFunction} {args : List Expr} {v : HostValue} {d : Decimal} :
    ((embedding.hosted f args).runOn s).1 = .ok v → d ∈ v.decimals →
      Reduces embedding s (.host ref f) args d

/-! ## Runs that stop -/

open Classical in
/-- Go on only if the call of a function reduces none of some decimals. -/
noncomputable def StoreM.sparing (embedding : Embedding) (kind : Decimal → Prop) (f : Expr)
    (args : List Expr) (m : StoreM Expr) : StoreM Expr := do
  if ∃ d, f.Reduces embedding (← get) args d ∧ kind d then throw .exhausted else m

mutual

/-- Evaluate an expression, but stop instead of reducing a decimal of some kind. -/
noncomputable def evalStopping (embedding : Embedding) (kind : Decimal → Prop) :
    Nat → ScopeId → Expr → StoreM Expr
  | 0, _, _ => throw .exhausted
  | depth + 1, scope, e =>
    Evaluator.evalStep
      ⟨evalStopping embedding kind depth, invokeStopping embedding kind depth⟩ scope e

/-- Invoke a function, but stop instead of reducing a decimal of some kind. -/
noncomputable def invokeStopping (embedding : Embedding) (kind : Decimal → Prop) :
    Nat → Expr → List Expr → StoreM Expr
  | 0, _, _ => throw .exhausted
  | depth + 1, f, args =>
    StoreM.sparing embedding kind f args <|
      Evaluator.invokeStep embedding
        ⟨evalStopping embedding kind depth, invokeStopping embedding kind depth⟩ f args

end

/-- Evaluation and invocation that stop instead of reducing a decimal of some kind. -/
noncomputable def stoppingEvaluator (embedding : Embedding) (kind : Decimal → Prop) : Evaluator :=
  ⟨evalStopping embedding kind depthBound, invokeStopping embedding kind depthBound⟩

/--
Whether a run of a session comes to reduce a decimal of some kind: it is not the same where
that would end what is evaluated.
-/
def Session.Reduces (embedding : Embedding) (session : Session) (commands : List Command)
    (kind : Decimal → Prop) : Prop :=
  session.runAllBy (stoppingEvaluator embedding kind) embedding commands ≠
    session.runAll embedding commands

namespace StoreM

variable {embedding : Embedding} {kind : Decimal → Prop} {f : Expr} {args : List Expr} {s : Store}

theorem runOn_sparing_of_not (h : ∀ d, f.Reduces embedding s args d → ¬ kind d) (m : StoreM Expr) :
    (sparing embedding kind f args m).runOn s = m.runOn s := by
  have hnone : ¬ ∃ d, f.Reduces embedding s args d ∧ kind d := by
    rintro ⟨d, hd, hkind⟩
    exact h d hd hkind
  rw [sparing, runOn_bind_of_ok (rfl : (get : StoreM Store).runOn s = (.ok s, s)), if_neg hnone]

theorem runOn_sparing (h : ∃ d, f.Reduces embedding s args d ∧ kind d) (m : StoreM Expr) :
    (sparing embedding kind f args m).runOn s = (.error .exhausted, s) := by
  rw [sparing, runOn_bind_of_ok (rfl : (get : StoreM Store).runOn s = (.ok s, s)), if_pos h]
  rfl

end StoreM

/-- Where there is nothing to stop at, evaluation goes on as ever. -/
theorem stoppingEvaluator_eq {embedding : Embedding} {kind : Decimal → Prop}
    (h : ∀ d, ¬ kind d) : stoppingEvaluator embedding kind = evaluator embedding := by
  have hall : ∀ depth, evalStopping embedding kind depth = evalWithin embedding depth ∧
      invokeStopping embedding kind depth = invokeWithin embedding depth := by
    intro depth
    induction depth with
    | zero => exact ⟨rfl, rfl⟩
    | succ depth ih =>
      refine ⟨?_, ?_⟩
      · funext scope e
        rw [evalStopping, evalWithin, ih.1, ih.2]
      · funext f args s
        rw [invokeStopping, invokeWithin, ih.1, ih.2]
        exact StoreM.runOn_sparing_of_not (fun d _ => h d) _
  rw [stoppingEvaluator, (hall depthBound).1, (hall depthBound).2]
  rfl

/-- No run reduces decimals of a kind that there is none of. -/
theorem Session.not_reduces {embedding : Embedding} {kind : Decimal → Prop}
    (h : ∀ d, ¬ kind d) (session : Session) (commands : List Command) :
    ¬ session.Reduces embedding commands kind := by
  rw [Session.Reduces, stoppingEvaluator_eq h]
  exact not_not_intro rfl

end ExactLisp
