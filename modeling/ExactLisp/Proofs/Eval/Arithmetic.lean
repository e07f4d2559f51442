import ExactLisp.Proofs.Eval.Numbers
import ExactLisp.Proofs.Number.Faults

/-!
# Calls of the four operations

A call of a sum, a difference, a product or a quotient can fail in three ways: an argument is
not a number, it is a float that is not finite, or it is a divisor of zero. The arguments are
checked before anything is computed, so if one is not a number, the leftmost of these decides
the error, whatever numbers there are. Otherwise the leftmost operand that does anything wrong
does, and if there is none, the call has a result (`arithmetic_decided`).
-/

namespace ExactLisp

open StoreM

/-- The four operations on numbers. -/
def Builtin.arithmetic : List Builtin := [.add, .subtract, .multiply, .divide]

namespace Expr

/-- The number that an expression is, if it is one. -/
def number? : Expr → Option Number
  | .atom a => a.number?
  | _ => none

theorem asNumber_eq (e : Expr) :
    e.asNumber = match e.number? with
      | some n => .ok n
      | none => e.mismatch "number" := by
  cases e with
  | atom a => cases a <;> rfl
  | _ => rfl

theorem eq_number_of_number? {e : Expr} {n : Number} (h : e.number? = some n) : e = .number n := by
  cases e with
  | atom a =>
    cases a with
    | number m =>
      cases h
      rfl
    | _ => cases h
  | _ => cases h

/--
The check of some arguments stops at the leftmost that is not a number. If there is none, each
argument that is then taken as a number is one.
-/
theorem asNumbers_cases (args : List Expr) :
    (∃ before e after, args = before ++ e :: after ∧ (∀ a ∈ before, ∃ n, a = .number n) ∧
      e.number? = none ∧ asNumbers args = e.mismatch "number") ∨
    ∃ numbers, args.mapM number? = some numbers ∧ args = numbers.map .number := by
  induction args with
  | nil => exact Or.inr ⟨[], rfl, rfl⟩
  | cons e rest ih =>
    cases he : e.number? with
    | none =>
      refine Or.inl ⟨[], e, rest, rfl, List.forall_mem_nil _, he, ?_⟩
      rw [asNumbers, convertAll, asNumber_eq, he]
      rfl
    | some n =>
      obtain rfl := eq_number_of_number? he
      rcases ih with ⟨before, a, after, rfl, hbefore, ha, hrest⟩ | ⟨numbers, hnumbers, hrest⟩
      · refine Or.inl ⟨.number n :: before, a, after, rfl,
          List.forall_mem_cons.mpr ⟨⟨n, rfl⟩, hbefore⟩, ha, ?_⟩
        rw [asNumbers] at hrest
        rw [asNumbers, convertAll, asNumber_eq, he]
        dsimp only
        rw [hrest]
        rfl
      · refine Or.inr ⟨n :: numbers, ?_, congrArg (.number n :: ·) hrest⟩
        rw [List.mapM_cons, he, hnumbers]
        rfl

end Expr

namespace Builtin

variable {b : Builtin}

/-- An argument that is not a number ends a call before anything is computed. -/
theorem run_of_asNumbers_error (hb : b ∈ arithmetic) {args : List Expr}
    (hargs : b.arity.accepts args.length = true) {e : Error} (h : Expr.asNumbers args = .error e)
    (call : Invoke) : b.run call args = fail e := by
  have hlater : ∀ {first others} (operation : Number → List Number → StoreM Expr),
      Expr.asNumbers (first :: others) = .error e →
        (do operation (← ofExcept first.asNumber) (← ofExcept (Expr.asNumbers others))) =
          fail e := by
    intro first others operation h
    rw [Expr.asNumbers, Expr.convertAll] at h
    cases hfirst : first.asNumber with
    | error e' =>
      rw [hfirst] at h
      cases h
      rfl
    | ok n =>
      rw [hfirst] at h
      dsimp only at h
      cases hothers : Expr.convertAll Expr.asNumber others with
      | error e' =>
        rw [hothers] at h
        cases h
        rw [Expr.asNumbers, hothers]
        rfl
      | ok ns =>
        rw [hothers] at h
        cases h
  rw [arithmetic, List.mem_cons, List.mem_cons, List.mem_cons, List.mem_singleton] at hb
  rcases hb with rfl | rfl | rfl | rfl
  · rw [run, h]
    rfl
  · cases args with
    | nil => cases hargs
    | cons => exact hlater (fun n ns => ofArithmetic (Number.difference n ns)) h
  · rw [run, h]
    rfl
  · cases args with
    | nil => cases hargs
    | cons => exact hlater (fun n ns => ofArithmetic (Number.quotient n ns)) h

/-- On numbers, a call is what the leftmost offender decides. -/
theorem exists_decided_run (hb : b ∈ arithmetic) {numbers : List Number}
    (hargs : b.arity.accepts numbers.length = true) (hnumbers : ∀ n ∈ numbers, n.Produced)
    (call : Invoke) :
    ∃ outcome, Number.Decided Number.Produced (fun i => b = .divide ∧ 0 < i) numbers outcome ∧
      b.run call (numbers.map .number) = ofArithmetic outcome := by
  have hnever : ∀ {b : Builtin} {outcome : Except ArithmeticFault Number}, b ≠ .divide →
      Number.Decided Number.Produced (fun _ => False) numbers outcome →
        Number.Decided Number.Produced (fun i => b = .divide ∧ 0 < i) numbers outcome := by
    intro b outcome hb h
    have hfalse : (fun i : Nat => b = .divide ∧ 0 < i) = fun _ => False :=
      funext fun _ => eq_false fun hi => hb hi.1
    rwa [hfalse]
  rw [arithmetic, List.mem_cons, List.mem_cons, List.mem_cons, List.mem_singleton] at hb
  rcases hb with rfl | rfl | rfl | rfl
  · refine ⟨_, hnever (by decide) (Number.decided_sum hnumbers), ?_⟩
    rw [run, asNumbers_map]
    rfl
  · cases numbers with
    | nil => cases hargs
    | cons first rest =>
      obtain ⟨hfirst, hrest⟩ := List.forall_mem_cons.mp hnumbers
      refine ⟨_, hnever (by decide) (Number.decided_difference hfirst hrest), ?_⟩
      rw [List.map_cons, run, asNumbers_map]
      rfl
  · refine ⟨_, hnever (by decide) (Number.decided_product hnumbers), ?_⟩
    rw [run, asNumbers_map]
    rfl
  · cases numbers with
    | nil => cases hargs
    | cons first rest =>
      obtain ⟨hfirst, hrest⟩ := List.forall_mem_cons.mp hnumbers
      have hlater : (fun i : Nat => Builtin.divide = .divide ∧ 0 < i) = fun i => 0 < i :=
        funext fun _ => propext (and_iff_right rfl)
      refine ⟨_, hlater ▸ Number.decided_quotient hfirst hrest, ?_⟩
      rw [List.map_cons, run, asNumbers_map]
      rfl

end Builtin

/--
**The leftmost offender decides the error** of a call of `+`, `-`, `*` or `/` with as many
arguments as it takes. If an argument is not a number, the error names the type of the leftmost
such one. Otherwise all arguments can be taken as numbers, and the call fails exactly if one of
them is not finite or, in a division and after the first, zero: with the fault of the leftmost
of these. The result of a call that does not fail is again a number as arithmetic produces them.
-/
theorem arithmetic_decided (embedding : Embedding) {b : Builtin} (hb : b ∈ Builtin.arithmetic)
    {args : List Expr} (hargs : b.arity.accepts args.length = true)
    (hproduced : ∀ n, .number n ∈ args → n.Produced) (ref : Ref) :
    (∃ before e after, args = before ++ e :: after ∧ (∀ a ∈ before, ∃ n, a = .number n) ∧
      (∀ n, e ≠ .number n) ∧
        invoke embedding (.native ref (Store.builtinNative b)) args =
          fail (.type (.mismatch "number" e.typeName))) ∨
    ∃ numbers outcome, args.mapM Expr.number? = some numbers ∧
      Number.Decided Number.Produced (fun i => b = .divide ∧ 0 < i) numbers outcome ∧
        invoke embedding (.native ref (Store.builtinNative b)) args = ofArithmetic outcome := by
  obtain ⟨call, hcall⟩ := invoke_builtin embedding hargs ref
  rw [hcall]
  rcases Expr.asNumbers_cases args with
    ⟨before, e, after, hsplit, hbefore, he, herror⟩ | ⟨numbers, hnumbers, rfl⟩
  · refine Or.inl ⟨before, e, after, hsplit, hbefore, fun n hn => ?_,
      Builtin.run_of_asNumbers_error hb hargs herror call⟩
    rw [hn] at he
    cases he
  · rw [List.length_map] at hargs
    obtain ⟨outcome, hdecided, hrun⟩ := Builtin.exists_decided_run hb hargs
      (fun n hn => hproduced n (List.mem_map_of_mem hn)) call
    exact Or.inr ⟨numbers, outcome, hnumbers, hdecided, hrun⟩

/-- For instance six divided by zero and by infinity, where the zero comes first. -/
theorem arithmetic_decided_zero_first :
    let numbers : List Number := [.int 6, .int 0, .float (Binary64.infinity false)]
    let args : List Expr := numbers.map .number
    (Builtin.divide ∈ Builtin.arithmetic ∧ Builtin.divide.arity.accepts args.length = true ∧
      ∀ n, .number n ∈ args → n.Produced) ∧
    args.mapM Expr.number? = some numbers ∧
    invoke .nothing (.native 0 (Store.builtinNative .divide)) args =
      fail (.evaluation .divisionByZero) := by
  intro numbers args
  have hb : Builtin.divide ∈ Builtin.arithmetic := by decide
  have hargs : Builtin.divide.arity.accepts args.length = true := rfl
  have hproduced : ∀ n, .number n ∈ args → n.Produced := by
    intro n hn
    obtain ⟨m, hm, hmn⟩ := List.mem_map.mp hn
    obtain rfl : m = n := by injection hmn with h; injection h
    rw [List.mem_cons, List.mem_cons, List.mem_singleton] at hm
    rcases hm with rfl | rfl | rfl
    · exact Number.produced_of_numberOfWord? (rfl : Datum.numberOfWord? ['6'] = _)
    · exact Number.produced_of_numberOfWord? (rfl : Datum.numberOfWord? ['0'] = _)
    · exact .float _
  refine ⟨⟨hb, hargs, hproduced⟩, rfl, ?_⟩
  rcases arithmetic_decided .nothing hb hargs hproduced 0 with
    ⟨before, e, after, hsplit, -, he, -⟩ | ⟨operands, outcome, hoperands, hdecided, hcall⟩
  · have hmem : e ∈ args := hsplit ▸ List.mem_append_right before List.mem_cons_self
    obtain ⟨n, -, hn⟩ := List.mem_map.mp hmem
    exact absurd hn.symm (he n)
  · obtain rfl : numbers = operands := Option.some.inj hoperands
    have hsix : Number.NoneOffends (fun i => Builtin.divide = .divide ∧ 0 < i) [.int 6] :=
      (Number.noneOffends_nil _).cons fun _ h => lt_irrefl 0 (h.eq_divisionByZero rfl).2.1.2
    have hzero : (Number.int 0).Offends (Builtin.divide = .divide ∧ 0 < 1) .divisionByZero :=
      .zero ⟨rfl, Nat.one_pos⟩ rfl (zero_mul _)
    have hsplit : numbers = [.int 6] ++ .int 0 :: [.float (Binary64.infinity false)] := rfl
    rw [hcall, hdecided.eq_error hsplit hsix hzero]
    rfl

end ExactLisp
