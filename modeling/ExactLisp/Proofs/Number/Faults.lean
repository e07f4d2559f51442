import ExactLisp.Proofs.Number.Order

/-!
# The operand that decides

Arithmetic fails in two ways only: an operand may be a float that is not finite, and in a
division an operand after the first may be zero. Operands are looked at one after the other, so
it is the leftmost of these that decides the fault, and if there is none there is a result
(`Number.Decided`).

A quotient could also be missing because two scales lie too far apart. That takes a scale near
the negative end of the range. Numbers that are read or reduced have none below zero, but for
floats, which do not reach nearly so far (`Number.Produced.isModest`).
-/

namespace ExactLisp

/-! ## Scales of operands -/

namespace Decimal

open Binary64 (ampleExponent)

/-- Whether the scale is in range. -/
abbrev Fits (d : Decimal) : Prop := scaleFits d.scale = true

/-- Whether the scale is in range, and not far below zero. -/
def IsModest (d : Decimal) : Prop :=
  -(10 * ampleExponent : Int) < d.scale ∧ d.scale ≤ greatestScale

theorem isModest_of_scale_eq_zero {d : Decimal} (h : d.scale = 0) : d.IsModest := by
  rw [IsModest, h]
  decide

theorem IsModest.fits {d : Decimal} (h : d.IsModest) : d.Fits := by
  have hleast : leastScale ≤ -(10 * ampleExponent : Int) := by decide
  exact scaleFits_iff.mpr ⟨hleast.trans h.1.le, h.2⟩

/-- A float has a few hundred places before or after the point at most. -/
theorem isModest_of_ofFloat? {x : Float} {d : Decimal} (h : ofFloat? x = some d) : d.IsModest := by
  rcases ofFloat?_cases h with ⟨-, -, rfl⟩ | ⟨-, m, q, -, hf, -, -, hscale⟩
  · exact isModest_of_scale_eq_zero rfl
  · have hbound := Binary64.natAbs_shortest_lt hf
    have hgreatest : (10 * ampleExponent : Int) ≤ greatestScale := by decide
    constructor <;> omega

/-- A fraction without its trailing zeros still has places after the point. -/
theorem isModest_stripped {d : Decimal} (hfits : d.Fits) (hd : d.toInteger? = none) :
    d.stripped.IsModest := by
  obtain ⟨m, s, zeros, rfl, hstripped, hm⟩ := exists_stripped (unscaled_ne_zero_of_fraction hd)
  obtain ⟨hs, -⟩ := stripped_fraction hd hm
  have hgreatest := (scaleFits_iff.mp hfits).2
  rw [hstripped]
  constructor <;> dsimp only at hgreatest ⊢ <;> omega

/-! ## Steps -/

theorem fits_add {a b : Decimal} (ha : a.Fits) (hb : b.Fits) : (a + b).Fits :=
  (shift_commonScale ha hb).1

theorem fits_sub {a b : Decimal} (ha : a.Fits) (hb : b.Fits) : (a - b).Fits :=
  (shift_commonScale ha hb).1

theorem fits_mul (a b : Decimal) : (a * b).Fits := by
  have hrange : leastScale ≤ greatestScale := by decide
  exact scaleFits_iff.mpr ⟨le_max_left .., max_le hrange (min_le_left ..)⟩

/-- Operands of modest scales have a quotient, unless the divisor is zero. -/
theorem exists_div? {a b : Decimal} (ha : a.IsModest) (hb : b.IsModest) (hzero : b.value ≠ 0) :
    ∃ q, a.div? b Number.quotientScale = some q ∧ q.IsModest := by
  have hquotient : a.div? b Number.quotientScale ≠ none := by
    rw [Ne, div?_eq_none_iff, ← Int.natCast_natAbs]
    obtain ⟨haLeast, haGreatest⟩ := ha
    obtain ⟨hbLeast, hbGreatest⟩ := hb
    have hscale : (Number.quotientScale : Int) = 32 := rfl
    have hgreatest : greatestScale = 2147483647 := by decide
    have hample : (10 * ampleExponent : Int) = 655360 := by decide
    have hshift : greatestShift = 4294967295 := by decide
    rintro (h | h | h)
    · exact hzero h
    · omega
    · omega
  obtain ⟨q, hq⟩ := Option.ne_none_iff_exists'.mp hquotient
  obtain ⟨num, den, -, rfl, -⟩ := exists_roundHalfAway_of_div? hq
  have hmodest : -(10 * ampleExponent : Int) < Number.quotientScale ∧
      (Number.quotientScale : Int) ≤ greatestScale := by decide
  exact ⟨_, hq, hmodest⟩

end Decimal

namespace Number

/-! ## Operands -/

/--
The numbers that the reader produces, which are integers and floats, and those that arithmetic
produces, which are decimals with a scale in range that have been reduced.
-/
inductive Produced : Number → Prop
  | int (n : Int64) : Produced (.int n)
  | float (x : Float) : Produced (.float x)
  | reduced {d : Decimal} : d.Fits → Produced (reduce d)

/-- What the reader takes for a number is an integer or a float. -/
theorem produced_of_numberOfWord? {w : List Char} {n : Number}
    (h : Datum.numberOfWord? w = some n) : n.Produced := by
  unfold Datum.numberOfWord? at h
  split at h
  next k _ =>
    cases h
    exact .int k
  · split at h
    · obtain ⟨x, -, rfl⟩ := Option.map_eq_some_iff.mp h
      exact .float x
    · cases h

theorem Produced.isModest {n : Number} (h : n.Produced) {d : Decimal}
    (hd : n.toDecimal? = some d) : d.IsModest := by
  cases h with
  | int =>
    cases hd
    exact Decimal.isModest_of_scale_eq_zero rfl
  | float => exact Decimal.isModest_of_ofFloat? hd
  | @reduced e hfits =>
    rcases reduce_cases e with ⟨_, -, he⟩ | ⟨_, -, -, he⟩ | ⟨-, -, he⟩ | ⟨hfraction, -, he⟩
    · rw [he] at hd
      cases hd
      exact Decimal.isModest_of_scale_eq_zero rfl
    · rw [he] at hd
      cases hd
      exact Decimal.isModest_of_scale_eq_zero rfl
    · rw [he] at hd
      exact Decimal.isModest_of_ofFloat? hd
    · rw [he] at hd
      cases hd
      exact Decimal.isModest_stripped hfits (Decimal.toInteger?_eq_none_iff.mpr hfraction)

/-- What a number does wrong as an operand; `divisor` tells whether something is divided by it. -/
inductive Offends (divisor : Prop) : Number → ArithmeticFault → Prop
  | notFinite {x : Float} : Binary64.isFinite x = false → Offends divisor (.float x) (.notFinite x)
  | zero {n : Number} {d : Decimal} : divisor → n.toDecimal? = some d → d.value = 0 →
    Offends divisor n .divisionByZero

theorem isFinite_of_ofFloat? {x : Float} {d : Decimal} (h : Decimal.ofFloat? x = some d) :
    Binary64.isFinite x = true := by
  rw [Binary64.isFinite]
  rcases Decimal.ofFloat?_cases h with ⟨_, hshape, -⟩ | ⟨_, _, _, hshape, -⟩ <;> rw [hshape]

/-- A number without an exact value is a float that is not finite. -/
theorem offends_of_toDecimal?_eq_none (divisor : Prop) {n : Number} (h : n.toDecimal? = none) :
    n.lift = .error (.notFinite n.toFloat) ∧ n.Offends divisor (.notFinite n.toFloat) := by
  refine ⟨by rw [lift, h], ?_⟩
  cases n with
  | int => cases h
  | big => cases h
  | float x =>
    refine .notFinite (Bool.eq_false_iff.mpr fun hfinite => ?_)
    obtain ⟨d, hd⟩ := Decimal.exists_ofFloat? hfinite
    cases hd.symm.trans h

/-- A number with an exact value does nothing wrong but to be zero. -/
theorem Offends.eq_divisionByZero {divisor : Prop} {n : Number} {d : Decimal}
    (hd : n.toDecimal? = some d) {fault : ArithmeticFault} (h : n.Offends divisor fault) :
    fault = .divisionByZero ∧ divisor ∧ d.value = 0 := by
  cases h with
  | notFinite hinfinite =>
    rw [isFinite_of_ofFloat? hd] at hinfinite
    cases hinfinite
  | zero hdivisor he hzero =>
    obtain rfl := Option.some.inj (hd.symm.trans he)
    exact ⟨rfl, hdivisor, hzero⟩

theorem Offends.unique {divisor : Prop} {n : Number} {fault other : ArithmeticFault}
    (h : n.Offends divisor fault) (h' : n.Offends divisor other) : fault = other := by
  cases h' with
  | zero _ hd _ => exact (h.eq_divisionByZero hd).1
  | notFinite hinfinite =>
    cases h with
    | notFinite => rfl
    | zero _ hd _ =>
      rw [isFinite_of_ofFloat? hd] at hinfinite
      cases hinfinite

/-! ## The leftmost offender -/

/-- Whether no operand does anything wrong; `divisor` tells at which places it is divided by. -/
def NoneOffends (divisor : Nat → Prop) (numbers : List Number) : Prop :=
  ∀ (i : Nat) (n : Number), numbers[i]? = some n → ∀ fault, ¬ n.Offends (divisor i) fault

theorem noneOffends_nil (divisor : Nat → Prop) : NoneOffends divisor [] := by
  intro i n hn
  rw [List.getElem?_nil] at hn
  cases hn

theorem NoneOffends.cons {divisor : Nat → Prop} {n : Number} {rest : List Number}
    (hrest : NoneOffends (fun i => divisor (i + 1)) rest)
    (hn : ∀ fault, ¬ n.Offends (divisor 0) fault) : NoneOffends divisor (n :: rest) := by
  intro i m hm
  cases i with
  | zero =>
    rw [List.getElem?_cons_zero] at hm
    cases hm
    exact hn
  | succ i =>
    rw [List.getElem?_cons_succ] at hm
    exact hrest i m hm

/--
What some operands come to: the fault of the leftmost one that does anything wrong, or else a
result, which is good. `divisor` tells at which places something is divided by the operand.
-/
inductive Decided {α : Type} (good : α → Prop) (divisor : Nat → Prop) (numbers : List Number) :
    Except ArithmeticFault α → Prop
  | offender {before after : List Number} {n : Number} {fault : ArithmeticFault} :
    numbers = before ++ n :: after → NoneOffends divisor before →
    n.Offends (divisor before.length) fault → Decided good divisor numbers (.error fault)
  | result {a : α} : NoneOffends divisor numbers → good a → Decided good divisor numbers (.ok a)

section
variable {α β : Type} {good : α → Prop} {divisor : Nat → Prop} {n : Number} {rest : List Number}

theorem Decided.first {fault : ArithmeticFault} (h : n.Offends (divisor 0) fault) :
    Decided good divisor (n :: rest) (.error fault) :=
  .offender (List.nil_append (n :: rest)).symm (noneOffends_nil divisor) h

/-- An operand that does nothing wrong leaves the decision to those after it. -/
theorem Decided.cons {outcome : Except ArithmeticFault α}
    (hn : ∀ fault, ¬ n.Offends (divisor 0) fault)
    (h : Decided good (fun i => divisor (i + 1)) rest outcome) :
    Decided good divisor (n :: rest) outcome := by
  cases h with
  | @offender before after m fault hrest hbefore hm =>
    subst hrest
    exact .offender (List.cons_append ..).symm (hbefore.cons hn) hm
  | result hnone hgood => exact .result (hnone.cons hn) hgood

/-- There is no other outcome than the fault of the leftmost offender. -/
theorem Decided.eq_error {outcome : Except ArithmeticFault α} {numbers before after : List Number}
    {fault : ArithmeticFault} (h : Decided good divisor numbers outcome)
    (hnumbers : numbers = before ++ n :: after) (hbefore : NoneOffends divisor before)
    (hn : n.Offends (divisor before.length) fault) : outcome = .error fault := by
  have hplace : numbers[before.length]? = some n := by simp [hnumbers]
  cases h with
  | result hnone => exact absurd hn (hnone _ _ hplace fault)
  | @offender before' after' m fault' hnumbers' hbefore' hm =>
    have hplace' : numbers[before'.length]? = some m := by simp [hnumbers']
    rcases Nat.lt_trichotomy before.length before'.length with hlt | heq | hlt
    · rw [hnumbers', List.getElem?_append_left hlt] at hplace
      exact absurd hn (hbefore' _ _ hplace fault)
    · rw [heq, hplace'] at hplace
      cases hplace
      rw [heq] at hn
      rw [hm.unique hn]
    · rw [hnumbers, List.getElem?_append_left hlt] at hplace'
      exact absurd hm (hbefore _ _ hplace' fault')

theorem Decided.map {good' : β → Prop} {f : α → β} (hf : ∀ a, good a → good' (f a))
    {numbers : List Number} {outcome : Except ArithmeticFault α}
    (h : Decided good divisor numbers outcome) :
    Decided good' divisor numbers (outcome.map f) := by
  cases h with
  | offender hnumbers hbefore hn => exact .offender hnumbers hbefore hn
  | result hnone hgood => exact .result hnone (hf _ hgood)

end

/--
Running totals are decided by the leftmost offender, if each step from a good total to a good
total fails exactly for a divisor of zero.
-/
theorem decided_foldExact {step : Decimal → Decimal → Except ArithmeticFault Decimal}
    {good : Decimal → Prop} {divisor : Prop}
    (hzero : ∀ total d, divisor → d.value = 0 → step total d = .error .divisionByZero)
    (hstep : ∀ total d, good total → d.IsModest → ¬ (divisor ∧ d.value = 0) →
      ∃ next, step total d = .ok next ∧ good next) :
    ∀ (numbers : List Number) (total : Decimal), (∀ n ∈ numbers, n.Produced) → good total →
      Decided good (fun _ => divisor) numbers (foldExact step total numbers)
  | [], _, _, hgood => .result (noneOffends_nil _) hgood
  | n :: rest, total, hnumbers, hgood => by
    obtain ⟨hn, hrest⟩ := List.forall_mem_cons.mp hnumbers
    rw [foldExact]
    cases hd : n.toDecimal? with
    | none =>
      obtain ⟨hlift, hoffends⟩ := offends_of_toDecimal?_eq_none divisor hd
      rw [hlift]
      exact .first hoffends
    | some d =>
      rw [lift_eq_ok_iff.mpr hd]
      dsimp only
      by_cases hbad : divisor ∧ d.value = 0
      · rw [hzero total d hbad.1 hbad.2]
        exact .first (.zero hbad.1 hd hbad.2)
      · obtain ⟨next, hnext, hgood'⟩ := hstep total d hgood (hn.isModest hd) hbad
        rw [hnext]
        exact .cons (fun _ h => hbad (h.eq_divisionByZero hd).2)
          (decided_foldExact hzero hstep rest next hrest hgood')

/-! ## The four operations -/

/-- Running totals that cannot fail themselves. -/
theorem decided_foldExact_of_total {op : Decimal → Decimal → Decimal}
    (hop : ∀ a b : Decimal, a.Fits → b.Fits → (op a b).Fits) {numbers : List Number}
    {total : Decimal} (hnumbers : ∀ n ∈ numbers, n.Produced) (htotal : total.Fits) :
    Decided Decimal.Fits (fun _ => False) numbers
      (foldExact (fun a b => .ok (op a b)) total numbers) :=
  decided_foldExact (fun _ _ h => h.elim) (fun a b ha hb _ => ⟨_, rfl, hop a b ha hb.fits⟩)
    numbers total hnumbers htotal

section
variable {first : Number} {numbers : List Number}

theorem decided_sum (h : ∀ n ∈ numbers, n.Produced) :
    Decided Produced (fun _ => False) numbers (sum numbers) :=
  (decided_foldExact_of_total (fun _ _ => Decimal.fits_add) h (by decide)).map fun _ => .reduced

theorem decided_product (h : ∀ n ∈ numbers, n.Produced) :
    Decided Produced (fun _ => False) numbers (product numbers) :=
  (decided_foldExact_of_total (fun a b _ _ => Decimal.fits_mul a b) h (by decide)).map
    fun _ => .reduced

/-- The first operand is lifted before any other, and nothing is divided by it. -/
theorem decided_first {step : Decimal → Decimal → Except ArithmeticFault Decimal}
    {good : Decimal → Prop} (hmodest : ∀ d : Decimal, d.IsModest → good d)
    (hfits : ∀ d : Decimal, good d → d.Fits) {divisor : Nat → Prop} (hdivisor : ¬ divisor 0)
    (hfirst : first.Produced)
    (hrest : ∀ total, good total →
      Decided good (fun i => divisor (i + 1)) numbers (foldExact step total numbers)) :
    Decided Produced divisor (first :: numbers)
      (match first.lift with
        | .ok total => (foldExact step total numbers).map reduce
        | .error fault => .error fault) := by
  cases hd : first.toDecimal? with
  | none =>
    obtain ⟨hlift, hoffends⟩ := offends_of_toDecimal?_eq_none (divisor 0) hd
    rw [hlift]
    exact .first hoffends
  | some d =>
    rw [lift_eq_ok_iff.mpr hd]
    exact .cons (fun _ h => hdivisor (h.eq_divisionByZero hd).2.1)
      ((hrest d (hmodest d (hfirst.isModest hd))).map fun e he => .reduced (hfits e he))

theorem decided_difference (hfirst : first.Produced) (h : ∀ n ∈ numbers, n.Produced) :
    Decided Produced (fun _ => False) (first :: numbers) (difference first numbers) :=
  decided_first (fun _ => Decimal.IsModest.fits) (fun _ => id) id hfirst fun _ htotal =>
    decided_foldExact_of_total (fun _ _ => Decimal.fits_sub) h htotal

theorem divideStep_of_zero (a : Decimal) {b : Decimal} (h : b.value = 0) :
    divideStep a b = .error .divisionByZero := by
  rw [divideStep, Decimal.div?_eq_none_iff.mpr (Or.inl h)]

theorem decided_quotient (hfirst : first.Produced) (h : ∀ n ∈ numbers, n.Produced) :
    Decided Produced (fun i => 0 < i) (first :: numbers) (quotient first numbers) := by
  refine decided_first (fun _ => id) (fun _ => Decimal.IsModest.fits) (lt_irrefl 0) hfirst
    fun total htotal => ?_
  have hdivisor : (fun i => 0 < i + 1) = fun _ => True := funext fun i => eq_true i.succ_pos
  rw [hdivisor]
  refine decided_foldExact (fun a b _ hb => divideStep_of_zero a hb) (fun a b ha hb hne => ?_)
    numbers total h htotal
  obtain ⟨q, hq, hmodest⟩ := Decimal.exists_div? ha hb fun hzero => hne ⟨trivial, hzero⟩
  exact ⟨q, by rw [divideStep, hq], hmodest⟩

end

end Number

end ExactLisp
