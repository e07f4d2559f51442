import ExactLisp.Proofs.Number.Reducing

/-!
# The order of operands

A sum, a product or a difference is computed exactly and reduced once, at the end. Put the
operands in another order, and the running totals on the way are others, but the last one is
the same, and not only as a number: it is the same decimal. The scale of a sum is the largest
scale of its operands, and the scale of a product is the sum of theirs as long as no running
total leaves the range of scales, and at each scale a number has one form. So it is all one in
which order operands come, whatever the result is read as in the end (`results_perm`).
-/

namespace ExactLisp

namespace Decimal

/-! ## Totals -/

theorem add_right_comm (total a b : Decimal) : total + a + b = total + b + a := by
  refine eq_of_value ?_ (max_right_comm total.scale a.scale b.scale)
  rw [value_add, value_add, value_add, value_add]
  ring

theorem sub_right_comm (total a b : Decimal) : total - a - b = total - b - a := by
  refine eq_of_value ?_ (max_right_comm total.scale a.scale b.scale)
  rw [value_sub, value_sub, value_sub, value_sub]
  ring

theorem mul_eq {a b : Decimal} (h : scaleFits (a.scale + b.scale) = true) :
    a * b = ⟨a.unscaled * b.unscaled, a.scale + b.scale⟩ :=
  congrArg (Decimal.mk _) (scale_mul h)

/-- A product whose scale never leaves the range is exact in every digit. -/
theorem foldl_mul {ds : List Decimal} {total : Decimal}
    (h : ∀ factors ∈ ds.inits, scaleFits (total.scale + (factors.map scale).sum) = true) :
    ds.foldl (fun a b => a * b) total =
      ⟨total.unscaled * (ds.map unscaled).prod, total.scale + (ds.map scale).sum⟩ := by
  induction ds generalizing total with
  | nil => simp
  | cons d ds ih =>
    have hfirst : scaleFits (total.scale + d.scale) = true := by
      simpa using h [d] (by simp)
    rw [List.foldl_cons, mul_eq hfirst, ih]
    · simp only [List.map_cons, List.prod_cons, List.sum_cons, Int.mul_assoc, Int.add_assoc]
    · intro factors hfactors
      have hlonger := h (d :: factors) (by simpa using hfactors)
      rwa [List.map_cons, List.sum_cons, ← Int.add_assoc] at hlonger

end Decimal

namespace Number

/-! ## Running totals -/

theorem lift_eq_ok_iff {n : Number} {d : Decimal} : n.lift = .ok d ↔ n.toDecimal? = some d := by
  rw [lift]
  cases n.toDecimal? with
  | some e => rw [Except.ok.injEq, Option.some.injEq]
  | none => simp

/-- Whether some decimals are the exact values of some numbers. -/
def AreLifted (numbers : List Number) (ds : List Decimal) : Prop :=
  List.Forall₂ (fun n d => n.toDecimal? = some d) numbers ds

/-- A total is reached exactly if all operands have an exact value. -/
theorem foldExact_eq_ok_iff (op : Decimal → Decimal → Decimal) {numbers : List Number}
    {total result : Decimal} :
    foldExact (fun a b => .ok (op a b)) total numbers = .ok result ↔
      ∃ ds, AreLifted numbers ds ∧ ds.foldl op total = result := by
  induction numbers generalizing total with
  | nil =>
    rw [foldExact, Except.ok.injEq]
    constructor
    · rintro rfl
      exact ⟨[], .nil, rfl⟩
    · rintro ⟨_, _ | _, rfl⟩
      rfl
  | cons n rest ih =>
    rw [foldExact, lift]
    cases hn : n.toDecimal? with
    | none =>
      refine iff_of_false (by simp) ?_
      rintro ⟨_, hlifted, -⟩
      cases hlifted with
      | cons hd _ => cases hn.symm.trans hd
    | some d =>
      dsimp only
      rw [ih]
      constructor
      · rintro ⟨ds, hds, hresult⟩
        exact ⟨d :: ds, .cons hn hds, hresult⟩
      · rintro ⟨_, hlifted, hresult⟩
        cases hlifted with
        | cons hd hds =>
          cases hn.symm.trans hd
          exact ⟨_, hds, hresult⟩

/-- If the order of exact values makes no difference to a total, that of operands makes none. -/
theorem foldExact_perm {op : Decimal → Decimal → Decimal} {numbers numbers' : List Number}
    {total result : Decimal} (h : numbers.Perm numbers')
    (hop : ∀ ds ds', AreLifted numbers ds → AreLifted numbers' ds' → ds.Perm ds' →
      ds.foldl op total = ds'.foldl op total)
    (hresult : foldExact (fun a b => .ok (op a b)) total numbers = .ok result) :
    foldExact (fun a b => .ok (op a b)) total numbers' = .ok result := by
  obtain ⟨ds, hds, hfold⟩ := (foldExact_eq_ok_iff op).mp hresult
  obtain ⟨ds', hds', hperm⟩ := List.perm_comp_forall₂ h.symm hds
  exact (foldExact_eq_ok_iff op).mpr ⟨ds', hds', (hop ds ds' hds hds' hperm.symm).symm.trans hfold⟩

/-- A result that is reached from the same totals is the same. -/
theorem map_reduce_congr {total total' : Except ArithmeticFault Decimal}
    (h : ∀ d, total = .ok d → total' = .ok d) {r : Number} (hr : total.map reduce = .ok r) :
    total'.map reduce = .ok r := by
  cases total with
  | ok d => rwa [h d rfl]
  | error => cases hr

/-! ## Products -/

/-- Whether no running sum of the scales of factors, from the left, leaves the range. -/
def ScalesFit (numbers : List Number) : Prop :=
  ∀ factors ∈ (numbers.filterMap toDecimal?).inits,
    Decimal.scaleFits (factors.map Decimal.scale).sum = true

theorem AreLifted.filterMap_eq {numbers : List Number} {ds : List Decimal}
    (h : AreLifted numbers ds) : numbers.filterMap toDecimal? = ds := by
  induction h with
  | nil => rfl
  | cons hn _ ih => rw [List.filterMap_cons_some hn, ih]

theorem foldl_mul_of_areLifted {numbers : List Number} {ds : List Decimal}
    (h : ScalesFit numbers) (hds : AreLifted numbers ds) :
    ds.foldl (fun a b => a * b) (Decimal.ofInt 1) =
      ⟨(ds.map Decimal.unscaled).prod, (ds.map Decimal.scale).sum⟩ := by
  have hfits : ∀ factors ∈ ds.inits, Decimal.scaleFits
      ((Decimal.ofInt 1).scale + (factors.map Decimal.scale).sum) = true := by
    intro factors hfactors
    rw [← hds.filterMap_eq] at hfactors
    exact (Int.zero_add _).symm ▸ h factors hfactors
  rw [Decimal.foldl_mul hfits]
  exact congrArg₂ Decimal.mk (Int.one_mul _) (Int.zero_add _)

/-! ## Results -/

section

variable {numbers numbers' : List Number} {r : Number}

theorem sum_of_perm (h : numbers.Perm numbers') (hr : sum numbers = .ok r) :
    sum numbers' = .ok r :=
  map_reduce_congr (fun _ => foldExact_perm h fun _ _ _ _ hperm =>
    hperm.foldl_eq' (fun a _ b _ total => Decimal.add_right_comm total a b) _) hr

theorem difference_of_perm {first : Number} (h : numbers.Perm numbers')
    (hr : difference first numbers = .ok r) : difference first numbers' = .ok r := by
  rw [difference] at hr ⊢
  cases hfirst : first.lift with
  | error => rw [hfirst] at hr; cases hr
  | ok total =>
    rw [hfirst] at hr
    exact map_reduce_congr (fun _ => foldExact_perm h fun _ _ _ _ hperm =>
      hperm.foldl_eq' (fun a _ b _ total => Decimal.sub_right_comm total a b) _) hr

theorem product_of_perm (h : numbers.Perm numbers') (hfits : ScalesFit numbers)
    (hfits' : ScalesFit numbers') (hr : product numbers = .ok r) : product numbers' = .ok r := by
  refine map_reduce_congr (fun _ => foldExact_perm h fun ds ds' hds hds' hperm => ?_) hr
  rw [foldl_mul_of_areLifted hfits hds, foldl_mul_of_areLifted hfits' hds',
    (hperm.map Decimal.unscaled).prod_eq, (hperm.map Decimal.scale).sum_eq]

end

/--
**Operands may come in any order.** Sums and differences are the same number in the same form
for each order of the operands, or have no result for any, and products are too, as long as no
running sum of scales leaves the range in one of the two orders.
-/
theorem results_perm {numbers numbers' : List Number} (h : numbers.Perm numbers') :
    (∀ r, sum numbers = .ok r ↔ sum numbers' = .ok r) ∧
    (ScalesFit numbers → ScalesFit numbers' →
      ∀ r, product numbers = .ok r ↔ product numbers' = .ok r) ∧
    ∀ first r, difference first numbers = .ok r ↔ difference first numbers' = .ok r :=
  ⟨fun _ => ⟨sum_of_perm h, sum_of_perm h.symm⟩,
    fun hfits hfits' _ => ⟨product_of_perm h hfits hfits', product_of_perm h.symm hfits' hfits⟩,
    fun _ _ => ⟨difference_of_perm h, difference_of_perm h.symm⟩⟩

/-- An integer, a float near the least ones, and an exact decimal of negative scale. -/
def operands : List Number := [.int 7, tiny, .big ⟨3, -1⟩]

/-- For instance these operands, in two orders, of which the sum has a scale of 320. -/
theorem results_perm_operands :
    let turned : List Number := [.big ⟨3, -1⟩, .int 7, tiny]
    operands.Perm turned ∧ ScalesFit operands ∧ ScalesFit turned ∧
      (∀ r, sum operands = .ok r ↔ sum turned = .ok r) ∧
      (∀ r, product operands = .ok r ↔ product turned = .ok r) ∧
      ∀ r, difference tiny operands = .ok r ↔ difference tiny turned = .ok r := by
  intro turned
  have hperm : operands.Perm turned := @List.perm_append_comm _ [int 7, tiny] _
  have htiny : tiny.toDecimal? = some ⟨1, 320⟩ := lift_eq_ok_iff.mp lift_tiny
  have hlifted : AreLifted operands [⟨7, 0⟩, ⟨1, 320⟩, ⟨3, -1⟩] :=
    .cons rfl (.cons htiny (.cons rfl .nil))
  have hlifted' : AreLifted turned [⟨3, -1⟩, ⟨7, 0⟩, ⟨1, 320⟩] :=
    .cons rfl (.cons rfl (.cons htiny .nil))
  have hfits : ScalesFit operands := by
    rw [ScalesFit, hlifted.filterMap_eq]
    decide
  have hfits' : ScalesFit turned := by
    rw [ScalesFit, hlifted'.filterMap_eq]
    decide
  obtain ⟨hsum, hproduct, hdifference⟩ := results_perm hperm
  exact ⟨hperm, hfits, hfits', hsum, hproduct hfits hfits', hdifference tiny⟩

end Number

end ExactLisp
