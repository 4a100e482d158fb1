import Mathlib.Order.Bounds.Basic
import Chic.Purchase

namespace Chic.Purchase
open Money

/-- What the rule needs of the library functions: a safety factor that is non-negative and does not
fall as the service level rises, and a square root that does not fall. -/
structure Numerics.Regular (num : Numerics) : Prop where
  z_nonneg : ∀ level, 0 ≤ z num level
  z_mono : Monotone (z num)
  sqrt_nonneg : ∀ x, 0 ≤ x → 0 ≤ num.sqrt x
  sqrt_mono : ∀ x y, 0 ≤ x → x ≤ y → num.sqrt x ≤ num.sqrt y

section Rule
variable {num : Numerics} {p p' : PlanParams} {stat : DemandStat} {available available' : ℚ}

theorem lead_nonneg (p : PlanParams) : 0 ≤ p.lead := le_max_right _ _

theorem toOrder_eq_ceil (h : 0 < toOrder num p stat available) :
    toOrder num p stat available = ⌈orderUpTo num p stat - available⌉ := by
  have hcond := (toOrder_pos_iff num p stat available).mp h
  rw [toOrder, if_pos hcond] at h ⊢
  exact max_eq_right (lt_max_iff.mp h |>.resolve_left (lt_irrefl 0)).le

/-- The order is the least one that fills up to the order-up-to level. -/
theorem isLeast_toOrder (h : 0 < toOrder num p stat available) :
    IsLeast {n : ℤ | orderUpTo num p stat ≤ available + n} (toOrder num p stat available) := by
  rw [toOrder_eq_ceil h]
  constructor
  · have := Int.le_ceil (orderUpTo num p stat - available)
    show orderUpTo num p stat ≤ available + _
    linarith
  · intro n hn
    have hn' : orderUpTo num p stat ≤ available + n := hn
    exact Int.ceil_le.mpr (by linarith)

theorem toOrder_nonneg : 0 ≤ toOrder num p stat available := by
  unfold toOrder
  split_ifs
  · exact le_max_left _ _
  · exact le_rfl

/-- A rise of both levels, or a fall of what is available, never lowers the order. -/
theorem toOrder_le (hpoint : reorderPoint num p stat ≤ reorderPoint num p' stat)
    (hlevel : orderUpTo num p stat ≤ orderUpTo num p' stat) (havailable : available' ≤ available) :
    toOrder num p stat available ≤ toOrder num p' stat available' := by
  rcases toOrder_nonneg.eq_or_lt with h0 | hpos
  · exact h0.symm.trans_le toOrder_nonneg
  · obtain ⟨hmean, hbelow⟩ := (toOrder_pos_iff num p stat available).mp hpos
    have hpos' : 0 < toOrder num p' stat available' :=
      (toOrder_pos_iff num p' stat available').mpr ⟨hmean, by linarith⟩
    rw [toOrder_eq_ceil hpos, toOrder_eq_ceil hpos']
    exact Int.ceil_le_ceil (by linarith)

theorem safetyStock_mono (hnum : num.Regular) (hstd : 0 ≤ stat.dailyStd)
    (hlead : p.leadTimeDays ≤ p'.leadTimeDays) (hlevel : p.serviceLevel ≤ p'.serviceLevel) :
    safetyStock num p stat ≤ safetyStock num p' stat := by
  have hlead' : p.lead ≤ p'.lead := max_le_max_right 0 hlead
  have hroot := hnum.sqrt_mono _ _ (lead_nonneg p) hlead'
  unfold safetyStock
  split_ifs
  · exact mul_le_mul (mul_le_mul_of_nonneg_right (hnum.z_mono hlevel) hstd) hroot
      (hnum.sqrt_nonneg _ (lead_nonneg p)) (mul_nonneg (hnum.z_nonneg _) hstd)
  · exact le_rfl

/-- The order falls neither with the parameters nor when less is available. -/
theorem toOrder_mono (hnum : num.Regular) (hstd : 0 ≤ stat.dailyStd)
    (hlead : p.leadTimeDays ≤ p'.leadTimeDays) (hlevel : p.serviceLevel ≤ p'.serviceLevel)
    (hreview : p.reviewPeriodDays ≤ p'.reviewPeriodDays) (havailable : available' ≤ available) :
    toOrder num p stat available ≤ toOrder num p' stat available' := by
  by_cases hmean : 0 < stat.dailyMean
  · have hsafety := safetyStock_mono hnum hstd hlead hlevel
    have hlead' : p.lead ≤ p'.lead := max_le_max_right 0 hlead
    have hreview' : p.review ≤ p'.review := max_le_max_right 0 hreview
    have hleads := mul_le_mul_of_nonneg_left hlead' hmean.le
    have hreviews := mul_le_mul_of_nonneg_left hreview' hmean.le
    refine toOrder_le ?_ ?_ havailable
    · unfold reorderPoint
      linarith
    · unfold orderUpTo
      linarith
  · -- without demand nothing is ordered
    rw [toOrder, if_neg fun h => hmean h.1]
    exact toOrder_nonneg

end Rule

section Plan
variable (num : Numerics) (p : PlanParams) (demand : Dict String DemandStat)

theorem purchasePlan_totals (stock : List StockLine) (limit : ℤ) :
    (purchasePlan num p stock demand limit).totals.needOrder =
        stock.countP (fun line => 0 < (planItem num p demand line).toOrder) ∧
      (purchasePlan num p stock demand limit).totals.orderValue =
        (stock.map fun line => (planItem num p demand line).orderValue).sum := by
  have hperm := List.mergeSort_perm (stock.map (planItem num p demand))
    fun x y => y.toOrder ≤ x.toOrder
  have hvalues : WholeCents (stock.map fun line => (planItem num p demand line).orderValue).sum :=
    wholeCents_sum (List.forall_mem_map.mpr fun line _ => wholeCents_moneyRound _)
  constructor
  · exact (hperm.countP_eq _).trans List.countP_map
  · show moneyRound (List.map _ (List.mergeSort _ _)).sum = _
    rw [(hperm.map _).sum_eq, List.map_map]
    exact hvalues.moneyRound_eq

end Plan

/-- The reorder rule: order below the reorder point, up to the order-up-to level. -/
theorem reorder_rule {num : Numerics} (hnum : num.Regular) (demand : Dict String DemandStat)
    (line : StockLine) (hstd : 0 ≤ (statOf demand line.id).dailyStd) (p : PlanParams) :
    let stat := statOf demand line.id
    let available := line.available + line.inTransit
    let order := (planItem num p demand line).toOrder
    (0 < order ↔ 0 < stat.dailyMean ∧ available < reorderPoint num p stat) ∧
    (0 < order → 1 ≤ order ∧ IsLeast {n : ℤ | orderUpTo num p stat ≤ available + n} order) ∧
    (∀ line', line'.id = line.id → line.available + line.inTransit ≤ line'.available + line'.inTransit →
        (planItem num p demand line').toOrder ≤ order) ∧
    (∀ p', p.leadTimeDays ≤ p'.leadTimeDays → p.serviceLevel ≤ p'.serviceLevel →
      p.reviewPeriodDays ≤ p'.reviewPeriodDays →
      order ≤ (planItem num p' demand line).toOrder) ∧
    ∀ stock limit,
      (purchasePlan num p stock demand limit).totals.needOrder =
          stock.countP (fun line => 0 < (planItem num p demand line).toOrder) ∧
        (purchasePlan num p stock demand limit).totals.orderValue =
          (stock.map fun line => (planItem num p demand line).orderValue).sum := by
  intro stat available order
  refine ⟨toOrder_pos_iff num p stat available, fun hpos => ⟨hpos, isLeast_toOrder hpos⟩, ?_, ?_,
    purchasePlan_totals num p demand⟩
  · intro line' hid havailable
    have hstat : statOf demand line'.id = stat := congrArg (statOf demand) hid
    show toOrder num p (statOf demand line'.id) _ ≤ toOrder num p stat available
    rw [hstat]
    exact toOrder_mono hnum hstd le_rfl le_rfl le_rfl havailable
  · intro p' hlead hlevel hreview
    exact toOrder_mono hnum hstd hlead hlevel hreview le_rfl

/-- The factor of the default service level, and a square root that is right at whole squares. -/
def wholeSquares : Numerics where
  invCdf _ := 16448536269514722 / 10 ^ 16
  sqrt x := Nat.sqrt ⌊x⌋₊

theorem wholeSquares_regular : wholeSquares.Regular where
  z_nonneg _ := by norm_num [z, wholeSquares]
  z_mono _ _ _ := le_rfl
  sqrt_nonneg _ _ := Nat.cast_nonneg _
  sqrt_mono x y _ h := Nat.cast_le.mpr (Nat.sqrt_le_sqrt (Nat.floor_mono h))

def teaDemand : Dict String DemandStat := Dict.empty.set "чай" ⟨2, 1, .history⟩

def teaLine : StockLine := ⟨"чай", "Чай", "", "", 10, 2, 8, 0, 50, 100, 400, 1⟩

theorem teaLine_rule :
    1 ≤ (planItem wholeSquares { leadTimeDays := 9 } teaDemand teaLine).toOrder ∧
      IsLeast {n : ℤ | orderUpTo wholeSquares { leadTimeDays := 9 } ⟨2, 1, .history⟩ ≤ 8 + 0 + n}
        (planItem wholeSquares { leadTimeDays := 9 } teaDemand teaLine).toOrder := by
  have hstat : statOf teaDemand teaLine.id = ⟨2, 1, .history⟩ := by decide +kernel
  have hstd : 0 ≤ (statOf teaDemand teaLine.id).dailyStd := by rw [hstat]; norm_num
  obtain ⟨-, htarget, -⟩ :=
    reorder_rule wholeSquares_regular teaDemand teaLine hstd { leadTimeDays := 9 }
  rw [hstat] at htarget
  exact htarget (by decide +kernel)

example : (planItem wholeSquares { leadTimeDays := 9 } teaDemand teaLine).toOrder = 29 := by
  decide +kernel

end Chic.Purchase
