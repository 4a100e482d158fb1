import Mathlib.Data.List.Sort
import Chic.Dict
import Chic.Olap
import Chic.Reports

namespace Chic.Purchase
open Money Olap

structure Numerics where
  invCdf : ℚ → ℚ
  sqrt : ℚ → ℚ

inductive DemandSource
  | history | estimate | none
  deriving DecidableEq

structure DemandStat where
  dailyMean : ℚ
  dailyStd : ℚ
  source : DemandSource
  deriving DecidableEq

structure PurchasePlanItem where
  name : String
  code : String
  available : ℚ
  dailyDemand : ℚ
  demandStd : ℚ
  source : DemandSource
  daysOfCover : ℚ
  safetyStock : ℚ
  reorderPoint : ℚ
  toOrder : ℤ
  orderValue : ℚ

structure PurchasePlanTotals where
  count : ℕ
  needOrder : ℕ
  orderValue : ℚ

/-- The safety factor, with the service level clamped to `[0.5, 0.999]`. -/
def z (num : Numerics) (serviceLevel : ℚ) : ℚ :=
  num.invCdf (min (max serviceLevel (1 / 2)) (999 / 1000))

structure PlanParams where
  leadTimeDays : ℚ := 7
  serviceLevel : ℚ := 95 / 100
  reviewPeriodDays : ℚ := 7

def PlanParams.lead (p : PlanParams) : ℚ := max p.leadTimeDays 0

def PlanParams.review (p : PlanParams) : ℚ := max p.reviewPeriodDays 0

section
variable (num : Numerics) (p : PlanParams)

def safetyStock (stat : DemandStat) : ℚ :=
  if 0 < stat.dailyMean then z num p.serviceLevel * stat.dailyStd * num.sqrt p.lead else 0

def reorderPoint (stat : DemandStat) : ℚ := stat.dailyMean * p.lead + safetyStock num p stat

def orderUpTo (stat : DemandStat) : ℚ :=
  stat.dailyMean * (p.lead + p.review) + safetyStock num p stat

/-- Units to order now: up to the order-up-to level, only below the reorder point. -/
def toOrder (stat : DemandStat) (available : ℚ) : ℤ :=
  if 0 < stat.dailyMean ∧ available < reorderPoint num p stat then
    max 0 ⌈orderUpTo num p stat - available⌉
  else 0

def statOf (demand : Dict String DemandStat) (id : String) : DemandStat :=
  (demand.get? id).getD { dailyMean := 0, dailyStd := 0, source := .none }

def planItem (demand : Dict String DemandStat) (line : StockLine) : PurchasePlanItem :=
  let stat := statOf demand line.id
  let available := line.available + line.inTransit
  let order := toOrder num p stat available
  { name := line.name
    code := line.code
    available := round2 available
    dailyDemand := round2 stat.dailyMean
    demandStd := round2 stat.dailyStd
    source := stat.source
    daysOfCover := if 0 < stat.dailyMean then round2 (available / stat.dailyMean) else -1
    safetyStock := round2 (safetyStock num p stat)
    reorderPoint := round2 (reorderPoint num p stat)
    toOrder := order
    orderValue := moneyRound (order * line.costPrice) }

/-- The reorder plan; the sort keeps the order of lines with equal orders. -/
def purchasePlan (stock : List StockLine) (demand : Dict String DemandStat) (limit : ℤ) :
    Report PurchasePlanItem PurchasePlanTotals :=
  let items := (stock.map (planItem num p demand)).mergeSort fun x y => y.toOrder ≤ x.toOrder
  let orderValue := (items.map (·.orderValue)).sum
  let (shown, full, truncated) := truncate items limit
  { totals :=
      { count := items.length
        needOrder := items.countP (0 < ·.toOrder)
        orderValue := moneyRound orderValue }
    rowCount := full
    returned := shown.length
    truncated
    rows := shown }

end

def defaultMinDays : ℕ := 3
def fallbackWindowDays : ℤ := 30

def historyDemand (sqrt : ℚ → ℚ) (history : List (DemandDay Day)) : Dict String DemandStat :=
  (demandStats sqrt history).foldl (fun stats s =>
    if defaultMinDays ≤ s.days then
      stats.set s.productHref
        { dailyMean := s.meanDemand, dailyStd := s.stdDemand, source := .history }
    else stats) Dict.empty

/-- One line of the recent-sales fallback: it never replaces a forecast that is there. -/
def fallbackStep (cv : ℚ) (stats : Dict String DemandStat) (line : ProfitProductLine) :
    Dict String DemandStat :=
  if (stats.get? line.id).isSome ∨ line.sellQuantity ≤ 0 then stats
  else
    let daily := line.sellQuantity / fallbackWindowDays
    stats.set line.id { dailyMean := daily, dailyStd := daily * cv, source := .estimate }

def forecasts (num : Numerics) (api : Source) (history : List (DemandDay Day)) (now : Day)
    (fallbackCv : ℚ) : Dict String DemandStat :=
  let cv := max fallbackCv 0
  (profitByProduct (api.profitByProduct (now - fallbackWindowDays) now)).foldl (fallbackStep cv)
    (historyDemand num.sqrt history)

/-- The `purchase` use-case: the stock report of the products on hand, joined with the
forecasts. -/
def purchase (num : Numerics) (api : Source) (history : List (DemandDay Day)) (now : Day)
    (p : PlanParams) (fallbackCv : ℚ) (limit : ℤ) : Report PurchasePlanItem PurchasePlanTotals :=
  purchasePlan num p (stock (api.getStock .positiveOnly))
    (forecasts num api history now fallbackCv) limit

section
variable (num : Numerics) (p : PlanParams)

theorem review_nonneg : 0 ≤ p.review := le_max_right _ _

theorem reorderPoint_le_orderUpTo {stat : DemandStat} (h : 0 < stat.dailyMean) :
    reorderPoint num p stat ≤ orderUpTo num p stat := by
  have hr := mul_nonneg h.le (review_nonneg p)
  unfold reorderPoint orderUpTo
  linarith

/-- Something is ordered exactly for a product in demand that is below its reorder point. -/
theorem toOrder_pos_iff (stat : DemandStat) (available : ℚ) :
    0 < toOrder num p stat available ↔
      0 < stat.dailyMean ∧ available < reorderPoint num p stat := by
  unfold toOrder
  split_ifs with h
  · have hpos : 0 < ⌈orderUpTo num p stat - available⌉ := by
      apply Int.ceil_pos.mpr
      have := reorderPoint_le_orderUpTo num p h.1
      linarith [h.2]
    simp only [h, and_self, iff_true]
    exact lt_max_of_lt_right hpos
  · exact iff_of_false (lt_irrefl 0) h

theorem mem_purchasePlan_rows {stock : List StockLine} {demand : Dict String DemandStat}
    {item : PurchasePlanItem} :
    item ∈ (purchasePlan num p stock demand 0).rows ↔
      ∃ line ∈ stock, planItem num p demand line = item := by
  simp only [purchasePlan, truncate_of_nonpos _ le_rfl, List.mem_mergeSort, List.mem_map]

end

end Chic.Purchase
