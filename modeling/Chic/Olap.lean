import Mathlib.Data.List.MinMax
import Mathlib.Data.List.Dedup
import Mathlib.Data.Rat.Floor
import Mathlib.Algebra.BigOperators.Group.List.Basic

namespace Chic.Olap

/-- One product's demand on one day, as `daily_demand` returns it. -/
structure DemandDay (δ : Type*) where
  snapshotDate : δ
  productHref : String
  name : String
  code : String
  sellQuantity : ℚ

structure FirstSeen (δ : Type*) where
  productHref : String
  firstDate : δ
  name : String
  code : String

section
variable {δ : Type*} [LinearOrder δ]

/-- `all_dates`: the distinct dates on which anything sold. -/
def allDates (demand : List (DemandDay δ)) : List δ := (demand.map (·.snapshotDate)).dedup

/-- `first_seen`: per product the first date, and the name and code of the last one. -/
def firstSeen (demand : List (DemandDay δ)) : List (FirstSeen δ) :=
  (demand.map (·.productHref)).dedup.filterMap fun href =>
    let group := demand.filter (·.productHref = href)
    match group.argmin (·.snapshotDate), group.argmax (·.snapshotDate) with
    | some first, some last =>
      some { productHref := href, firstDate := first.snapshotDate, name := last.name,
             code := last.code }
    | _, _ => none

/-- `spine`, for one product: every date from its first sale on. -/
def spine (demand : List (DemandDay δ)) (f : FirstSeen δ) : List δ :=
  (allDates demand).filter (f.firstDate ≤ ·)

/-- The left join of one spine row with the sales of that day; no match is a real 0. -/
def joined (demand : List (DemandDay δ)) (href : String) (d : δ) : List ℚ :=
  match demand.filter fun dm => dm.productHref = href ∧ dm.snapshotDate = d with
  | [] => [0]
  | matched => matched.map (·.sellQuantity)

def filled (demand : List (DemandDay δ)) (f : FirstSeen δ) : List ℚ :=
  (spine demand f).flatMap (joined demand f.productHref)

end

def mean (xs : List ℚ) : ℚ := xs.sum / xs.length

def variancePop (xs : List ℚ) : ℚ := (xs.map fun x => (x - mean xs) ^ 2).sum / xs.length

structure DemandStats where
  productHref : String
  name : String
  code : String
  days : ℕ
  meanDemand : ℚ
  stdDemand : ℚ

/-- The statistics query. `first_seen` has one row for each product, so grouping `filled` by
product is one group for each of its rows. -/
def demandStats {δ : Type*} [LinearOrder δ] (sqrt : ℚ → ℚ) (demand : List (DemandDay δ)) :
    List DemandStats :=
  (firstSeen demand).map fun f =>
    let qty := filled demand f
    { productHref := f.productHref
      name := f.name
      code := f.code
      days := qty.length
      meanDemand := mean qty
      stdDemand := sqrt (variancePop qty) }

end Chic.Olap
