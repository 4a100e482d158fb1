import Chic.Dict
import Chic.Reports

namespace Chic
open Money

inductive AbcClass
  | A | B | C
  deriving DecidableEq

structure ABCItem where
  name : String
  value : ℚ
  share : ℚ := 0
  cumulativeShare : ℚ := 0
  abcClass : AbcClass := .C

structure ABCTotals where
  count : ℕ
  value : ℚ
  aCount : ℕ
  bCount : ℕ
  cCount : ℕ

/-- The cut-offs, replaced by the default ones where they are out of order. -/
def abcCuts (aCut bCut : ℚ) : ℚ × ℚ :=
  let a := if aCut ≤ 0 ∨ 1 ≤ aCut then 8 / 10 else aCut
  let b := if bCut ≤ a ∨ 1 ≤ bCut then 95 / 100 else bCut
  (a, b)

/-- The loop over the ranking: shares and classes of the items after those that make up `cum`. -/
def abcRank (aCut bCut total : ℚ) : ℚ → List (String × ℚ) → List ABCItem
  | _, [] => []
  | cum, (name, v) :: rest =>
    let counts := 0 < total ∧ 0 < v
    let cum := if counts then cum + v else cum
    { name
      value := v
      share := if counts then round2 (v / total * 100) else 0
      cumulativeShare := if counts then round2 (cum / total * 100) else 100
      abcClass :=
        if v ≤ 0 then .C
        else if cum / total ≤ aCut then .A
        else if cum / total ≤ bCut then .B
        else .C } :: abcRank aCut bCut total cum rest

/-- `abc`, its ratios taken exactly. -/
def abc (pairs : List (String × ℚ)) (aCut bCut : ℚ) : List ABCItem :=
  let (a, b) := abcCuts aCut bCut
  let items := sortedDesc Prod.snd pairs
  let total := ((items.map Prod.snd).filter (0 < ·)).sum
  abcRank a b total 0 items

def abcReport (items : List ABCItem) (limit : ℤ) : Report ABCItem ABCTotals :=
  let value := ((items.map (·.value)).filter (0 < ·)).sum
  let totals : ABCTotals :=
    { count := items.length
      value := moneyRound value
      aCount := items.countP (·.abcClass = .A)
      bCount := items.countP (·.abcClass = .B)
      cCount := items.countP fun it => it.abcClass ≠ .A ∧ it.abcClass ≠ .B }
  .capped totals items limit

inductive SegmentLabel
  | vip | sleeping | atRisk | lowCheck | debtor | negativeMargin
  deriving DecidableEq

structure CounterpartySegment where
  name : String
  segments : List SegmentLabel
  revenue : ℚ
  avgReceipt : ℚ
  profit : ℚ
  balance : ℚ
  daysSinceLastPurchase : ℤ

structure SegmentTotals where
  count : ℕ
  vip : ℕ
  sleeping : ℕ
  atRisk : ℕ
  lowCheck : ℕ
  debtor : ℕ
  negativeMargin : ℕ

def segmentReport (segs : List CounterpartySegment) (limit : ℤ) :
    Report CounterpartySegment SegmentTotals :=
  let tallies := (segs.flatMap (·.segments)).count
  let totals : SegmentTotals :=
    { count := segs.length
      vip := tallies .vip
      sleeping := tallies .sleeping
      atRisk := tallies .atRisk
      lowCheck := tallies .lowCheck
      debtor := tallies .debtor
      negativeMargin := tallies .negativeMargin }
  .capped totals (sortedDesc (·.revenue) segs) limit

structure DeadStockLine extends StockLine where
  outcomeQty : ℚ

structure DeadStockTotals where
  count : ℕ
  stockValue : ℚ

def deadStock (rows : List StockRow) (outcomeByRef : Option (Dict String ℚ)) (thresholdDays : ℤ) :
    List DeadStockLine :=
  sortedDesc (·.stockValue) (rows.filterMap fun r =>
    if r.stock ≤ 0 ∨ r.stockDays < (thresholdDays : ℚ) then none
    else
      match outcomeByRef.bind (·.get? r.href) with
      | some outcome =>
        if 0 < outcome then none else some { stockLine r with outcomeQty := outcome }
      | none => some { stockLine r with outcomeQty := 0 })

def deadStockReport (lines : List DeadStockLine) (limit : ℤ) :
    Report DeadStockLine DeadStockTotals :=
  let totals : DeadStockTotals :=
    { count := lines.length
      stockValue := moneyRound (lines.map (·.stockValue)).sum }
  .capped totals lines limit

end Chic
