import Chic.History
import Chic.Olap
import Chic.Reports

namespace Chic.Xyz
open Money Olap

inductive XyzClass
  | X | Y | Z
  deriving DecidableEq

structure XYZItem where
  name : String
  code : String
  days : ℕ
  meanDemand : ℚ
  stdDemand : ℚ
  cv : ℚ
  xyzClass : XyzClass

structure XYZTotals where
  count : ℕ
  xCount : ℕ
  yCount : ℕ
  zCount : ℕ
  unclassified : ℕ
  historyDays : ℕ
  historyGapDays : ℕ
  historyGaps : List Day

def cv (s : DemandStats) : ℚ := if 0 < s.meanDemand then s.stdDemand / s.meanDemand else 0

/-- Non-negative cut-offs in order. -/
def normThresholds (xThreshold yThreshold : ℚ) : ℚ × ℚ :=
  let x := max xThreshold 0
  (x, max yThreshold x)

def xyzClass (cv xThreshold yThreshold : ℚ) : XyzClass :=
  if cv ≤ xThreshold then .X else if cv ≤ yThreshold then .Y else .Z

/-- The options of an analysis. -/
structure XyzParams where
  minDays : ℤ := 3
  xThreshold : ℚ := 10 / 100
  yThreshold : ℚ := 25 / 100

def xyzItem (p : XyzParams) (s : DemandStats) : XYZItem :=
  let (x, y) := normThresholds p.xThreshold p.yThreshold
  { name := s.name
    code := s.code
    days := s.days
    meanDemand := round2 s.meanDemand
    stdDemand := round2 s.stdDemand
    cv := roundHalfEven (cv s * 1000) / 1000
    xyzClass := xyzClass (cv s) x y }

def xyzAnalysis (stats : List DemandStats) (p : XyzParams) (limit : ℤ)
    (coverage : Option (History.Coverage Day)) : Report XYZItem XYZTotals :=
  let classified := stats.filter fun s => p.minDays ≤ s.days
  let items := sortedDesc (·.meanDemand) (classified.map (xyzItem p))
  let totals : XYZTotals :=
    { count := items.length
      xCount := items.countP (·.xyzClass = .X)
      yCount := items.countP (·.xyzClass = .Y)
      zCount := items.countP (·.xyzClass = .Z)
      unclassified := stats.countP fun s => s.days < p.minDays
      historyDays := (coverage.map (·.capturedDays)).getD 0
      historyGapDays := (coverage.map (·.gapDays)).getD 0
      historyGaps := (coverage.map (·.gaps)).getD [] }
  .capped totals items limit

end Chic.Xyz
