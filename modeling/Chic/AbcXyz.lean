import Mathlib.Data.String.Basic
import Chic.Analytics
import Chic.Tally
import Chic.Xyz

namespace Chic.Xyz
open Money Olap

structure ABCXYZCell where
  cell : String
  count : ℕ
  revenue : ℚ
  recommendation : String

structure ABCXYZItem where
  name : String
  code : String := ""
  abcClass : AbcClass
  xyzClass : XyzClass
  cell : String
  revenue : ℚ
  cv : ℚ

structure ABCXYZMatrix where
  classified : ℕ
  abcOnly : ℕ
  cells : List ABCXYZCell
  items : List ABCXYZItem
  itemCount : ℕ
  itemsTruncated : Bool

def abcText : AbcClass → String
  | .A => "A"
  | .B => "B"
  | .C => "C"

def xyzText : XyzClass → String
  | .X => "X"
  | .Y => "Y"
  | .Z => "Z"

def recommendations : List (String × String) :=
  [("AX", "держать всегда, можно автопополнение"),
    ("AY", "держать с буфером под колебания"),
    ("AZ", "важный, но непредсказуемый — страховой запас и контроль"),
    ("BX", "стабильный середняк — умеренный запас"),
    ("BY", "умеренный буфер"),
    ("BZ", "под заказ или малый запас"),
    ("CX", "дешёвый, но предсказуемый — минимальный автозапас"),
    ("CY", "под заказ"),
    ("CZ", "кандидат на вывод из ассортимента")]

def recommendation (cell : String) : String := (Dict.lookup cell recommendations).getD ""

/-- The class and the coefficient of variation of each product with enough history. -/
def xyzByKey (stats : List DemandStats) (p : XyzParams) : Dict String (XyzClass × ℚ) :=
  let (x, y) := normThresholds p.xThreshold p.yThreshold
  stats.foldl (fun d s =>
    if p.minDays ≤ s.days then d.set s.productHref (xyzClass (cv s) x y, cv s) else d) Dict.empty

def nameByKey (abcPairs : List (String × String × ℚ)) : Dict String String :=
  abcPairs.foldl (fun d pair => d.set pair.1 pair.2.1) Dict.empty

structure MatrixState where
  items : List ABCXYZItem := []
  abcOnly : ℕ := 0
  cellCount : Dict String ℕ := Dict.empty
  cellRevenue : Dict String ℚ := Dict.empty

def matrixItem (nameByKey : Dict String String) (a : ABCItem) (xyz : XyzClass × ℚ) : ABCXYZItem where
  name := (nameByKey.get? a.name).getD a.name
  abcClass := a.abcClass
  xyzClass := xyz.1
  cell := abcText a.abcClass ++ xyzText xyz.1
  revenue := moneyRound a.value
  cv := roundHalfEven (xyz.2 * 1000) / 1000

/-- One item of the ranking; its `name` holds the product key here. -/
def matrixStep (xyzByKey : Dict String (XyzClass × ℚ)) (nameByKey : Dict String String)
    (s : MatrixState) (a : ABCItem) : MatrixState :=
  match xyzByKey.get? a.name with
  | none => { s with abcOnly := s.abcOnly + 1 }
  | some xyz =>
    let item := matrixItem nameByKey a xyz
    { s with
      items := s.items ++ [item]
      cellCount := s.cellCount.add item.cell 1
      cellRevenue := s.cellRevenue.add item.cell a.value }

def ranking (abcPairs : List (String × String × ℚ)) : List ABCItem :=
  abc (abcPairs.map fun pair => (pair.1, pair.2.2)) (8 / 10) (95 / 100)

/-- What follows the ranking: its items are joined with the predictability of their products. -/
def matrixOf (ranked : List ABCItem) (abcPairs : List (String × String × ℚ))
    (stats : List DemandStats) (p : XyzParams) (limit : ℤ) : ABCXYZMatrix :=
  let s := ranked.foldl (matrixStep (xyzByKey stats p) (nameByKey abcPairs)) {}
  let cells := (s.cellCount.keys.insertionSort (· ≤ ·)).map fun cell =>
    { cell
      count := s.cellCount.amount cell
      revenue := moneyRound (s.cellRevenue.amount cell)
      recommendation := recommendation cell : ABCXYZCell }
  let (shown, full, truncated) := truncate (sortedDesc (·.revenue) s.items) limit
  { classified := s.items.length
    abcOnly := s.abcOnly
    cells
    items := shown
    itemCount := full
    itemsTruncated := truncated }

def abcXyzMatrix (abcPairs : List (String × String × ℚ)) (stats : List DemandStats)
    (p : XyzParams) (limit : ℤ) : ABCXYZMatrix :=
  matrixOf (ranking abcPairs) abcPairs stats p limit

end Chic.Xyz
