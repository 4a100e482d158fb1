import Chic.Money

namespace Chic
open Money

/-- The stable per-product join key; the name stands in when the API omits the href. -/
def productKey (metaHref name : String) : String :=
  if metaHref ≠ "" then metaHref else "name:" ++ name

structure NamedRef where
  href : String
  name : String
  code : String

/-- A row of the profit report, amounts in minor units as the API returns them. -/
structure ProfitByProductRow where
  assortment : NamedRef
  sellQuantity : ℚ
  sellSum : ℚ
  sellCostSum : ℚ
  returnQuantity : ℚ
  returnSum : ℚ
  profit : ℚ

structure ProfitProductLine where
  id : String
  name : String
  code : String := ""
  sellQuantity : ℚ
  revenue : ℚ
  cost : ℚ
  returnSum : ℚ
  profit : ℚ
  marginPct : ℚ

def profitByProduct (rows : List ProfitByProductRow) : List ProfitProductLine :=
  rows.map fun r =>
    let revenue := minorToMajor r.sellSum
    let profit := minorToMajor r.profit
    { id := productKey r.assortment.href r.assortment.name
      name := r.assortment.name
      code := r.assortment.code
      sellQuantity := r.sellQuantity
      revenue
      cost := minorToMajor r.sellCostSum
      returnSum := minorToMajor r.returnSum
      profit
      marginPct := Money.marginPct profit revenue }

structure StockRow where
  href : String
  name : String
  code : String
  article : String
  price : ℚ
  salePrice : ℚ
  stock : ℚ
  reserve : ℚ
  inTransit : ℚ
  stockDays : ℚ

structure StockLine where
  id : String
  name : String
  code : String
  article : String
  stock : ℚ
  reserve : ℚ
  available : ℚ
  inTransit : ℚ
  costPrice : ℚ
  salePrice : ℚ
  stockValue : ℚ
  stockDays : ℤ

def stockLine (r : StockRow) : StockLine :=
  let cost := minorToMajor r.price
  { id := productKey r.href r.name
    name := r.name
    code := r.code
    article := r.article
    stock := r.stock
    reserve := r.reserve
    available := r.stock - r.reserve
    inTransit := r.inTransit
    costPrice := cost
    salePrice := minorToMajor r.salePrice
    stockValue := moneyRound (r.stock * cost)
    stockDays := truncToInt r.stockDays }

def stock (rows : List StockRow) : List StockLine := rows.map stockLine

/-- A calendar day as its proleptic ordinal. The text `%Y-%m-%d` of two days sorts as the days
do from the year 1000 on, and `timedelta(days=n)` adds `n`. -/
abbrev Day := ℤ

inductive StockMode
  | all | positiveOnly | negativeOnly | empty | nonEmpty | underMinimum
  deriving DecidableEq

/-- The part of the API that planning reads, as of one moment: stock by mode, and the profit
report by product for the days `from` to `to`, both included. -/
structure Source where
  getStock : StockMode → List StockRow
  profitByProduct : (fromDay toDay : Day) → List ProfitByProductRow

end Chic
