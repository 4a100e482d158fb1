import Chic.ReportLines
import Chic.StableSort

namespace Chic
open Money

/-- The uniform truncating envelope: totals cover the full set, `rows` are cut to a limit. -/
structure Report (Row Totals : Type*) where
  totals : Totals
  rowCount : ℕ
  returned : ℕ
  truncated : Bool
  rows : List Row

/-- Cap rows to a display limit (`≤ 0` means all) and report whether anything was cut. -/
def truncate {Row : Type*} (rows : List Row) (limit : ℤ) : List Row × ℕ × Bool :=
  let full := rows.length
  if 0 < limit ∧ limit < full then (rows.take limit.toNat, full, true) else (rows, full, false)

theorem truncate_of_nonpos {Row : Type*} (rows : List Row) {limit : ℤ} (h : limit ≤ 0) :
    truncate rows limit = (rows, rows.length, false) := by
  have hn : ¬ (0 < limit ∧ limit < rows.length) := by omega
  simp only [truncate, if_neg hn]

/-- Bound a requested row limit to `[1, 1000]`, defaulting to 100. -/
def clampLimit (n : ℤ) : ℤ :=
  if n ≤ 0 then 100 else if 1000 < n then 1000 else n

theorem clampLimit_mem (n : ℤ) : 1 ≤ clampLimit n ∧ clampLimit n ≤ 1000 := by
  unfold clampLimit
  split_ifs <;> omega

/-- `sorted(rows, key=key, reverse=True)`, which keeps the order of rows with equal keys. -/
def sortedDesc {α κ : Type*} [LinearOrder κ] (key : α → κ) (rows : List α) : List α :=
  rows.insertionSort fun a b => key b ≤ key a

section SortedDesc
variable {α β κ : Type*} [LinearOrder κ]

theorem perm_sortedDesc (key : α → κ) (rows : List α) : (sortedDesc key rows).Perm rows :=
  List.perm_insertionSort _ rows

theorem pairwise_sortedDesc (key : α → κ) (rows : List α) :
    (sortedDesc key rows).Pairwise fun a b => key b ≤ key a := by
  have : Std.Total fun a b : α => key b ≤ key a := ⟨fun a b => le_total (key b) (key a)⟩
  have : IsTrans α fun a b => key b ≤ key a := ⟨fun _ _ _ hab hbc => hbc.trans hab⟩
  exact List.pairwise_insertionSort _ rows

/-- Input rows in another order are sorted to the same lines up to ties. -/
theorem sortedDesc_perm (key : α → κ) {rows rows' : List α} (h : rows.Perm rows') :
    (sortedDesc key rows).Perm (sortedDesc key rows') :=
  (perm_sortedDesc key rows).trans (h.trans (perm_sortedDesc key rows').symm)

/-- Rows with equal keys stay in the order in which they come. -/
theorem filter_sortedDesc (key : α → κ) (rows : List α) (k : κ) :
    (sortedDesc key rows).filter (key · = k) = rows.filter (key · = k) := by
  have : Std.Total fun a b : α => key b ≤ key a := ⟨fun a b => le_total (key b) (key a)⟩
  have : IsTrans α fun a b => key b ≤ key a := ⟨fun _ _ _ hab hbc => hbc.trans hab⟩
  refine StableSort.filter_insertionSort (List.pairwise_of_forall_mem_list ?_)
  intro a ha b hb
  have hka := of_decide_eq_true (List.mem_filter.mp ha).2
  have hkb := of_decide_eq_true (List.mem_filter.mp hb).2
  exact (hkb.trans hka.symm).le

theorem map_sortedDesc (key : β → κ) (f : α → β) (rows : List α) :
    (sortedDesc (fun a => key (f a)) rows).map f = sortedDesc key (rows.map f) :=
  List.map_insertionSort _ _ f rows fun _ _ _ _ => Iff.rfl

end SortedDesc

/-- The way in which every report ends: the totals as they are, the rows truncated. -/
def Report.capped {Row Totals : Type*} (totals : Totals) (lines : List Row) (limit : ℤ) :
    Report Row Totals :=
  let (shown, full, truncated) := truncate lines limit
  { totals, rowCount := full, returned := shown.length, truncated, rows := shown }

structure ProfitByEntityRow where
  counterparty : Option NamedRef
  employee : Option NamedRef
  salesChannel : Option NamedRef
  sellSum : ℚ
  sellCostSum : ℚ
  salesCount : ℤ
  salesAvgCheck : ℚ
  profit : ℚ

/-- The holder's display name regardless of the endpoint. -/
def ProfitByEntityRow.holderName (r : ProfitByEntityRow) : String :=
  match r.counterparty, r.employee, r.salesChannel with
  | some c, _, _ => c.name
  | none, some e, _ => e.name
  | none, none, some s => s.name
  | none, none, none => ""

structure ProfitEntityLine where
  name : String
  revenue : ℚ
  cost : ℚ
  profit : ℚ
  salesCount : ℤ
  avgCheck : ℚ
  marginPct : ℚ

def profitByEntity (rows : List ProfitByEntityRow) : List ProfitEntityLine :=
  rows.map fun r =>
    let revenue := minorToMajor r.sellSum
    let profit := minorToMajor r.profit
    { name := r.holderName
      revenue
      cost := minorToMajor r.sellCostSum
      profit
      salesCount := r.salesCount
      avgCheck := minorToMajor r.salesAvgCheck
      marginPct := Money.marginPct profit revenue }

structure ProfitTotals where
  revenue : ℚ
  cost : ℚ
  profit : ℚ
  returnSum : ℚ := 0
  sellQuantity : ℚ := 0
  salesCount : ℤ := 0
  marginPct : ℚ := 0

def profitProductReport (rows : List ProfitByProductRow) (limit : ℤ) :
    Report ProfitProductLine ProfitTotals :=
  let lines := sortedDesc (·.revenue) (profitByProduct rows)
  let revenue := (lines.map (·.revenue)).sum
  let profit := (lines.map (·.profit)).sum
  let totals : ProfitTotals :=
    { revenue := moneyRound revenue
      cost := moneyRound (lines.map (·.cost)).sum
      profit := moneyRound profit
      returnSum := moneyRound (lines.map (·.returnSum)).sum
      sellQuantity := round2 (lines.map (·.sellQuantity)).sum
      marginPct := Money.marginPct profit revenue }
  .capped totals lines limit

def profitEntityReport (rows : List ProfitByEntityRow) (limit : ℤ) :
    Report ProfitEntityLine ProfitTotals :=
  let lines := sortedDesc (·.revenue) (profitByEntity rows)
  let revenue := (lines.map (·.revenue)).sum
  let profit := (lines.map (·.profit)).sum
  let totals : ProfitTotals :=
    { revenue := moneyRound revenue
      cost := moneyRound (lines.map (·.cost)).sum
      profit := moneyRound profit
      salesCount := (lines.map (·.salesCount)).sum
      marginPct := Money.marginPct profit revenue }
  .capped totals lines limit

structure TurnoverMeasure where
  quantity : ℚ
  sum : ℚ

structure TurnoverRow where
  assortment : NamedRef
  onPeriodStart : TurnoverMeasure
  income : TurnoverMeasure
  outcome : TurnoverMeasure
  onPeriodEnd : TurnoverMeasure

structure TurnoverLine where
  name : String
  startQty : ℚ
  incomeQty : ℚ
  outcomeQty : ℚ
  endQty : ℚ
  endValue : ℚ
  turnoverDays : ℚ

structure TurnoverTotals where
  incomeQty : ℚ
  outcomeQty : ℚ
  endValue : ℚ

def turnoverDays (r : TurnoverRow) (periodDays : ℚ) : ℚ :=
  let out := r.outcome.quantity
  if out ≤ 0 ∨ periodDays ≤ 0 then 0
  else
    let avgStock := (r.onPeriodStart.quantity + r.onPeriodEnd.quantity) / 2
    let dailyOut := out / periodDays
    if dailyOut ≤ 0 then 0 else round2 (avgStock / dailyOut)

def turnover (rows : List TurnoverRow) (periodDays : ℚ) : List TurnoverLine :=
  rows.map fun r =>
    { name := r.assortment.name
      startQty := r.onPeriodStart.quantity
      incomeQty := r.income.quantity
      outcomeQty := r.outcome.quantity
      endQty := r.onPeriodEnd.quantity
      endValue := minorToMajor r.onPeriodEnd.sum
      turnoverDays := Chic.turnoverDays r periodDays }

def turnoverReport (rows : List TurnoverRow) (periodDays : ℚ) (limit : ℤ) :
    Report TurnoverLine TurnoverTotals :=
  let lines := sortedDesc (·.endValue) (turnover rows periodDays)
  let totals : TurnoverTotals :=
    { incomeQty := round2 (lines.map (·.incomeQty)).sum
      outcomeQty := round2 (lines.map (·.outcomeQty)).sum
      endValue := moneyRound (lines.map (·.endValue)).sum }
  .capped totals lines limit

structure StockTotals where
  units : ℚ
  available : ℚ
  stockValue : ℚ

def stockReport (rows : List StockRow) (limit : ℤ) : Report StockLine StockTotals :=
  let lines := sortedDesc (·.stockValue) (stock rows)
  let totals : StockTotals :=
    { units := round2 (lines.map (·.stock)).sum
      available := round2 (lines.map (·.available)).sum
      stockValue := moneyRound (lines.map (·.stockValue)).sum }
  .capped totals lines limit

structure CounterpartyRow where
  counterparty : NamedRef
  firstDemandDate : String
  lastDemandDate : String
  demandsCount : ℤ
  demandsSum : ℚ
  averageReceipt : ℚ
  returnsSum : ℚ
  balance : ℚ
  profit : ℚ

structure CounterpartyMetric where
  name : String
  firstDemand : String
  lastDemand : String
  demandsCount : ℤ
  revenue : ℚ
  avgReceipt : ℚ
  returnsSum : ℚ
  balance : ℚ
  profit : ℚ

structure CounterpartyTotals where
  revenue : ℚ
  profit : ℚ
  returnsSum : ℚ
  balance : ℚ
  marginPct : ℚ

def counterpartyMetrics (rows : List CounterpartyRow) : List CounterpartyMetric :=
  rows.map fun r =>
    { name := r.counterparty.name
      firstDemand := r.firstDemandDate
      lastDemand := r.lastDemandDate
      demandsCount := r.demandsCount
      revenue := minorToMajor r.demandsSum
      avgReceipt := minorToMajor r.averageReceipt
      returnsSum := minorToMajor r.returnsSum
      balance := minorToMajor r.balance
      profit := minorToMajor r.profit }

def counterpartyReport (rows : List CounterpartyRow) (limit : ℤ) :
    Report CounterpartyMetric CounterpartyTotals :=
  let lines := sortedDesc (·.revenue) (counterpartyMetrics rows)
  let revenue := (lines.map (·.revenue)).sum
  let profit := (lines.map (·.profit)).sum
  let totals : CounterpartyTotals :=
    { revenue := moneyRound revenue
      profit := moneyRound profit
      returnsSum := moneyRound (lines.map (·.returnsSum)).sum
      balance := moneyRound (lines.map (·.balance)).sum
      marginPct := Money.marginPct profit revenue }
  .capped totals lines limit

structure Currency where
  isoCode : String

structure Rate where
  currency : Option Currency

structure Document where
  id : String
  name : String
  moment : String
  applicable : Bool
  sum : ℚ
  payedSum : ℚ
  agent : Option NamedRef
  store : Option NamedRef
  salesChannel : Option NamedRef
  state : Option NamedRef
  rate : Option Rate

structure DocumentSummary where
  id : String
  name : String
  moment : String
  sum : ℚ
  paid : ℚ
  counterparty : String
  state : String
  store : String
  channel : String
  currency : String
  applicable : Bool

structure DocumentTotals where
  sum : ℚ
  paid : ℚ

def documentSummaryOf (d : Document) : DocumentSummary :=
  let nameOf (r : Option NamedRef) : String := (r.map (·.name)).getD ""
  { id := d.id
    name := d.name
    moment := d.moment
    sum := minorToMajor d.sum
    paid := minorToMajor d.payedSum
    applicable := d.applicable
    currency := ((d.rate.bind (·.currency)).map (·.isoCode)).getD ""
    counterparty := nameOf d.agent
    state := nameOf d.state
    store := nameOf d.store
    channel := nameOf d.salesChannel }

def documentReport (docs : List Document) (limit : ℤ) : Report DocumentSummary DocumentTotals :=
  let rows := docs.map documentSummaryOf
  let totals : DocumentTotals :=
    { sum := moneyRound (rows.map (·.sum)).sum
      paid := moneyRound (rows.map (·.paid)).sum }
  .capped totals rows limit

end Chic
