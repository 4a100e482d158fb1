import Chic.History
import Chic.Trace

namespace Chic.Snapshot
open History

def stockRow (r : StockRow) : String × StockSnapshot :=
  (productKey r.href r.name,
    { name := r.name
      code := r.code
      stock := r.stock
      reserve := r.reserve
      inTransit := r.inTransit
      priceMinor := r.price
      salePriceMinor := r.salePrice
      stockDays := truncToInt r.stockDays })

def salesRow (r : ProfitByProductRow) : String × SalesSnapshot :=
  (productKey r.assortment.href r.assortment.name,
    { name := r.assortment.name
      code := r.assortment.code
      sellQuantity := r.sellQuantity
      sellSumMinor := r.sellSum
      sellCostMinor := r.sellCostSum
      profitMinor := r.profit
      returnQuantity := r.returnQuantity
      returnSumMinor := r.returnSum })

/-- One row for each product, the last one. -/
def dedupe {ρ : Type*} (rows : List (String × ρ)) : List (String × ρ) :=
  (rows.foldl (fun byKey r => byKey.set r.1 r.2) (Dict.empty : Dict String ρ)).entries

/-- The complete days that still need a sales snapshot; `now` is the day of the clock. -/
def salesDays (now : Day) (maxBackfillDays : ℤ) (last : Option Day) : List Day :=
  let n := max maxBackfillDays 1
  let yesterday := now - 1
  let floor := yesterday - (n - 1)
  let start :=
    match last with
    | none => floor
    | some last => max (last + 1) floor
  walkDays (fun day => [day]) start yesterday

/-- The request or store access that a `capture` stands before; `idle` after an aborted one. -/
inductive Pc
  | idle
  | returned
  | checkingStock
  | askingStock
  | savingStock (rows : List (String × StockSnapshot))
  | readingLatest
  | askingSales (day : Day) (rest : List Day)
  | savingSales (day : Day) (rows : List (String × SalesSnapshot)) (rest : List Day)
  | marking (day : Day) (rows : ℕ) (rest : List Day)

/-- history.db with the run of `capture` that is under way: its day, its window and the number
of rows written so far. -/
structure World where
  history : Store
  now : Day
  maxBackfillDays : ℤ
  written : ℕ
  pc : Pc

def World.init : World := ⟨Store.empty, 0, 0, 0, .idle⟩

/-- `cut` is an exception at the request or write that the run stands before. -/
inductive Event
  | capture (now : Day) (maxBackfillDays : ℤ)
  | advance
  | stockAnswer (rows : List StockRow)
  | salesAnswer (rows : List ProfitByProductRow)
  | cut

/-- The loop of `capture` over the days. -/
def nextDay : List Day → Pc
  | [] => .returned
  | day :: rest => .askingSales day rest

/-- The next store access of a run. -/
def World.advance (w : World) : Option World :=
  match w.pc with
  | .checkingStock =>
    some { w with pc := if w.history.hasStock w.now then .readingLatest else .askingStock }
  | .savingStock rows =>
    some
      { w with
        history := w.history.saveStock w.now rows
        written := w.written + rows.length
        pc := .readingLatest }
  | .readingLatest =>
    some { w with pc := nextDay (salesDays w.now w.maxBackfillDays w.history.latestSalesDate) }
  | .savingSales day rows rest =>
    some { w with history := w.history.saveSales day rows, pc := .marking day rows.length rest }
  | .marking day rows rest =>
    some
      { w with
        history := w.history.markSalesCaptured day rows
        written := w.written + rows
        pc := nextDay rest }
  | _ => none

def step (w : World) : Event → Option World
  | .capture now maxBackfillDays =>
    match w.pc with
    | .idle | .returned =>
      some { w with now, maxBackfillDays, written := 0, pc := .checkingStock }
    | _ => none
  | .advance => w.advance
  | .stockAnswer rows =>
    match w.pc with
    | .askingStock => some { w with pc := .savingStock (dedupe (rows.map stockRow)) }
    | _ => none
  | .salesAnswer rows =>
    match w.pc with
    | .askingSales day rest =>
      some { w with pc := .savingSales day (dedupe (rows.map salesRow)) rest }
    | _ => none
  | .cut =>
    match w.pc with
    | .idle | .returned => none
    | _ => some { w with pc := .idle }

def Pc.ended : Pc → Prop
  | .idle | .returned => True
  | _ => False

/-- Every way for a step to go, with the guard it took. -/
inductive Moves (w : World) : Event → World → Prop
  | started {now maxBackfillDays} (hpc : w.pc.ended) :
    Moves w (.capture now maxBackfillDays)
      { w with now, maxBackfillDays, written := 0, pc := .checkingStock }
  | stockThere (hpc : w.pc = .checkingStock) (hstock : w.history.hasStock w.now = true) :
    Moves w .advance { w with pc := .readingLatest }
  | stockMissing (hpc : w.pc = .checkingStock) (hstock : w.history.hasStock w.now = false) :
    Moves w .advance { w with pc := .askingStock }
  | stockSaved {rows} (hpc : w.pc = .savingStock rows) :
    Moves w .advance
      { w with
        history := w.history.saveStock w.now rows
        written := w.written + rows.length
        pc := .readingLatest }
  | planned (hpc : w.pc = .readingLatest) :
    Moves w .advance
      { w with pc := nextDay (salesDays w.now w.maxBackfillDays w.history.latestSalesDate) }
  | salesSaved {day rows rest} (hpc : w.pc = .savingSales day rows rest) :
    Moves w .advance
      { w with history := w.history.saveSales day rows, pc := .marking day rows.length rest }
  | marked {day rows rest} (hpc : w.pc = .marking day rows rest) :
    Moves w .advance
      { w with
        history := w.history.markSalesCaptured day rows
        written := w.written + rows
        pc := nextDay rest }
  | stockAnswered {rows} (hpc : w.pc = .askingStock) :
    Moves w (.stockAnswer rows) { w with pc := .savingStock (dedupe (rows.map stockRow)) }
  | salesAnswered {rows day rest} (hpc : w.pc = .askingSales day rest) :
    Moves w (.salesAnswer rows)
      { w with pc := .savingSales day (dedupe (rows.map salesRow)) rest }
  | aborted (hpc : ¬ w.pc.ended) : Moves w .cut { w with pc := .idle }

theorem advance_moves {w w' : World} (h : w.advance = some w') : Moves w .advance w' := by
  unfold World.advance at h
  split at h
  case h_1 hpc =>
    cases h
    cases hstock : w.history.hasStock w.now
    · exact .stockMissing hpc hstock
    · exact .stockThere hpc hstock
  case h_2 hpc => cases h; exact .stockSaved hpc
  case h_3 hpc => cases h; exact .planned hpc
  case h_4 hpc => cases h; exact .salesSaved hpc
  case h_5 hpc => cases h; exact .marked hpc
  case h_6 => cases h

theorem step_moves {w w' : World} {e : Event} (h : step w e = some w') : Moves w e w' := by
  cases e with
  | capture now maxBackfillDays =>
    dsimp only [step] at h
    split at h
    case h_1 hpc => cases h; exact .started (by rw [hpc]; trivial)
    case h_2 hpc => cases h; exact .started (by rw [hpc]; trivial)
    case h_3 => cases h
  | advance => exact advance_moves h
  | stockAnswer rows =>
    dsimp only [step] at h
    split at h
    case h_1 hpc => cases h; exact .stockAnswered hpc
    case h_2 => cases h
  | salesAnswer rows =>
    dsimp only [step] at h
    split at h
    case h_1 hpc => cases h; exact .salesAnswered hpc
    case h_2 => cases h
  | cut =>
    dsimp only [step] at h
    split at h
    case h_1 => cases h
    case h_2 => cases h
    case h_3 hidle hreturned =>
      cases h
      refine .aborted ?_
      intro hended
      cases hpc : w.pc with
      | idle => exact hidle hpc
      | returned => exact hreturned hpc
      | _ => simp [hpc, Pc.ended] at hended

section Dedupe
variable {ρ : Type*}

theorem dedupe_nodup (rows : List (String × ρ)) : ((dedupe rows).map Prod.fst).Nodup :=
  Dict.keys_nodup _

theorem dedupe_eq_nil_iff {rows : List (String × ρ)} : dedupe rows = [] ↔ rows = [] := by
  refine ⟨?_, fun h => by rw [h]; rfl⟩
  intro h
  apply List.eq_nil_iff_forall_not_mem.mpr
  intro r hr
  have hkey : r.1 ∈ (dedupe rows).map Prod.fst :=
    Dict.mem_keys_foldl_set.mpr (.inr (List.mem_map_of_mem hr))
  rw [h] at hkey
  cases hkey

end Dedupe

/-- The days of a capture: from the resume day, but not before the window, to yesterday. -/
theorem salesDays_eq (now maxBackfillDays : ℤ) (last : Option ℤ) :
    salesDays now maxBackfillDays last =
      dayRange (max ((last.map (· + 1)).getD (now - max maxBackfillDays 1))
        (now - max maxBackfillDays 1)) (now - 1) := by
  have hfloor : now - 1 - (max maxBackfillDays 1 - 1) = now - max maxBackfillDays 1 := by omega
  dsimp only [salesDays]
  rw [walkDays_eq, List.flatMap_singleton', hfloor]
  cases last with
  | none => simp
  | some last => rfl

/-- The days that a capture goes through are ascending and after every stored one. -/
theorem salesDays_sorted (now : Day) (maxBackfillDays : ℤ) (last : Option Day) :
    (salesDays now maxBackfillDays last).Pairwise (· < ·) := by
  rw [salesDays_eq]
  exact dayRange_sorted _ _

theorem lt_of_mem_salesDays {now last d : ℤ} {maxBackfillDays : ℤ}
    (h : d ∈ salesDays now maxBackfillDays (some last)) : last < d := by
  rw [salesDays_eq, mem_dayRange, Option.map_some, Option.getD_some] at h
  omega

end Chic.Snapshot
