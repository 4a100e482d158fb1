import Chic.Purchase

namespace Chic.Purchase

def stockKey (r : StockRow) : String := productKey r.href r.name

/-- The products with their true stock levels, one row for each; asked for `positiveOnly`, the
stock report lists exactly those on hand, in any order. -/
structure Warehouse where
  products : List StockRow
  keys_nodup : (products.map stockKey).Nodup
  getStock : StockMode → List StockRow
  positive_perm : (getStock .positiveOnly).Perm (products.filter fun r => 0 < r.stock)

/-- `stock - reserve + in transit` of the row under a key, 0 when there is no row. -/
def availableIn (rows : List StockRow) (key : String) : ℚ :=
  match rows.find? fun r => stockKey r = key with
  | some r => r.stock - r.reserve + r.inTransit
  | none => 0

/-- The product's forecast has a positive mean and what is available is below its reorder
point. -/
def Demanded (num : Numerics) (p : PlanParams) (demand : Dict String DemandStat)
    (available : String → ℚ) (key : String) : Prop :=
  ∃ stat, demand.get? key = some stat ∧ 0 < stat.dailyMean ∧
    available key < reorderPoint num p stat

/-- The product is a line of the untruncated plan, with something to order. -/
def Planned (num : Numerics) (p : PlanParams) (demand : Dict String DemandStat)
    (stock : List StockLine) (key : String) : Prop :=
  ∃ line ∈ stock, line.id = key ∧
    planItem num p demand line ∈ (purchasePlan num p stock demand 0).rows ∧
    0 < (planItem num p demand line).toOrder

def OnHand (w : Warehouse) (key : String) : Prop :=
  ∃ r ∈ w.products, stockKey r = key ∧ 0 < r.stock

theorem mem_positive_iff (w : Warehouse) {r : StockRow} :
    r ∈ w.getStock .positiveOnly ↔ r ∈ w.products ∧ 0 < r.stock := by
  rw [w.positive_perm.mem_iff, List.mem_filter, decide_eq_true_eq]

theorem find?_of_mem {rows : List StockRow} (hn : (rows.map stockKey).Nodup) {r : StockRow}
    (hr : r ∈ rows) : rows.find? (fun r' => stockKey r' = stockKey r) = some r := by
  induction rows with
  | nil => cases hr
  | cons r₀ rows ih =>
    obtain ⟨hk, hn⟩ := List.nodup_cons.mp hn
    rcases List.mem_cons.mp hr with rfl | hr'
    · simp
    · have hne : stockKey r₀ ≠ stockKey r := by
        intro h
        exact hk (h ▸ List.mem_map_of_mem hr')
      simpa [hne] using ih hn hr'

theorem availableIn_of_mem {rows : List StockRow} (hn : (rows.map stockKey).Nodup) {r : StockRow}
    (hr : r ∈ rows) :
    availableIn rows (stockKey r) = (stockLine r).available + (stockLine r).inTransit := by
  rw [availableIn, find?_of_mem hn hr]
  rfl

theorem positive_keys_nodup (w : Warehouse) :
    ((w.getStock .positiveOnly).map stockKey).Nodup :=
  (w.positive_perm.map stockKey).nodup_iff.mpr
    (w.keys_nodup.sublist (List.filter_sublist.map stockKey))

section
variable (num : Numerics) (p : PlanParams) (demand : Dict String DemandStat) (w : Warehouse)

theorem OnHand.of_planned {key : String}
    (h : Planned num p demand (stock (w.getStock .positiveOnly)) key) : OnHand w key := by
  obtain ⟨line, hline, rfl, -⟩ := h
  obtain ⟨r, hr, rfl⟩ := List.mem_map.mp hline
  obtain ⟨hmem, hpos⟩ := (mem_positive_iff w).mp hr
  exact ⟨r, hmem, rfl, hpos⟩

/-- A demanded product on hand is planned, if its availability is what its line says. -/
theorem Planned.of_onHand {available : String → ℚ}
    (hav : ∀ r ∈ w.getStock .positiveOnly,
      available (stockKey r) = (stockLine r).available + (stockLine r).inTransit)
    {key : String} (hd : Demanded num p demand available key) (hon : OnHand w key) :
    Planned num p demand (stock (w.getStock .positiveOnly)) key := by
  obtain ⟨r, hmem, rfl, hpos⟩ := hon
  obtain ⟨stat, hstat, hmean, hlt⟩ := hd
  have hr : r ∈ w.getStock .positiveOnly := (mem_positive_iff w).mpr ⟨hmem, hpos⟩
  have hline : stockLine r ∈ stock (w.getStock .positiveOnly) := List.mem_map_of_mem hr
  refine ⟨stockLine r, hline, rfl, (mem_purchasePlan_rows num p).mpr ⟨_, hline, rfl⟩, ?_⟩
  -- the line looks its forecast up under the key of its row
  have hstat' : statOf demand (stockLine r).id = stat := by
    have hget : demand.get? (stockLine r).id = some stat := hstat
    rw [statOf, hget, Option.getD_some]
  rw [hav r hr] at hlt
  simpa only [planItem, hstat', toOrder_pos_iff] using ⟨hmean, hlt⟩

theorem planned_iff_onHand {available : String → ℚ}
    (hav : ∀ r ∈ w.getStock .positiveOnly,
      available (stockKey r) = (stockLine r).available + (stockLine r).inTransit) :
    (∀ key, Demanded num p demand available key →
        Planned num p demand (stock (w.getStock .positiveOnly)) key) ↔
      ∀ key, Demanded num p demand available key → OnHand w key := by
  refine ⟨fun h key hd => OnHand.of_planned num p demand w (h key hd), ?_⟩
  intro h key hd
  exact Planned.of_onHand num p demand w hav hd (h key hd)

end

/-- The plan loses no demanded product exactly when every demanded product has stock on hand,
whether availability is read off the true stock levels or off the stock report itself. -/
theorem purchase_covers_demand_iff (num : Numerics) (w : Warehouse)
    (sales : Day → Day → List ProfitByProductRow) (history : List (Olap.DemandDay Day))
    (now : Day) (p : PlanParams) (fallbackCv : ℚ) :
    let api : Source := { getStock := w.getStock, profitByProduct := sales }
    let demand := forecasts num api history now fallbackCv
    let lines := stock (api.getStock .positiveOnly)
    purchase num api history now p fallbackCv 0 = purchasePlan num p lines demand 0 ∧
    ((∀ key, Demanded num p demand (availableIn w.products) key →
        Planned num p demand lines key) ↔
      ∀ key, Demanded num p demand (availableIn w.products) key → OnHand w key) ∧
    ((∀ key, Demanded num p demand (availableIn (w.getStock .positiveOnly)) key →
        Planned num p demand lines key) ↔
      ∀ key, Demanded num p demand (availableIn (w.getStock .positiveOnly)) key →
        OnHand w key) := by
  intro api demand lines
  refine ⟨rfl, ?_, ?_⟩
  · apply planned_iff_onHand
    intro r hr
    exact availableIn_of_mem w.keys_nodup ((mem_positive_iff w).mp hr).1
  · apply planned_iff_onHand
    intro r hr
    exact availableIn_of_mem (positive_keys_nodup w) hr

def soldOut : Warehouse where
  products := [{ href := "p/1", name := "Чай", code := "", article := "", price := 100,
                 salePrice := 200, stock := 0, reserve := 0, inTransit := 0, stockDays := 0 }]
  keys_nodup := List.nodup_singleton _
  getStock _ := []
  positive_perm := by simp

def soldOutSales : List ProfitByProductRow :=
  [{ assortment := { href := "p/1", name := "Чай", code := "" }, sellQuantity := 30,
     sellSum := 6000, sellCostSum := 3000, returnQuantity := 0, returnSum := 0, profit := 3000 }]

/-- `inv_cdf` and `sqrt` to four digits at the default service level and lead time. -/
def defaultNumerics : Numerics where
  invCdf _ := 16449 / 10000
  sqrt _ := 26458 / 10000

/-- Sold out and selling one unit a day, the product is demanded, but no plan names it. -/
theorem soldOut_lost :
    let api : Source := { getStock := soldOut.getStock, profitByProduct := fun _ _ => soldOutSales }
    let demand := forecasts defaultNumerics api [] 0 (6 / 10)
    Demanded defaultNumerics {} demand (availableIn soldOut.products) "p/1" ∧
      ¬ Planned defaultNumerics {} demand (stock (api.getStock .positiveOnly)) "p/1" := by
  intro api demand
  refine ⟨⟨{ dailyMean := 1, dailyStd := 6 / 10, source := .estimate }, ?_, by norm_num, ?_⟩, ?_⟩
  · decide +kernel
  · decide +kernel
  · rintro ⟨line, hline, -⟩
    cases hline

end Chic.Purchase
