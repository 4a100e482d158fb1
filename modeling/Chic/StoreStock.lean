import Chic.Grouping
import Chic.StockValue
import Chic.Tally

namespace Chic
open Money

structure StoreStock where
  name : String
  stock : ℚ
  reserve : ℚ
  inTransit : ℚ

structure StockByStoreRow where
  href : String
  stockByStore : List StoreStock

structure StoreStockLine where
  store : String
  positions : ℕ
  units : ℚ
  reserve : ℚ
  available : ℚ
  deriving DecidableEq

structure StoreStockTotals where
  stores : ℕ
  units : ℚ
  reserve : ℚ
  available : ℚ
  deriving DecidableEq

/-- The product is at the store, reserved there or on its way. -/
def StoreStock.present (s : StoreStock) : Bool := s.stock ≠ 0 ∨ s.reserve ≠ 0 ∨ s.inTransit ≠ 0

def StoreStockLine.new (store : String) : StoreStockLine := ⟨store, 0, 0, 0, 0⟩

def StoreStockLine.add (line : StoreStockLine) (s : StoreStock) : StoreStockLine :=
  { line with
    positions := if s.present then line.positions + 1 else line.positions
    units := line.units + s.stock
    reserve := line.reserve + s.reserve
    available := line.available + (s.stock - s.reserve) }

def StoreStockLine.rounded (line : StoreStockLine) : StoreStockLine :=
  { line with
    units := round2 line.units
    reserve := round2 line.reserve
    available := round2 line.available }

/-- Rows of products become lines of stores. The lines are sorted before they are rounded. -/
def stockByStore (rows : List StockByStoreRow) : Report StoreStockLine StoreStockTotals :=
  let agg := rows.foldl (fun agg row =>
    row.stockByStore.foldl (Dict.put (·.name) StoreStockLine.new StoreStockLine.add) agg) Dict.empty
  let lines := (sortedDesc (·.units) agg.values).map StoreStockLine.rounded
  let totals : StoreStockTotals :=
    { stores := lines.length
      units := round2 (lines.map (·.units)).sum
      reserve := round2 (lines.map (·.reserve)).sum
      available := round2 (lines.map (·.available)).sum }
  { totals, rowCount := lines.length, returned := lines.length, truncated := false, rows := lines }

namespace StoreStock

/-- What the report says of the stores, one record for each product and store. -/
def records (rows : List StockByStoreRow) : List StoreStock := rows.flatMap (·.stockByStore)

def lineOf (rs : List StoreStock) (store : String) : StoreStockLine where
  store := store
  positions := (rs.filter (·.name = store)).countP present
  units := ((rs.filter (·.name = store)).map (·.stock)).sum
  reserve := ((rs.filter (·.name = store)).map (·.reserve)).sum
  available := ((rs.filter (·.name = store)).map fun s => s.stock - s.reserve).sum

def stores (rs : List StoreStock) : List String :=
  (Dict.group (·.name) StoreStockLine.new StoreStockLine.add rs).keys

theorem foldl_add (rs : List StoreStock) (line : StoreStockLine) :
    rs.foldl StoreStockLine.add line =
      { store := line.store
        positions := line.positions + rs.countP present
        units := line.units + (rs.map (·.stock)).sum
        reserve := line.reserve + (rs.map (·.reserve)).sum
        available := line.available + (rs.map fun s => s.stock - s.reserve).sum } := by
  induction rs generalizing line with
  | nil => simp
  | cons s rs ih =>
    rw [List.foldl_cons, ih, List.countP_cons]
    simp only [StoreStockLine.add, List.map_cons, List.sum_cons, add_assoc, StoreStockLine.mk.injEq,
      true_and, and_true]
    split_ifs <;> omega

theorem values_group (rs : List StoreStock) :
    (Dict.group (·.name) StoreStockLine.new StoreStockLine.add rs).values =
      (stores rs).map (lineOf rs) := by
  rw [Dict.values_group]
  refine List.map_congr_left fun store _ => ?_
  rw [foldl_add]
  simp [StoreStockLine.new, lineOf]

theorem stockByStore_rows (rows : List StockByStoreRow) : (stockByStore rows).rows =
    (sortedDesc (·.units) ((stores (records rows)).map (lineOf (records rows)))).map
      StoreStockLine.rounded := by
  have hgroup : rows.foldl (fun agg row => row.stockByStore.foldl
      (Dict.put (·.name) StoreStockLine.new StoreStockLine.add) agg) Dict.empty =
        Dict.group (·.name) StoreStockLine.new StoreStockLine.add (records rows) := by
    rw [Dict.group, records, List.foldl_flatMap]
  rw [← values_group, ← hgroup]
  rfl

section Shares
variable {rs : List StoreStock} {rows : List StockByStoreRow} {store : String}

theorem mem_stores : store ∈ stores rs ↔ ∃ s ∈ rs, s.name = store := by
  rw [stores, Dict.mem_keys_group, List.mem_map]

theorem stores_nodup (rs : List StoreStock) : (stores rs).Nodup := Dict.keys_nodup _

theorem sum_stores {ν : Type*} [AddCommMonoid ν] (value : StoreStock → ν) :
    ((stores rs).map fun store => ((rs.filter (·.name = store)).map value).sum).sum =
      (rs.map value).sum := by
  have hshare (store : String) : ((rs.filter (·.name = store)).map value).sum =
      Dict.sumOf (rs.map fun s => (s.name, value s)) store := by
    rw [Dict.sumOf, List.filter_map, List.map_map]
    rfl
  have hall : ∀ p ∈ rs.map fun s => (s.name, value s), p.1 ∈ stores rs := by
    intro p hp
    obtain ⟨s, hs, rfl⟩ := List.mem_map.mp hp
    exact mem_stores.mpr ⟨s, hs, rfl⟩
  rw [List.map_congr_left fun store _ => hshare store, Dict.sum_sumOf (stores_nodup rs) hall,
    List.map_map]
  rfl

theorem rows_perm (rows : List StockByStoreRow) : (stockByStore rows).rows.Perm
    ((stores (records rows)).map fun store => (lineOf (records rows) store).rounded) := by
  rw [stockByStore_rows]
  have h := (perm_sortedDesc (·.units) ((stores (records rows)).map (lineOf (records rows)))).map
    StoreStockLine.rounded
  rwa [List.map_map] at h

theorem wholeCents_round2 (v : ℚ) : WholeCents (round2 v) := ⟨_, rfl⟩

theorem round2_of_wholeCents {v : ℚ} (h : WholeCents v) : round2 v = v := by
  rw [← moneyRound_eq_round2, h.moneyRound_eq]

/-- A total over rounded shares is off by half a hundredth a share at most, and not at all when the
shares are in hundredths. -/
theorem total_close {shares lines : List ℚ} (hperm : lines.Perm (shares.map round2)) :
    |round2 lines.sum - shares.sum| ≤ shares.length / 200 ∧
      ((∀ v ∈ shares, WholeCents v) → round2 lines.sum = shares.sum) := by
  have hsum : round2 lines.sum = (shares.map round2).sum := by
    rw [hperm.sum_eq]
    refine round2_of_wholeCents (wholeCents_sum fun v hv => ?_)
    obtain ⟨w, -, rfl⟩ := List.mem_map.mp hv
    exact wholeCents_round2 w
  rw [hsum]
  refine ⟨?_, fun h => ?_⟩
  · have hclose (v : ℚ) : |round2 v - id v| ≤ 1 / 200 := by
      rw [← moneyRound_eq_round2]
      exact StockValue.abs_moneyRound_sub_le v
    have hsums := abs_sum_sub_sum_le hclose shares
    rw [List.map_id, List.map_const', List.sum_replicate, nsmul_eq_mul, mul_one_div] at hsums
    exact hsums
  · rw [List.map_congr_left fun v hv => round2_of_wholeCents (h v hv), List.map_id']

theorem countP_eq_sum {α : Type*} (p : α → Bool) (l : List α) :
    l.countP p = (l.map fun a => if p a then 1 else 0).sum := by
  induction l with
  | nil => rfl
  | cons a l ih => rw [List.countP_cons, List.map_cons, List.sum_cons, ih, add_comm]

theorem sum_positions (rows : List StockByStoreRow) :
    ((stockByStore rows).rows.map (·.positions)).sum = (records rows).countP present := by
  rw [((rows_perm rows).map (·.positions)).sum_eq, List.map_map, countP_eq_sum, ← sum_stores]
  refine congrArg List.sum (List.map_congr_left fun store _ => ?_)
  exact countP_eq_sum _ _

theorem length_rows (rows : List StockByStoreRow) :
    (stockByStore rows).rows.length = (stores (records rows)).length := by
  rw [(rows_perm rows).length_eq, List.length_map]

theorem stockByStore_totals (rows : List StockByStoreRow) : (stockByStore rows).totals =
    { stores := (stockByStore rows).rows.length
      units := round2 ((stockByStore rows).rows.map (·.units)).sum
      reserve := round2 ((stockByStore rows).rows.map (·.reserve)).sum
      available := round2 ((stockByStore rows).rows.map (·.available)).sum } := rfl

theorem mem_rows {line : StoreStockLine} (h : line ∈ (stockByStore rows).rows) :
    line = (lineOf (records rows) line.store).rounded := by
  obtain ⟨store, -, rfl⟩ := List.mem_map.mp ((rows_perm rows).mem_iff.mp h)
  rfl

theorem rows_stores (rows : List StockByStoreRow) :
    ((stockByStore rows).rows.map (·.store)).Perm (stores (records rows)) := by
  have h := (rows_perm rows).map (·.store)
  rw [List.map_map] at h
  exact h.trans (.of_eq (List.map_id _))

theorem rounded_lineOf (hwhole : ∀ s ∈ rs, WholeCents s.stock ∧ WholeCents s.reserve)
    (store : String) : (lineOf rs store).rounded = lineOf rs store := by
  have hsum {value : StoreStock → ℚ} (hvalue : ∀ s ∈ rs, WholeCents (value s)) :
      round2 ((rs.filter (·.name = store)).map value).sum =
        ((rs.filter (·.name = store)).map value).sum := by
    refine round2_of_wholeCents (wholeCents_sum fun v hv => ?_)
    obtain ⟨s, hs, rfl⟩ := List.mem_map.mp hv
    exact hvalue s (List.mem_of_mem_filter hs)
  rw [StoreStockLine.rounded, lineOf]
  dsimp only
  rw [hsum fun s hs => (hwhole s hs).1, hsum fun s hs => (hwhole s hs).2,
    hsum fun s hs => (hwhole s hs).1.sub (hwhole s hs).2]

theorem sum_available (rs : List StoreStock) : (rs.map fun s => s.stock - s.reserve).sum =
    (rs.map (·.stock)).sum - (rs.map (·.reserve)).sum := by
  induction rs with
  | nil => simp
  | cons s rs ih =>
    simp only [List.map_cons, List.sum_cons, ih]
    ring

theorem column_perm (rows : List StockByStoreRow) (column : StoreStockLine → ℚ)
    (value : StoreStock → ℚ)
    (hcolumn : ∀ store, column (lineOf (records rows) store).rounded =
      round2 (((records rows).filter (·.name = store)).map value).sum) :
    ((stockByStore rows).rows.map column).Perm (((stores (records rows)).map fun store =>
      (((records rows).filter (·.name = store)).map value).sum).map round2) := by
  have h := (rows_perm rows).map column
  rw [List.map_map] at h
  rw [List.map_map]
  exact h.trans (.of_eq (List.map_congr_left fun store _ => hcolumn store))

theorem column_close (rows : List StockByStoreRow) (column : StoreStockLine → ℚ)
    (value : StoreStock → ℚ)
    (hcolumn : ∀ store, column (lineOf (records rows) store).rounded =
      round2 (((records rows).filter (·.name = store)).map value).sum) :
    |round2 ((stockByStore rows).rows.map column).sum - ((records rows).map value).sum| ≤
        (stockByStore rows).rows.length / 200 ∧
      ((∀ s ∈ records rows, WholeCents (value s)) →
        round2 ((stockByStore rows).rows.map column).sum = ((records rows).map value).sum) := by
  have hclose := total_close (column_perm rows column value hcolumn)
  rw [sum_stores value, List.length_map, ← length_rows] at hclose
  refine ⟨hclose.1, fun h => hclose.2 fun v hv => ?_⟩
  obtain ⟨store, -, rfl⟩ := List.mem_map.mp hv
  refine wholeCents_sum fun v hv => ?_
  obtain ⟨s, hs, rfl⟩ := List.mem_map.mp hv
  exact h s (List.mem_of_mem_filter hs)

theorem rows_sorted (rows : List StockByStoreRow) :
    (stockByStore rows).rows.Pairwise fun a b => b.units ≤ a.units := by
  have hsorted :=
    pairwise_sortedDesc (·.units) ((stores (records rows)).map (lineOf (records rows)))
  rw [stockByStore_rows, List.pairwise_map]
  refine hsorted.imp fun {a b} h => ?_
  have hround : round2 b.units ≤ round2 a.units := round2_mono h
  exact hround

end Shares

/-- Nothing is lost between the products and the stores. Each store that is named has one line, with
its positions, units, reserve and what is available, and the lines come by units. The totals are
those of all records up to half a hundredth a store, and exactly those when the quantities have two
decimals at most. -/
theorem stockByStore_conserves (rows : List StockByStoreRow) :
    let report := stockByStore rows
    let rs := records rows
    (report.rows.map (·.store)).Nodup ∧
      (∀ store, store ∈ report.rows.map (·.store) ↔ ∃ s ∈ rs, s.name = store) ∧
      (∀ line ∈ report.rows, line = (lineOf rs line.store).rounded) ∧
      report.rows.Pairwise (fun a b => b.units ≤ a.units) ∧
      (report.rows.map (·.positions)).sum = rs.countP present ∧
      report.totals.stores = report.rows.length ∧
      |report.totals.units - (rs.map (·.stock)).sum| ≤ report.totals.stores / 200 ∧
      |report.totals.reserve - (rs.map (·.reserve)).sum| ≤ report.totals.stores / 200 ∧
      |report.totals.available - (rs.map fun s => s.stock - s.reserve).sum| ≤
        report.totals.stores / 200 ∧
      ((∀ s ∈ rs, WholeCents s.stock ∧ WholeCents s.reserve) →
        (∀ line ∈ report.rows, line = lineOf rs line.store) ∧
          report.totals.units = (rs.map (·.stock)).sum ∧
          report.totals.reserve = (rs.map (·.reserve)).sum ∧
          report.totals.available = report.totals.units - report.totals.reserve) := by
  intro report rs
  have htotals : report.totals = _ := stockByStore_totals rows
  obtain ⟨hunits, hunits'⟩ := column_close rows (·.units) (·.stock) fun _ => rfl
  obtain ⟨hreserve, hreserve'⟩ := column_close rows (·.reserve) (·.reserve) fun _ => rfl
  obtain ⟨havailable, havailable'⟩ :=
    column_close rows (·.available) (fun s => s.stock - s.reserve) fun _ => rfl
  rw [htotals]
  dsimp only
  refine ⟨(rows_stores rows).nodup_iff.mpr (stores_nodup _),
    fun store => (rows_stores rows).mem_iff.trans mem_stores, fun line => mem_rows,
    rows_sorted rows, sum_positions rows, rfl, hunits, hreserve, havailable,
    fun hwhole => ⟨fun line hmem => ?_, ?_⟩⟩
  · exact (mem_rows hmem).trans (rounded_lineOf hwhole _)
  · have hunits := hunits' fun s hs => (hwhole s hs).1
    have hreserve := hreserve' fun s hs => (hwhole s hs).2
    refine ⟨hunits, hreserve, ?_⟩
    rw [havailable' fun s hs => (hwhole s hs).1.sub (hwhole s hs).2, sum_available, hunits,
      hreserve]

end StoreStock

end Chic
