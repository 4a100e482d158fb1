import Mathlib.Data.List.Dedup
import Mathlib.Data.List.MinMax
import Mathlib.Data.List.Sort
import Chic.DayWalk
import Chic.Dict
import Chic.ReportLines

namespace Chic.History

structure StockSnapshot where
  name : String
  code : String
  stock : ℚ
  reserve : ℚ
  inTransit : ℚ
  priceMinor : ℚ
  salePriceMinor : ℚ
  stockDays : ℤ

structure SalesSnapshot where
  name : String
  code : String
  sellQuantity : ℚ
  sellSumMinor : ℚ
  sellCostMinor : ℚ
  profitMinor : ℚ
  returnQuantity : ℚ
  returnSumMinor : ℚ

/-- history.db: both snapshot tables are keyed by date and product, `sales_capture` by date
with the number of rows written. -/
structure Store where
  stockSnapshot : Dict (Day × String) StockSnapshot
  salesSnapshot : Dict (Day × String) SalesSnapshot
  salesCapture : Dict Day ℕ

namespace Store

def empty : Store := ⟨Dict.empty, Dict.empty, Dict.empty⟩

/-- `_upsert`, one transaction whatever the number of chunks. -/
def upsert {ρ : Type*} (table : Dict (Day × String) ρ) (date : Day) (rows : List (String × ρ)) :
    Dict (Day × String) ρ :=
  rows.foldl (fun t r => t.set (date, r.1) r.2) table

def saveStock (db : Store) (date : Day) (rows : List (String × StockSnapshot)) : Store :=
  { db with stockSnapshot := upsert db.stockSnapshot date rows }

def saveSales (db : Store) (date : Day) (rows : List (String × SalesSnapshot)) : Store :=
  { db with salesSnapshot := upsert db.salesSnapshot date rows }

def markSalesCaptured (db : Store) (date : Day) (rows : ℕ) : Store :=
  { db with salesCapture := db.salesCapture.set date rows }

def salesDates (db : Store) : List Day := db.salesSnapshot.keys.map Prod.fst

def latestSalesDate (db : Store) : Option Day := db.salesDates.max?

def hasStock (db : Store) (date : Day) : Bool := db.stockSnapshot.keys.any (·.1 = date)

def salesOn (db : Store) (date : Day) : Dict String SalesSnapshot := db.salesSnapshot.slice date

def stockOn (db : Store) (date : Day) : Dict String StockSnapshot := db.stockSnapshot.slice date

end Store

/-- A slice `l[:n]`. -/
def sliceTo {α : Type*} (n : ℤ) (l : List α) : List α :=
  if 0 ≤ n then l.take n.toNat else l.take (l.length - n.natAbs)

structure Coverage (δ : Type*) where
  capturedDays : ℕ
  gapDays : ℕ
  first : Option δ
  last : Option δ
  gaps : List δ

/-- `sales_coverage` on the dates of `sales_capture`, whatever a date is stored as. -/
def salesCoverage {δ : Type*} [LinearOrder δ] (strptime : δ → Day) (strftime : Day → δ)
    (captured : List δ) (maxGaps : ℤ) : Coverage δ :=
  let dates := captured.insertionSort (· ≤ ·)
  match dates.head?, dates.getLast? with
  | some first, some last =>
    let gaps := walkDays (fun day => if strftime day ∈ dates then [] else [strftime day])
      (strptime first) (strptime last)
    { capturedDays := dates.dedup.length
      gapDays := gaps.length
      first := some first
      last := some last
      gaps := sliceTo maxGaps gaps }
  | _, _ => { capturedDays := 0, gapDays := 0, first := none, last := none, gaps := [] }

def Store.salesCoverage (db : Store) (maxGaps : ℤ) : Coverage Day :=
  History.salesCoverage id id db.salesCapture.keys maxGaps

section
variable {ρ : Type*} {table : Dict (Day × String) ρ} {date d : Day} {rows : List (String × ρ)}

theorem upsert_eq_foldl_set (table : Dict (Day × String) ρ) (date : Day) (rows : List (String × ρ)) :
    Store.upsert table date rows =
      (rows.map fun r => ((date, r.1), r.2)).foldl (fun t r => t.set r.1 r.2) table := by
  rw [List.foldl_map]
  rfl

theorem mem_upsert_dates :
    d ∈ (Store.upsert table date rows).keys.map Prod.fst ↔
      d ∈ table.keys.map Prod.fst ∨ (d = date ∧ rows ≠ []) := by
  simp only [upsert_eq_foldl_set, List.mem_map, Dict.mem_keys_foldl_set]
  refine ⟨?_, ?_⟩
  · intro h
    obtain ⟨k, hk | ⟨_, ⟨r, hr, rfl⟩, rfl⟩, rfl⟩ := h
    · exact .inl ⟨k, hk, rfl⟩
    · exact .inr ⟨rfl, List.ne_nil_of_mem hr⟩
  · intro h
    rcases h with ⟨k, hk, rfl⟩ | ⟨rfl, hne⟩
    · exact ⟨k, .inl hk, rfl⟩
    · obtain ⟨r, hr⟩ := List.exists_mem_of_ne_nil rows hne
      exact ⟨_, .inr ⟨_, ⟨r, hr, rfl⟩, rfl⟩, rfl⟩

theorem slice_upsert_self (table : Dict (Day × String) ρ) (date : Day) (rows : List (String × ρ)) :
    (Store.upsert table date rows).slice date =
      rows.foldl (fun byKey r => byKey.set r.1 r.2) (table.slice date) := by
  unfold Store.upsert
  induction rows generalizing table with
  | nil => rfl
  | cons r rows ih =>
    rw [List.foldl_cons, List.foldl_cons, ih, Dict.slice_set_self]

theorem slice_upsert_of_ne (table : Dict (Day × String) ρ) (rows : List (String × ρ))
    (h : d ≠ date) : (Store.upsert table date rows).slice d = table.slice d := by
  unfold Store.upsert
  induction rows generalizing table with
  | nil => rfl
  | cons r rows ih =>
    rw [List.foldl_cons, ih, Dict.slice_set_of_ne _ _ _ h]

theorem entries_slice_upsert (hnodup : (rows.map Prod.fst).Nodup)
    (hfresh : (table.slice date).entries = []) :
    ((Store.upsert table date rows).slice date).entries = rows := by
  rw [slice_upsert_self, Dict.entries_foldl_set hnodup, hfresh, List.nil_append]
  intro k _ hk
  rw [Dict.keys, hfresh] at hk
  cases hk

/-- What holds of the rows of every day that has some still does after a day that has none gets
its own. -/
theorem forall_slice_upsert {P : Day → List (String × ρ) → Prop}
    (hnodup : (rows.map Prod.fst).Nodup) (hfresh : (table.slice date).entries = [])
    (hrows : P date rows) (hP : ∀ d, (table.slice d).entries ≠ [] → P d (table.slice d).entries) :
    ∀ d, ((Store.upsert table date rows).slice d).entries ≠ [] →
      P d ((Store.upsert table date rows).slice d).entries := by
  intro d hd
  by_cases h : d = date
  · subst h
    rw [entries_slice_upsert hnodup hfresh]
    exact hrows
  · rw [slice_upsert_of_ne _ _ h] at hd ⊢
    exact hP d hd

variable {db : Store} {n : ℕ}

theorem salesOn_eq_nil_iff : (db.salesOn d).entries = [] ↔ d ∉ db.salesDates :=
  Dict.slice_eq_nil_iff

theorem hasStock_iff : db.hasStock d = true ↔ d ∈ db.stockSnapshot.keys.map Prod.fst := by
  rw [Store.hasStock, List.any_eq_true, List.mem_map]
  simp only [decide_eq_true_eq]

theorem stockOn_eq_nil_iff : (db.stockOn d).entries = [] ↔ db.hasStock d = false := by
  rw [Store.stockOn, Dict.slice_eq_nil_iff, ← hasStock_iff, Bool.not_eq_true]

theorem mem_salesDates_saveSales {rows : List (String × SalesSnapshot)} :
    d ∈ (db.saveSales date rows).salesDates ↔ d ∈ db.salesDates ∨ (d = date ∧ rows ≠ []) :=
  mem_upsert_dates

theorem mem_captured_mark :
    d ∈ (db.markSalesCaptured date n).salesCapture.keys ↔ d = date ∨ d ∈ db.salesCapture.keys :=
  Dict.mem_keys_set

theorem le_latestSalesDate {last : Day} (h : db.latestSalesDate = some last)
    (hd : d ∈ db.salesDates) : d ≤ last :=
  (List.max?_eq_some_iff.mp h).2 d hd

theorem latestSalesDate_eq_none (h : db.latestSalesDate = none) : d ∉ db.salesDates := by
  rw [List.max?_eq_none_iff.mp h]
  exact List.not_mem_nil

theorem mem_of_mem_sliceTo {α : Type*} {m : ℤ} {l : List α} {x : α} (h : x ∈ sliceTo m l) :
    x ∈ l := by
  unfold sliceTo at h
  split_ifs at h <;> exact List.mem_of_mem_take h

theorem not_mem_of_gap {δ : Type*} [LinearOrder δ] {strptime : δ → Day} {strftime : Day → δ}
    {captured : List δ} {maxGaps : ℤ} {x : δ}
    (h : x ∈ (salesCoverage strptime strftime captured maxGaps).gaps) : x ∉ captured := by
  unfold salesCoverage at h
  dsimp only at h
  split at h
  · have h := mem_of_mem_sliceTo h
    rw [walkDays_eq] at h
    obtain ⟨day, -, hx⟩ := List.mem_flatMap.mp h
    split_ifs at hx with hday
    · cases hx
    · rw [List.mem_singleton.mp hx]
      simpa using hday
  · cases h

end

end Chic.History
