import Chic.DemandSource
import Chic.Windowing
import Chic.WriteOnce

namespace Chic.Snapshot
open History Olap Purchase Trace

def keyOf (r : ProfitByProductRow) : String := productKey r.assortment.href r.assortment.name

/-- The row of a product in an answer, which is the last one of its rows. -/
def rowOf (answer : List ProfitByProductRow) (href : String) : Option ProfitByProductRow :=
  (answer.filter (keyOf · = href)).getLast?

def soldIn (answer : List ProfitByProductRow) (href : String) : ℚ :=
  ((rowOf answer href).map (·.sellQuantity)).getD 0

def answersFrom (since : Option Day) (answers : Day → List ProfitByProductRow) (d : Day) :
    List ProfitByProductRow :=
  if since.all (· ≤ d) then answers d else []

/-- The statistics of a product by the answers of the days: its series goes over the days with any
sales from the first one on which the product is there. -/
structure StatsOf (answers : Day → List ProfitByProductRow) (sqrt : ℚ → ℚ) (first last : Day)
    (dates : Finset Day) (s : DemandStats) : Prop where
  isFirst : IsLeast {d | (rowOf (answers d) s.productHref).isSome} first
  isLast : IsGreatest {d | (rowOf (answers d) s.productHref).isSome} last
  named : ∃ r, rowOf (answers last) s.productHref = some r ∧ s.name = r.assortment.name ∧
    s.code = r.assortment.code
  mem_dates : ∀ d, d ∈ dates ↔ first ≤ d ∧ answers d ≠ []
  days : s.days = dates.card
  mean : s.meanDemand * s.days = ∑ d ∈ dates, soldIn (answers d) s.productHref
  std : s.stdDemand = sqrt (seriesVariance dates fun d => soldIn (answers d) s.productHref)

section Answers
variable {answer : List ProfitByProductRow} {href : String} {r : ProfitByProductRow}

theorem rowOf_spec (h : rowOf answer href = some r) : r ∈ answer ∧ keyOf r = href := by
  have hmem := List.mem_filter.mp (List.mem_of_getLast? h)
  exact ⟨hmem.1, of_decide_eq_true hmem.2⟩

theorem isSome_rowOf_iff : (rowOf answer href).isSome ↔ ∃ r ∈ answer, keyOf r = href := by
  rw [Option.isSome_iff_ne_none, ne_eq, rowOf, List.getLast?_eq_none_iff, List.filter_eq_nil_iff]
  simp

end Answers

section Demand
variable {db : History.Store} {answers : Day → List ProfitByProductRow} {since : Option Day}
  {d : Day} {href : String} {row : DemandDay Day}

/-- The sales of each day are stored as the last-wins deduplication of the answer of that day. -/
def StoresAnswers (db : History.Store) (answers : Day → List ProfitByProductRow) : Prop :=
  ∀ d, (db.salesOn d).entries = dedupe ((answers d).map salesRow)

def demandRow (d : Day) (r : ProfitByProductRow) : DemandDay Day where
  snapshotDate := d
  productHref := keyOf r
  name := r.assortment.name
  code := r.assortment.code
  sellQuantity := r.sellQuantity

theorem get?_salesSnapshot (h : StoresAnswers db answers) (d : Day) (href : String) :
    db.salesSnapshot.get? (d, href) =
      (rowOf (answers d) href).map fun r => (salesRow r).2 := by
  have hday : db.salesOn d = ((answers d).map salesRow).foldl
      (fun byKey r => byKey.set r.1 r.2) Dict.empty := Dict.eq_of_entries (h d)
  rw [← Dict.get?_slice]
  change (db.salesOn d).get? href = _
  rw [hday, Dict.get?_foldl_set, Dict.get?_empty, Option.or_none, List.filter_map,
    List.getLast?_map, Option.map_map]
  rfl

theorem mem_dailyDemand (h : StoresAnswers db answers) : row ∈ db.dailyDemand since ↔
    ∃ r, rowOf (answersFrom since answers row.snapshotDate) row.productHref = some r ∧
      row = demandRow row.snapshotDate r := by
  rw [History.Store.dailyDemand, List.mem_map]
  refine ⟨?_, ?_⟩
  · rintro ⟨⟨⟨d, href⟩, v⟩, he, rfl⟩
    rw [List.mem_insertionSort, List.mem_filter, Dict.mem_entries_iff, get?_salesSnapshot h,
      Option.map_eq_some_iff] at he
    obtain ⟨⟨r, hr, rfl⟩, hsince⟩ := he
    refine ⟨r, ?_, ?_⟩
    · rw [answersFrom, if_pos hsince]
      exact hr
    · rw [demandRow, (rowOf_spec hr).2]
      rfl
  · rintro ⟨r, hr, hrow⟩
    have hsince : since.all (· ≤ row.snapshotDate) := by
      by_contra hsince
      rw [answersFrom, if_neg hsince] at hr
      cases hr
    rw [answersFrom, if_pos hsince] at hr
    refine ⟨((row.snapshotDate, row.productHref), (salesRow r).2), ?_, ?_⟩
    · rw [List.mem_insertionSort, List.mem_filter, Dict.mem_entries_iff, get?_salesSnapshot h, hr]
      exact ⟨rfl, hsince⟩
    · rw [hrow, demandRow, (rowOf_spec hr).2]
      rfl

theorem demandRow_mem (h : StoresAnswers db answers) {r : ProfitByProductRow}
    (hr : rowOf (answersFrom since answers d) href = some r) :
    demandRow d r ∈ db.dailyDemand since := by
  refine (mem_dailyDemand h).mpr ⟨r, ?_, rfl⟩
  have hkey : (demandRow d r).productHref = href := (rowOf_spec hr).2
  rw [hkey]
  exact hr

theorem exists_row_iff (h : StoresAnswers db answers) :
    (∃ row ∈ db.dailyDemand since, row.productHref = href ∧ row.snapshotDate = d) ↔
      (rowOf (answersFrom since answers d) href).isSome := by
  refine ⟨?_, fun hr => ?_⟩
  · rintro ⟨row, hrow, rfl, rfl⟩
    obtain ⟨r, hr, -⟩ := (mem_dailyDemand h).mp hrow
    rw [hr]
    rfl
  · obtain ⟨r, hr⟩ := Option.isSome_iff_exists.mp hr
    exact ⟨demandRow d r, demandRow_mem h hr, (rowOf_spec hr).2, rfl⟩

theorem mem_saleDates (h : StoresAnswers db answers) :
    d ∈ saleDates (db.dailyDemand since) ↔ answersFrom since answers d ≠ [] := by
  rw [saleDates, List.mem_toFinset, List.mem_map]
  refine ⟨?_, fun hne => ?_⟩
  · rintro ⟨row, hrow, rfl⟩
    obtain ⟨r, hr, -⟩ := (mem_dailyDemand h).mp hrow
    exact List.ne_nil_of_mem (rowOf_spec hr).1
  · obtain ⟨r, hr⟩ := List.exists_mem_of_ne_nil _ hne
    obtain ⟨row, hrow, -, hdate⟩ := (exists_row_iff h).mpr (isSome_rowOf_iff.mpr ⟨r, hr, rfl⟩)
    exact ⟨row, hrow, hdate⟩

theorem quantityOn_eq (h : StoresAnswers db answers) (href : String) (d : Day) :
    quantityOn (db.dailyDemand since) href d = soldIn (answersFrom since answers d) href := by
  have hle := length_rows_le_one (uniqueRows_dailyDemand db since) href d
  rw [quantityOn, soldIn]
  cases hr : rowOf (answersFrom since answers d) href with
  | none =>
    have hnil : (db.dailyDemand since).filter
        (fun r => r.productHref = href ∧ r.snapshotDate = d) = [] := by
      refine List.filter_eq_nil_iff.mpr fun row hrow hmatch => ?_
      have hsome := (exists_row_iff h).mp ⟨row, hrow, of_decide_eq_true hmatch⟩
      rw [hr] at hsome
      cases hsome
    rw [hnil]
    rfl
  | some r =>
    have hmem : demandRow d r ∈ (db.dailyDemand since).filter
        (fun r => r.productHref = href ∧ r.snapshotDate = d) :=
      List.mem_filter.mpr ⟨demandRow_mem h hr, decide_eq_true ⟨(rowOf_spec hr).2, rfl⟩⟩
    obtain ⟨row, hrow⟩ := List.length_eq_one_iff.mp (hle.antisymm (List.length_pos_of_mem hmem))
    rw [hrow, List.mem_singleton] at hmem
    rw [hrow, ← hmem]
    exact add_zero _

/-- The statistics of the stored days are those of their answers. -/
theorem statsOf_describes (h : StoresAnswers db answers) {sqrt : ℚ → ℚ}
    {first last : DemandDay Day} {s : DemandStats}
    (hs : Describes (db.dailyDemand since) sqrt first last s) :
    StatsOf (answersFrom since answers) sqrt first.snapshotDate last.snapshotDate
      (spineDates (db.dailyDemand since) first.snapshotDate) s := by
  have hquantity (d : Day) : quantityOn (db.dailyDemand since) s.productHref d =
      soldIn (answersFrom since answers d) s.productHref := quantityOn_eq h _ d
  -- a stored row of a product is its row in the answer of the day
  have hthere {row : DemandDay Day} (hmem : row ∈ db.dailyDemand since)
      (hproduct : row.productHref = s.productHref) :
      ∃ r, rowOf (answersFrom since answers row.snapshotDate) s.productHref = some r ∧
        row = demandRow row.snapshotDate r := by
    rw [← hproduct]
    exact (mem_dailyDemand h).mp hmem
  refine
    { isFirst := ⟨?_, fun d hd => ?_⟩
      isLast := ⟨?_, fun d hd => ?_⟩
      named := ?_
      mem_dates := fun d => ?_
      days := hs.days
      mean := ?_
      std := ?_ }
  · obtain ⟨r, hr, -⟩ := hthere hs.isFirst.mem hs.isFirst.product
    exact Option.isSome_of_eq_some hr
  · obtain ⟨row, hrow, hproduct, rfl⟩ := (exists_row_iff h).mpr hd
    exact hs.isFirst.le row hrow hproduct
  · obtain ⟨r, hr, -⟩ := hthere hs.isLatest.mem hs.isLatest.product
    exact Option.isSome_of_eq_some hr
  · obtain ⟨row, hrow, hproduct, rfl⟩ := (exists_row_iff h).mpr hd
    exact hs.isLatest.le row hrow hproduct
  · obtain ⟨r, hr, hrow⟩ := hthere hs.isLatest.mem hs.isLatest.product
    refine ⟨r, hr, ?_, ?_⟩
    · rw [hs.name, hrow]
      rfl
    · rw [hs.code, hrow]
      rfl
  · rw [spineDates, Finset.mem_filter, mem_saleDates h, and_comm]
  · rw [hs.mean, ← sum_quantityOn hs.isFirst]
    exact Finset.sum_congr rfl fun d _ => hquantity d
  · rw [hs.variance, seriesVariance_congr fun d _ => hquantity d]

end Demand

/-- What a run of captures has stored is the answers that it was given, one for each day. -/
theorem exists_storesAnswers {es : List Event} {w : World}
    (hrun : run step World.init es = some w) : ∃ answers : Day → List ProfitByProductRow,
      (∀ d, answers d ≠ [] → SalesAnswered World.init es d (answers d)) ∧
        StoresAnswers w.history answers := by
  have hday (d : Day) : ∃ answer : List ProfitByProductRow,
      (answer ≠ [] → SalesAnswered World.init es d answer) ∧
        (w.history.salesOn d).entries = dedupe (answer.map salesRow) := by
    by_cases hstored : (w.history.salesOn d).entries = []
    · exact ⟨[], fun hne => absurd rfl hne, hstored⟩
    · obtain ⟨rows, hrows, heq⟩ := (sourced_of_run hrun).2.sales d hstored
      exact ⟨rows, fun _ => hrows, heq⟩
  choose answers hanswers hstored using hday
  exact ⟨answers, hanswers, hstored⟩

/-- The plan forecasts a product with enough days by its own statistics. -/
theorem statOf_of_enough (num : Numerics) (api : Source) (history : List (DemandDay Day))
    (now : Day) (fallbackCv : ℚ) {s : DemandStats} (hs : s ∈ demandStats num.sqrt history)
    (henough : defaultMinDays ≤ s.days) :
    statOf (forecasts num api history now fallbackCv) s.productHref =
      { dailyMean := s.meanDemand, dailyStd := s.stdDemand, source := .history } := by
  have hget : (forecasts num api history now fallbackCv).get? s.productHref = _ :=
    get?_foldl_fallbackStep (max fallbackCv 0) (fallbackLines api now)
      (historyDemand num.sqrt history) s.productHref
  rw [get?_historyDemand_of_mem hs henough, Option.some_or] at hget
  rw [statOf, hget, Option.getD_some]

end Chic.Snapshot
