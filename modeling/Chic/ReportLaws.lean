import Chic.Analytics
import Chic.Purchase
import Chic.Xyz

namespace Chic
open Money

section Laws
variable {ι ρ τ κ : Type*} [LinearOrder κ]

/-- The limit of a report cuts its rows and nothing else, and the order of the input makes no
difference to the totals. At limit 0 all rows are there. -/
structure TruncatesRows (build : List ι → ℤ → Report ρ τ) : Prop where
  totals_eq : ∀ rows limit limit', (build rows limit).totals = (build rows limit').totals
  rowCount_eq : ∀ rows limit, (build rows limit).rowCount = (build rows 0).rows.length
  rows_eq : ∀ rows limit, (build rows limit).rows =
    if limit ≤ 0 then (build rows 0).rows else (build rows 0).rows.take limit.toNat
  returned_eq : ∀ rows limit, (build rows limit).returned = (build rows limit).rows.length
  truncated_iff : ∀ rows limit,
    (build rows limit).truncated = true ↔ (build rows limit).returned < (build rows limit).rowCount
  totals_perm : ∀ rows rows' limit, rows.Perm rows' →
    (build rows limit).totals = (build rows' limit).totals

/-- Moreover the money totals, each paired with its column, are the exact sums over all rows. -/
structure ReportLaw (build : List ι → ℤ → Report ρ τ) (money : List ((τ → ℚ) × (ρ → ℚ))) :
    Prop extends TruncatesRows build where
  sums : ∀ m ∈ money, ∀ rows limit,
    m.1 (build rows limit).totals = ((build rows 0).rows.map m.2).sum

/-- No hidden row ranks above a shown one. -/
def RanksBy (build : List ι → ℤ → Report ρ τ) (key : ρ → κ) : Prop :=
  ∀ rows limit, ∀ shown ∈ (build rows limit).rows,
    ∀ hidden ∈ (build rows 0).rows.drop (build rows limit).returned, key hidden ≤ key shown

section Capped
variable (totals : τ) (lines : List ρ) (limit : ℤ)

@[simp] theorem capped_totals : (Report.capped totals lines limit).totals = totals := rfl

theorem capped_rows :
    (Report.capped totals lines limit).rows =
      if limit ≤ 0 then lines else lines.take limit.toNat := by
  by_cases hpos : limit ≤ 0
  · rw [if_pos hpos, Report.capped, truncate_of_nonpos lines hpos]
  · dsimp only [Report.capped, truncate]
    rw [if_neg hpos]
    split_ifs with hcut
    · rfl
    · show lines = _
      rw [List.take_of_length_le (by omega)]

theorem capped_rows_isPrefix : (Report.capped totals lines limit).rows <+: lines := by
  rw [capped_rows]
  split_ifs
  · exact List.prefix_rfl
  · exact List.take_prefix _ _

@[simp] theorem capped_rows_zero : (Report.capped totals lines 0).rows = lines := by
  rw [capped_rows, if_pos le_rfl]

theorem capped_split :
    (Report.capped totals lines limit).rows ++
      lines.drop (Report.capped totals lines limit).rows.length = lines := by
  have hprefix := capped_rows_isPrefix totals lines limit
  generalize (Report.capped totals lines limit).rows = shown at hprefix ⊢
  obtain ⟨hidden, rfl⟩ := hprefix
  rw [List.drop_left]

theorem capped_rowCount : (Report.capped totals lines limit).rowCount = lines.length := by
  dsimp only [Report.capped, truncate]
  split_ifs <;> rfl

theorem capped_truncated_iff :
    (Report.capped totals lines limit).truncated = true ↔
      (Report.capped totals lines limit).returned < (Report.capped totals lines limit).rowCount := by
  dsimp only [Report.capped, truncate]
  split_ifs with hcut
  · refine iff_of_true rfl ?_
    rw [List.length_take]
    omega
  · exact iff_of_false (by simp) (lt_irrefl _)

end Capped

/-- A report that ends as all of them do, with totals that do not depend on the order. -/
theorem truncatesRows_capped {totals : List ι → τ} {lines : List ι → List ρ}
    (hperm : ∀ rows rows', rows.Perm rows' → totals rows = totals rows') :
    TruncatesRows fun rows limit => Report.capped (totals rows) (lines rows) limit where
  totals_eq _ _ _ := rfl
  rowCount_eq rows limit := by rw [capped_rowCount, capped_rows_zero]
  rows_eq rows limit := by rw [capped_rows, capped_rows_zero]
  returned_eq _ _ := rfl
  truncated_iff rows limit := capped_truncated_iff _ _ _
  totals_perm rows rows' _ h := hperm rows rows' h

theorem ranksBy_capped {totals : List ι → τ} {lines : List ι → List ρ} {key : ρ → κ}
    (hsorted : ∀ rows, (lines rows).Pairwise fun a b => key b ≤ key a) :
    RanksBy (fun rows limit => Report.capped (totals rows) (lines rows) limit) key := by
  intro rows limit shown hshown hidden hhidden
  have hreturned : (Report.capped (totals rows) (lines rows) limit).returned =
      (Report.capped (totals rows) (lines rows) limit).rows.length := rfl
  have hpair := hsorted rows
  dsimp only at hshown hhidden
  rw [capped_rows_zero, hreturned] at hhidden
  rw [← capped_split (totals rows) (lines rows) limit, List.pairwise_append] at hpair
  exact hpair.2.2 shown hshown hidden hhidden

/-- A total of whole cents is not changed by its rounding. -/
theorem moneyRound_sum {column : ρ → ℚ} {lines : List ρ}
    (h : ∀ line ∈ lines, WholeCents (column line)) :
    moneyRound (lines.map column).sum = (lines.map column).sum :=
  (wholeCents_sum (List.forall_mem_map.mpr h)).moneyRound_eq

theorem reportLaw_capped {totals : List ι → τ} {lines : List ι → List ρ}
    {money : List ((τ → ℚ) × (ρ → ℚ))}
    (hperm : ∀ rows rows', rows.Perm rows' → totals rows = totals rows')
    (hround : ∀ m ∈ money, ∀ rows, m.1 (totals rows) = moneyRound ((lines rows).map m.2).sum)
    (hcents : ∀ rows, ∀ line ∈ lines rows, ∀ m ∈ money, WholeCents (m.2 line)) :
    ReportLaw (fun rows limit => Report.capped (totals rows) (lines rows) limit) money where
  toTruncatesRows := truncatesRows_capped hperm
  sums m hm rows limit := by
    rw [capped_totals, capped_rows_zero, hround m hm rows]
    exact moneyRound_sum fun line hline => hcents rows line hline m hm

/-- What holds of every line that a row is mapped to holds of the sorted lines. -/
theorem forall_mem_sortedDesc_map {P : ρ → Prop} {line : ι → ρ} {key : ρ → κ} {rows : List ι}
    (h : ∀ r, P (line r)) : ∀ x ∈ sortedDesc key (rows.map line), P x := by
  intro x hx
  obtain ⟨r, -, rfl⟩ := List.mem_map.mp ((perm_sortedDesc key _).mem_iff.mp hx)
  exact h r

theorem sum_map_perm {lines lines' : List ρ} (h : lines.Perm lines') (column : ρ → ℚ) :
    (lines.map column).sum = (lines'.map column).sum :=
  (h.map column).sum_eq

end Laws

theorem profitProductReport_law :
    ReportLaw profitProductReport
      [(ProfitTotals.revenue, ProfitProductLine.revenue), (ProfitTotals.cost, ProfitProductLine.cost),
        (ProfitTotals.profit, ProfitProductLine.profit),
        (ProfitTotals.returnSum, ProfitProductLine.returnSum)] := by
  refine reportLaw_capped ?_ ?_ ?_
  · intro rows rows' h
    have hlines : (sortedDesc (·.revenue) (profitByProduct rows)).Perm
        (sortedDesc (·.revenue) (profitByProduct rows')) := sortedDesc_perm _ (h.map _)
    simp only [sum_map_perm hlines]
  · simp only [List.forall_mem_cons, List.not_mem_nil, false_implies, implies_true, and_self]
  · refine fun rows => forall_mem_sortedDesc_map fun r => ?_
    simp only [List.forall_mem_cons, List.not_mem_nil, false_implies, implies_true,
      wholeCents_minorToMajor, and_self]

theorem profitEntityReport_law :
    ReportLaw profitEntityReport
      [(ProfitTotals.revenue, ProfitEntityLine.revenue), (ProfitTotals.cost, ProfitEntityLine.cost),
        (ProfitTotals.profit, ProfitEntityLine.profit)] := by
  refine reportLaw_capped ?_ ?_ ?_
  · intro rows rows' h
    have hlines : (sortedDesc (·.revenue) (profitByEntity rows)).Perm
        (sortedDesc (·.revenue) (profitByEntity rows')) := sortedDesc_perm _ (h.map _)
    have hcount := (hlines.map (·.salesCount)).sum_eq
    simp only [sum_map_perm hlines, hcount]
  · simp only [List.forall_mem_cons, List.not_mem_nil, false_implies, implies_true, and_self]
  · refine fun rows => forall_mem_sortedDesc_map fun r => ?_
    simp only [List.forall_mem_cons, List.not_mem_nil, false_implies, implies_true,
      wholeCents_minorToMajor, and_self]

theorem turnoverReport_law (periodDays : ℚ) :
    ReportLaw (fun rows limit => turnoverReport rows periodDays limit)
      [(TurnoverTotals.endValue, TurnoverLine.endValue)] := by
  refine reportLaw_capped ?_ ?_ ?_
  · intro rows rows' h
    have hlines : (sortedDesc (·.endValue) (turnover rows periodDays)).Perm
        (sortedDesc (·.endValue) (turnover rows' periodDays)) := sortedDesc_perm _ (h.map _)
    simp only [sum_map_perm hlines]
  · simp only [List.forall_mem_cons, List.not_mem_nil, false_implies, implies_true, and_self]
  · refine fun rows => forall_mem_sortedDesc_map fun r => ?_
    simp only [List.forall_mem_cons, List.not_mem_nil, false_implies, implies_true,
      wholeCents_minorToMajor, and_self]

theorem stockReport_law :
    ReportLaw stockReport [(StockTotals.stockValue, StockLine.stockValue)] := by
  refine reportLaw_capped ?_ ?_ ?_
  · intro rows rows' h
    have hlines : (sortedDesc (·.stockValue) (stock rows)).Perm
        (sortedDesc (·.stockValue) (stock rows')) := sortedDesc_perm _ (h.map _)
    simp only [sum_map_perm hlines]
  · simp only [List.forall_mem_cons, List.not_mem_nil, false_implies, implies_true, and_self]
  · refine fun rows => forall_mem_sortedDesc_map fun r => ?_
    simp only [List.forall_mem_cons, List.not_mem_nil, false_implies, implies_true, stockLine,
      wholeCents_moneyRound, and_self]

theorem counterpartyReport_law :
    ReportLaw counterpartyReport
      [(CounterpartyTotals.revenue, CounterpartyMetric.revenue),
        (CounterpartyTotals.profit, CounterpartyMetric.profit),
        (CounterpartyTotals.returnsSum, CounterpartyMetric.returnsSum),
        (CounterpartyTotals.balance, CounterpartyMetric.balance)] := by
  refine reportLaw_capped ?_ ?_ ?_
  · intro rows rows' h
    have hlines : (sortedDesc (·.revenue) (counterpartyMetrics rows)).Perm
        (sortedDesc (·.revenue) (counterpartyMetrics rows')) := sortedDesc_perm _ (h.map _)
    simp only [sum_map_perm hlines]
  · simp only [List.forall_mem_cons, List.not_mem_nil, false_implies, implies_true, and_self]
  · refine fun rows => forall_mem_sortedDesc_map fun r => ?_
    simp only [List.forall_mem_cons, List.not_mem_nil, false_implies, implies_true,
      wholeCents_minorToMajor, and_self]

theorem documentReport_law :
    ReportLaw documentReport
      [(DocumentTotals.sum, DocumentSummary.sum), (DocumentTotals.paid, DocumentSummary.paid)] := by
  refine reportLaw_capped ?_ ?_ ?_
  · intro docs docs' h
    simp only [sum_map_perm (h.map documentSummaryOf)]
  · simp only [List.forall_mem_cons, List.not_mem_nil, false_implies, implies_true, and_self]
  · refine fun docs => List.forall_mem_map.mpr fun d _ => ?_
    simp only [List.forall_mem_cons, List.not_mem_nil, false_implies, implies_true,
      documentSummaryOf, wholeCents_minorToMajor, and_self]

theorem segmentReport_law : ReportLaw segmentReport [] := by
  refine reportLaw_capped ?_ ?_ ?_
  · intro segs segs' h
    have hcount := fun label : SegmentLabel => (h.flatMap_right (·.segments)).count_eq label
    simp only [hcount, h.length_eq]
  · exact List.forall_mem_nil _
  · exact fun _ _ _ => List.forall_mem_nil _

theorem deadStockReport_truncatesRows : TruncatesRows deadStockReport := by
  refine truncatesRows_capped ?_
  intro lines lines' h
  simp only [sum_map_perm h, h.length_eq]

theorem deadStockReport_law (outcomeByRef : Option (Dict String ℚ)) (thresholdDays : ℤ) :
    ReportLaw (fun rows limit => deadStockReport (deadStock rows outcomeByRef thresholdDays) limit)
      [(DeadStockTotals.stockValue, fun line => line.stockValue)] := by
  refine reportLaw_capped ?_ ?_ ?_
  · intro rows rows' h
    have hlines : (deadStock rows outcomeByRef thresholdDays).Perm
        (deadStock rows' outcomeByRef thresholdDays) := sortedDesc_perm _ (h.filterMap _)
    simp only [sum_map_perm hlines, hlines.length_eq]
  · simp only [List.forall_mem_cons, List.not_mem_nil, false_implies, implies_true, and_self]
  · intro rows line hline
    obtain ⟨r, -, hr⟩ := List.mem_filterMap.mp ((perm_sortedDesc _ _).mem_iff.mp hline)
    have hvalue : line.stockValue = (stockLine r).stockValue := by
      split_ifs at hr
      split at hr
      · split_ifs at hr
        cases hr
        rfl
      · cases hr
        rfl
    simp only [List.forall_mem_cons, List.not_mem_nil, false_implies, implies_true, hvalue,
      stockLine, wholeCents_moneyRound, and_self]

section Purchase
variable (num : Purchase.Numerics) (p : Purchase.PlanParams)
  (demand : Dict String Purchase.DemandStat)

def planItems (stock : List StockLine) : List Purchase.PurchasePlanItem :=
  (stock.map (Purchase.planItem num p demand)).mergeSort fun x y => y.toOrder ≤ x.toOrder

theorem planItems_perm {stock stock' : List StockLine} (h : stock.Perm stock') :
    (planItems num p demand stock).Perm (planItems num p demand stock') :=
  (List.mergeSort_perm _ _).trans ((h.map _).trans (List.mergeSort_perm _ _).symm)

theorem purchasePlan_eq_capped (stock : List StockLine) (limit : ℤ) :
    Purchase.purchasePlan num p stock demand limit =
      Report.capped
        { count := (planItems num p demand stock).length
          needOrder := (planItems num p demand stock).countP (0 < ·.toOrder)
          orderValue := moneyRound ((planItems num p demand stock).map (·.orderValue)).sum }
        (planItems num p demand stock) limit := rfl

theorem purchasePlan_law :
    ReportLaw (fun stock limit => Purchase.purchasePlan num p stock demand limit)
      [(Purchase.PurchasePlanTotals.orderValue, Purchase.PurchasePlanItem.orderValue)] := by
  simp only [purchasePlan_eq_capped]
  refine reportLaw_capped ?_ ?_ ?_
  · intro stock stock' h
    have hitems := planItems_perm num p demand h
    simp only [sum_map_perm hitems, hitems.length_eq, hitems.countP_eq]
  · simp only [List.forall_mem_cons, List.not_mem_nil, false_implies, implies_true, and_self]
  · intro stock item hitem
    obtain ⟨line, -, rfl⟩ := List.mem_map.mp ((List.mergeSort_perm _ _).mem_iff.mp hitem)
    simp only [List.forall_mem_cons, List.not_mem_nil, false_implies, implies_true,
      Purchase.planItem, wholeCents_moneyRound, and_self]

theorem purchasePlan_ranks :
    RanksBy (fun stock limit => Purchase.purchasePlan num p stock demand limit)
      Purchase.PurchasePlanItem.toOrder := by
  simp only [purchasePlan_eq_capped]
  refine ranksBy_capped fun stock => ?_
  have hsorted := @List.pairwise_mergeSort _
    (fun x y : Purchase.PurchasePlanItem => decide (y.toOrder ≤ x.toOrder))
    (fun a b c hab hbc => decide_eq_true ((of_decide_eq_true hbc).trans (of_decide_eq_true hab)))
    (fun a b => by simpa using le_total b.toOrder a.toOrder)
    (stock.map (Purchase.planItem num p demand))
  exact hsorted.imp of_decide_eq_true

end Purchase

theorem xyzAnalysis_law (p : Xyz.XyzParams) (coverage : Option (History.Coverage Day)) :
    ReportLaw (fun stats limit => Xyz.xyzAnalysis stats p limit coverage) [] := by
  refine reportLaw_capped ?_ ?_ ?_
  · intro stats stats' h
    have hitems := sortedDesc_perm (·.meanDemand)
      ((h.filter fun s => p.minDays ≤ s.days).map (Xyz.xyzItem p))
    simp only [hitems.countP_eq, hitems.length_eq, h.countP_eq]
  · exact List.forall_mem_nil _
  · exact fun _ _ _ => List.forall_mem_nil _

section Abc
variable {aCut bCut total cum : ℚ}

theorem abcReport_truncatesRows : TruncatesRows abcReport := by
  refine truncatesRows_capped ?_
  intro items items' h
  have hvalue := (((h.map (·.value)).filter (0 < ·)).sum_eq)
  simp only [hvalue, h.countP_eq, h.length_eq]

theorem abcReport_sums {items : List ABCItem} (h : ∀ it ∈ items, WholeCents it.value) (limit : ℤ) :
    (abcReport items limit).totals.value =
      (((abcReport items 0).rows.map (·.value)).filter (0 < ·)).sum := by
  have hrows : (abcReport items 0).rows = items := capped_rows_zero _ _
  rw [hrows]
  refine WholeCents.moneyRound_eq (wholeCents_sum fun v hv => ?_)
  obtain ⟨it, hit, rfl⟩ := List.mem_map.mp (List.mem_of_mem_filter hv)
  exact h it hit

theorem abcRank_values (pairs : List (String × ℚ)) :
    (abcRank aCut bCut total cum pairs).map (·.value) = pairs.map Prod.snd := by
  induction pairs generalizing cum with
  | nil => rfl
  | cons pair pairs ih => rw [List.map_cons, ← ih]; rfl

theorem abcRank_classes {pairs pairs' : List (String × ℚ)}
    (h : pairs.map Prod.snd = pairs'.map Prod.snd) :
    (abcRank aCut bCut total cum pairs).map (·.abcClass) =
      (abcRank aCut bCut total cum pairs').map (·.abcClass) := by
  induction pairs generalizing pairs' cum with
  | nil => rw [List.map_eq_nil_iff.mp h.symm]
  | cons pair pairs ih =>
    obtain ⟨pair', pairs', rfl, hv, hvs⟩ := List.map_eq_cons_iff.mp h.symm
    obtain ⟨name, v⟩ := pair
    obtain ⟨name', v'⟩ := pair'
    dsimp only at hv
    subst hv
    simp only [abcRank, List.map_cons, ih hvs.symm]

theorem sortedDesc_values {pairs pairs' : List (String × ℚ)} (h : pairs.Perm pairs') :
    (sortedDesc Prod.snd pairs).map Prod.snd = (sortedDesc Prod.snd pairs').map Prod.snd := by
  have hsorted : ∀ pairs : List (String × ℚ),
      ((sortedDesc Prod.snd pairs).map Prod.snd).Pairwise (· ≥ ·) := fun pairs =>
    List.pairwise_map.mpr (pairwise_sortedDesc Prod.snd pairs)
  exact List.Perm.eq_of_pairwise (fun _ _ _ _ hab hba => le_antisymm hba hab) (hsorted pairs)
    (hsorted pairs') ((sortedDesc_perm Prod.snd h).map _)

theorem abc_perm (aCut bCut : ℚ) {pairs pairs' : List (String × ℚ)} (h : pairs.Perm pairs') :
    (abc pairs aCut bCut).map (·.value) = (abc pairs' aCut bCut).map (·.value) ∧
      (abc pairs aCut bCut).map (·.abcClass) = (abc pairs' aCut bCut).map (·.abcClass) := by
  have hvalues := sortedDesc_values h
  dsimp only [abc]
  rw [abcRank_values, abcRank_values, hvalues]
  exact ⟨rfl, abcRank_classes hvalues⟩

theorem abc_truncatesRows (aCut bCut : ℚ) :
    TruncatesRows fun pairs limit => abcReport (abc pairs aCut bCut) limit := by
  refine truncatesRows_capped ?_
  intro pairs pairs' h
  obtain ⟨hvalues, hclasses⟩ := abc_perm aCut bCut h
  have hlength : (abc pairs aCut bCut).length = (abc pairs' aCut bCut).length := by
    have := congrArg List.length hvalues
    rwa [List.length_map, List.length_map] at this
  have hcount : ∀ p : AbcClass → Bool,
      (abc pairs aCut bCut).countP (fun it => p it.abcClass) =
        (abc pairs' aCut bCut).countP (fun it => p it.abcClass) := fun p => by
    have := congrArg (List.countP p) hclasses
    rwa [List.countP_map, List.countP_map] at this
  rw [hvalues, hlength, hcount (fun c => decide (c = .A)), hcount (fun c => decide (c = .B)),
    hcount (fun c => decide (c ≠ .A ∧ c ≠ .B))]

theorem abc_ranks (aCut bCut : ℚ) :
    RanksBy (fun pairs limit => abcReport (abc pairs aCut bCut) limit) ABCItem.value := by
  refine ranksBy_capped fun pairs => ?_
  have hvalues : ((abc pairs aCut bCut).map (·.value)).Pairwise (· ≥ ·) := by
    dsimp only [abc]
    rw [abcRank_values]
    exact List.pairwise_map.mpr (pairwise_sortedDesc Prod.snd pairs)
  exact List.pairwise_map.mp hvalues

end Abc

/-- In each of the reports the limit cuts the rows and nothing else: totals and row count stay,
the first rows of the ranking are shown, the money totals are the exact sums of their columns
over all rows, and the order of the input changes no total. -/
theorem truncation_keeps_totals (periodDays : ℚ) (outcomeByRef : Option (Dict String ℚ))
    (thresholdDays : ℤ) (aCut bCut : ℚ) (num : Purchase.Numerics) (plan : Purchase.PlanParams)
    (demand : Dict String Purchase.DemandStat) (xyz : Xyz.XyzParams)
    (coverage : Option (History.Coverage Day)) :
    (ReportLaw profitProductReport
        [(ProfitTotals.revenue, ProfitProductLine.revenue),
          (ProfitTotals.cost, ProfitProductLine.cost),
          (ProfitTotals.profit, ProfitProductLine.profit),
          (ProfitTotals.returnSum, ProfitProductLine.returnSum)] ∧
      RanksBy profitProductReport ProfitProductLine.revenue) ∧
    (ReportLaw profitEntityReport
        [(ProfitTotals.revenue, ProfitEntityLine.revenue),
          (ProfitTotals.cost, ProfitEntityLine.cost),
          (ProfitTotals.profit, ProfitEntityLine.profit)] ∧
      RanksBy profitEntityReport ProfitEntityLine.revenue) ∧
    (ReportLaw (fun rows limit => turnoverReport rows periodDays limit)
        [(TurnoverTotals.endValue, TurnoverLine.endValue)] ∧
      RanksBy (fun rows limit => turnoverReport rows periodDays limit) TurnoverLine.endValue) ∧
    (ReportLaw stockReport [(StockTotals.stockValue, StockLine.stockValue)] ∧
      RanksBy stockReport StockLine.stockValue) ∧
    (ReportLaw counterpartyReport
        [(CounterpartyTotals.revenue, CounterpartyMetric.revenue),
          (CounterpartyTotals.profit, CounterpartyMetric.profit),
          (CounterpartyTotals.returnsSum, CounterpartyMetric.returnsSum),
          (CounterpartyTotals.balance, CounterpartyMetric.balance)] ∧
      RanksBy counterpartyReport CounterpartyMetric.revenue) ∧
    (ReportLaw segmentReport [] ∧ RanksBy segmentReport CounterpartySegment.revenue) ∧
    (TruncatesRows deadStockReport ∧
      ReportLaw (fun rows limit => deadStockReport (deadStock rows outcomeByRef thresholdDays) limit)
        [(DeadStockTotals.stockValue, fun line => line.stockValue)] ∧
      RanksBy (fun rows limit => deadStockReport (deadStock rows outcomeByRef thresholdDays) limit)
        fun line => line.stockValue) ∧
    (TruncatesRows abcReport ∧
      (∀ items, (∀ it ∈ items, WholeCents it.value) → ∀ limit,
        (abcReport items limit).totals.value =
          (((abcReport items 0).rows.map (·.value)).filter (0 < ·)).sum) ∧
      TruncatesRows (fun pairs limit => abcReport (abc pairs aCut bCut) limit) ∧
      RanksBy (fun pairs limit => abcReport (abc pairs aCut bCut) limit) ABCItem.value) ∧
    ReportLaw documentReport
      [(DocumentTotals.sum, DocumentSummary.sum), (DocumentTotals.paid, DocumentSummary.paid)] ∧
    (ReportLaw (fun stock limit => Purchase.purchasePlan num plan stock demand limit)
        [(Purchase.PurchasePlanTotals.orderValue, Purchase.PurchasePlanItem.orderValue)] ∧
      RanksBy (fun stock limit => Purchase.purchasePlan num plan stock demand limit)
        Purchase.PurchasePlanItem.toOrder) ∧
    (ReportLaw (fun stats limit => Xyz.xyzAnalysis stats xyz limit coverage) [] ∧
      RanksBy (fun stats limit => Xyz.xyzAnalysis stats xyz limit coverage)
        Xyz.XYZItem.meanDemand) := by
  refine ⟨⟨profitProductReport_law, ?_⟩, ⟨profitEntityReport_law, ?_⟩,
    ⟨turnoverReport_law periodDays, ?_⟩, ⟨stockReport_law, ?_⟩, ⟨counterpartyReport_law, ?_⟩,
    ⟨segmentReport_law, ?_⟩,
    ⟨deadStockReport_truncatesRows, deadStockReport_law outcomeByRef thresholdDays, ?_⟩,
    ⟨abcReport_truncatesRows, fun _ h => abcReport_sums h, abc_truncatesRows aCut bCut,
      abc_ranks aCut bCut⟩,
    documentReport_law, ⟨purchasePlan_law num plan demand, purchasePlan_ranks num plan demand⟩,
    ⟨xyzAnalysis_law xyz coverage, ?_⟩⟩
  all_goals exact ranksBy_capped fun _ => pairwise_sortedDesc _ _

def teaAndReturn : List ABCItem :=
  [{ name := "Чай", value := 1201 / 4 }, { name := "Мёд", value := -20 }]

theorem teaAndReturn_keeps_total :
    (abcReport teaAndReturn 1).totals.value = 1201 / 4 := by
  have hcents : ∀ it ∈ teaAndReturn, WholeCents it.value := by
    simp only [teaAndReturn, List.forall_mem_cons, List.not_mem_nil, false_implies, implies_true,
      and_true]
    exact ⟨⟨30025, by norm_num⟩, ⟨-2000, by norm_num⟩⟩
  have hlaw := truncation_keeps_totals 30 none 90 (8 / 10) (95 / 100)
    ⟨fun _ => 16449 / 10000, fun _ => 26458 / 10000⟩ {} Dict.empty {} none
  have hsum := hlaw.2.2.2.2.2.2.2.1.2.1 teaAndReturn hcents 1
  rw [hsum]
  decide +kernel

end Chic
