import Chic.DemandStats
import Chic.History

namespace Chic

/-- `daily_demand`: the sales rows from a date on, oldest first. -/
def History.Store.dailyDemand (db : History.Store) (since : Option Day) :
    List (Olap.DemandDay Day) :=
  let rows := db.salesSnapshot.entries.filter fun e => since.all (· ≤ e.1.1)
  (rows.insertionSort fun a b => a.1.1 < b.1.1 ∨ (a.1.1 = b.1.1 ∧ a.1.2 ≤ b.1.2)).map fun e =>
    { snapshotDate := e.1.1
      productHref := e.1.2
      name := e.2.name
      code := e.2.code
      sellQuantity := e.2.sellQuantity }

def History.Store.demandStats (sqrt : ℚ → ℚ) (db : History.Store) (since : Option Day) :
    List Olap.DemandStats :=
  Olap.demandStats sqrt (db.dailyDemand since)

namespace Olap

section
variable {δ : Type*} [LinearOrder δ] (demand : List (DemandDay δ)) (since : δ)

def window : List (DemandDay δ) := demand.filter fun r => since ≤ r.snapshotDate

/-- The spine of the whole history from a product's first sale, cut to the dates from `since`
on. -/
def restrictedDates (first : δ) : Finset δ := (spineDates demand first).filter (since ≤ ·)

/-- The statistics are those of the product's whole zero-filled series, cut to the dates from
`since` on. -/
def AgreesWithRestricted (sqrt : ℚ → ℚ) (s : DemandStats) : Prop :=
  ∃ first, IsFirst demand s.productHref first ∧
    let dates := restrictedDates demand since first.snapshotDate
    let qty := quantityOn demand s.productHref
    s.days = dates.card ∧ s.meanDemand = (∑ d ∈ dates, qty d) / dates.card ∧
      s.stdDemand = sqrt (seriesVariance dates qty)

/-- The product's first sale of all is in the window, or nothing at all was sold in the window
before the product was. -/
def NoLeadingZeros (href : String) : Prop :=
  (∀ r ∈ demand, r.productHref = href → since ≤ r.snapshotDate) ∨
    ∀ r ∈ window demand since,
      ∃ r' ∈ window demand since, r'.productHref = href ∧ r'.snapshotDate ≤ r.snapshotDate

end

theorem seriesVariance_congr {δ : Type*} {dates : Finset δ} {q q' : δ → ℚ} (h : ∀ d ∈ dates, q d = q' d) :
    seriesVariance dates q = seriesVariance dates q' := by
  unfold seriesVariance
  rw [Finset.sum_congr rfl h]
  congr 1
  apply Finset.sum_congr rfl
  intro d hd
  rw [h d hd]

section
variable {δ : Type*} [LinearOrder δ] {demand : List (DemandDay δ)} {since : δ}
  {sqrt : ℚ → ℚ} {first last first₀ : DemandDay δ} {s : DemandStats} {href : String}

theorem mem_window {r : DemandDay δ} :
    r ∈ window demand since ↔ r ∈ demand ∧ since ≤ r.snapshotDate := by
  rw [window, List.mem_filter, decide_eq_true_eq]

theorem mem_restrictedDates {d first : δ} :
    d ∈ restrictedDates demand since first ↔
      (∃ r ∈ demand, r.snapshotDate = d) ∧ first ≤ d ∧ since ≤ d := by
  rw [restrictedDates, Finset.mem_filter, mem_spineDates, and_assoc]

theorem quantityOn_window {d : δ} (hd : since ≤ d) :
    quantityOn (window demand since) href d = quantityOn demand href d := by
  rw [quantityOn, quantityOn, window, List.filter_filter]
  congr 2
  apply List.filter_congr
  intro r _
  rw [Bool.and_eq_left_iff_imp, decide_eq_true_eq, decide_eq_true_eq]
  rintro ⟨-, rfl⟩
  exact hd

theorem exists_isFirst (h : ∃ r ∈ demand, r.productHref = href) :
    ∃ first, IsFirst demand href first := by
  have hhref : href ∈ (firstSeen demand).map (·.productHref) := by
    rw [firstSeen_products, List.mem_dedup, List.mem_map]
    exact h
  obtain ⟨f, hf, rfl⟩ := List.mem_map.mp hhref
  obtain ⟨first, -, hfirst, -⟩ := firstSeen_spec hf
  exact ⟨first, hfirst⟩

theorem spineDates_window_subset (hfirst : IsFirst (window demand since) href first)
    (hfirst₀ : IsFirst demand href first₀) :
    spineDates (window demand since) first.snapshotDate ⊆
      restrictedDates demand since first₀.snapshotDate := by
  intro d hd
  obtain ⟨⟨r, hr, rfl⟩, hle⟩ := mem_spineDates.mp hd
  have hmem := mem_window.mp hr
  have hle₀ := hfirst₀.le first (mem_window.mp hfirst.mem).1 hfirst.product
  exact mem_restrictedDates.mpr ⟨⟨r, hmem.1, rfl⟩, hle₀.trans hle, hmem.2⟩

/-- The two spines are the same exactly when the cut takes no zero away. -/
theorem spineDates_window_eq_iff (hfirst : IsFirst (window demand since) href first)
    (hfirst₀ : IsFirst demand href first₀) :
    spineDates (window demand since) first.snapshotDate =
      restrictedDates demand since first₀.snapshotDate ↔ NoLeadingZeros demand since href := by
  refine ⟨?_, ?_⟩
  · intro heq
    by_cases hsince : since ≤ first₀.snapshotDate
    · exact .inl fun r hr hhref => hsince.trans (hfirst₀.le r hr hhref)
    · refine .inr fun r hr => ⟨first, hfirst.mem, hfirst.product, ?_⟩
      obtain ⟨hmem, hle⟩ := mem_window.mp hr
      have hr' : r.snapshotDate ∈ restrictedDates demand since first₀.snapshotDate :=
        mem_restrictedDates.mpr ⟨⟨r, hmem, rfl⟩, (not_le.mp hsince).le.trans hle, hle⟩
      rw [← heq] at hr'
      exact (mem_spineDates.mp hr').2
  · intro hcond
    refine Finset.Subset.antisymm (spineDates_window_subset hfirst hfirst₀) ?_
    intro d hd
    obtain ⟨⟨r, hr, rfl⟩, hle₀, hle⟩ := mem_restrictedDates.mp hd
    have hwindow : r ∈ window demand since := mem_window.mpr ⟨hr, hle⟩
    refine mem_spineDates.mpr ⟨⟨r, hwindow, rfl⟩, ?_⟩
    rcases hcond with hcond | hcond
    · -- the first sale of all is the first one of the window
      have hmem := mem_window.mpr ⟨hfirst₀.mem, hcond first₀ hfirst₀.mem hfirst₀.product⟩
      exact (hfirst.le first₀ hmem hfirst₀.product).trans hle₀
    · obtain ⟨r', hr', hhref, hbefore⟩ := hcond r hwindow
      exact (hfirst.le r' hr' hhref).trans hbefore

/-- The statistics of the window agree with the cut series exactly when the spines do. -/
theorem agrees_iff_spineDates_eq (hdesc : Describes (window demand since) sqrt first last s)
    (hfirst₀ : IsFirst demand s.productHref first₀) :
    AgreesWithRestricted demand since sqrt s ↔
      spineDates (window demand since) first.snapshotDate =
        restrictedDates demand since first₀.snapshotDate := by
  have hsubset := spineDates_window_subset hdesc.isFirst hfirst₀
  refine ⟨?_, ?_⟩
  · rintro ⟨first₁, hfirst₁, hdays, -⟩
    rw [hfirst₁.date_eq hfirst₀, hdesc.days] at hdays
    exact Finset.eq_of_subset_of_card_le hsubset hdays.ge
  · intro heq
    have hqty : ∀ d ∈ restrictedDates demand since first₀.snapshotDate,
        quantityOn (window demand since) s.productHref d = quantityOn demand s.productHref d :=
      fun d hd => quantityOn_window (mem_restrictedDates.mp hd).2.2
    have hsum := (sum_quantityOn hdesc.isFirst).symm
    rw [heq, Finset.sum_congr rfl hqty, ← hdesc.mean] at hsum
    have hdays := hdesc.days
    rw [heq] at hdays
    refine ⟨first₀, hfirst₀, hdays, ?_, ?_⟩
    · rw [← hsum, ← hdays, mul_div_cancel_right₀ _ hdesc.days_ne_zero]
    · rw [hdesc.variance, heq, seriesVariance_congr hqty]

end

section
variable (db : History.Store)

theorem uniqueRows_dailyDemand (since : Option Day) : UniqueRows (db.dailyDemand since) := by
  unfold UniqueRows History.Store.dailyDemand
  rw [List.map_map]
  have hkeys : (db.salesSnapshot.entries.map Prod.fst).Nodup := db.salesSnapshot.nodup
  have hsub := (List.filter_sublist (p := fun e : (Day × String) × History.SalesSnapshot =>
    since.all (· ≤ e.1.1)) (l := db.salesSnapshot.entries)).map Prod.fst
  exact (((List.perm_insertionSort _ _).map Prod.fst).nodup_iff).mpr (hkeys.sublist hsub)

theorem dailyDemand_perm (since : Day) :
    (db.dailyDemand (some since)).Perm (window (db.dailyDemand none) since) := by
  unfold window History.Store.dailyDemand
  rw [List.filter_map]
  refine ((List.perm_insertionSort _ _).trans ?_).map _
  refine List.Perm.trans ?_ ((List.perm_insertionSort _ _).filter _).symm
  simp only [Option.all_none, List.filter_true]
  exact List.Perm.refl _

end

/-- The statistics of a window are those of the product's whole zero-filled series cut to the
window exactly when no zero is cut off: filtering comes first, so the series begins with the
first sale in the window. -/
theorem windowed_stats_iff (sqrt : ℚ → ℚ) (db : History.Store) (since : Day) {href : String}
    (hsold : ∃ r ∈ db.dailyDemand none, r.productHref = href ∧ since ≤ r.snapshotDate) :
    (∃ s ∈ db.demandStats sqrt (some since), s.productHref = href ∧
      AgreesWithRestricted (db.dailyDemand none) since sqrt s) ↔
      NoLeadingZeros (db.dailyDemand none) since href := by
  have hperm := dailyDemand_perm db since
  obtain ⟨r, hr, hhref, hsince⟩ := hsold
  obtain ⟨first₀, hfirst₀⟩ := exists_isFirst ⟨r, hr, hhref⟩
  -- every entry of the product comes to the same
  have hentry : ∀ s ∈ db.demandStats sqrt (some since), s.productHref = href →
      (AgreesWithRestricted (db.dailyDemand none) since sqrt s ↔
        NoLeadingZeros (db.dailyDemand none) since href) := by
    rintro s hs rfl
    obtain ⟨first, last, hdesc⟩ := describes_of_mem (uniqueRows_dailyDemand db _) hs
    have hdesc := hdesc.perm hperm
    rw [agrees_iff_spineDates_eq hdesc hfirst₀, spineDates_window_eq_iff hdesc.isFirst hfirst₀]
  refine ⟨?_, ?_⟩
  · rintro ⟨s, hs, hproduct, hagrees⟩
    exact (hentry s hs hproduct).mp hagrees
  · intro hcond
    have hmem : href ∈ (db.demandStats sqrt (some since)).map (·.productHref) := by
      rw [History.Store.demandStats, demandStats_products, List.mem_dedup, List.mem_map]
      exact ⟨r, hperm.mem_iff.mpr (mem_window.mpr ⟨hr, hsince⟩), hhref⟩
    obtain ⟨s, hs, hproduct⟩ := List.mem_map.mp hmem
    exact ⟨s, hs, hproduct, (hentry s hs hproduct).mpr hcond⟩

def soldOn (d : Day) (href : String) (qty : ℚ) : (Day × String) × History.SalesSnapshot :=
  ((d, href), ⟨href, "", qty, 0, 0, 0, 0, 0⟩)

/-- p sells on days 1 and 6, q on day 5. -/
def pausedHistory : History.Store :=
  { History.Store.empty with
    salesSnapshot := ⟨[soldOn 1 "p" 2, soldOn 5 "q" 2, soldOn 6 "p" 2], by decide⟩ }

theorem pausedHistory_window :
    ∃ s ∈ pausedHistory.demandStats id (some 5), s.productHref = "q" ∧
      AgreesWithRestricted (pausedHistory.dailyDemand none) 5 id s :=
  (windowed_stats_iff id pausedHistory 5 (by decide +kernel)).mpr (.inl (by decide +kernel))

/-- From day 5 on the series of p is 0 on day 5 and 2 on day 6; the window has day 6 only. -/
theorem pausedHistory_loses_zero :
    (pausedHistory.demandStats id (some 5)).map (fun s => (s.productHref, s.days, s.meanDemand)) =
        [("q", 2, 1), ("p", 1, 2)] ∧
      restrictedDates (pausedHistory.dailyDemand none) 5 1 = {5, 6} ∧
        (∀ r ∈ pausedHistory.dailyDemand none, r.productHref = "p" → 1 ≤ r.snapshotDate) := by
  decide +kernel

end Olap

end Chic
