import Chic.DateText
import Chic.History

namespace Chic.History
open While PyTime Calendar

/-- `day.strftime("%Y-%m-%d")`, for the years from 1000 on, which every platform writes with four
digits. -/
def strftime (day : Day) : String := dateText (.ofOrdinal day.toNat)

def strptime (s : String) : Option Day := (strptimeDate s.toList).map fun d => (d.toOrdinal : ℤ)

/-- `sales_coverage` on the texts of `sales_capture`; `none` is the `ValueError` of a first or a
last one that is no date. -/
def salesCoverageText (captured : List String) (maxGaps : ℤ) : Option (Coverage String) :=
  let dates := captured.insertionSort (· ≤ ·)
  if (dates.head?.toList ++ dates.getLast?.toList).all fun s => (strptime s).isSome then
    some (salesCoverage (fun s => (strptime s).getD 0) strftime captured maxGaps)
  else none

def visitDay (captured : List String) (day : Day) : List String :=
  if strftime day ∈ captured then [] else [strftime day]

theorem sliceTo_natCast {α : Type*} (n : ℕ) (l : List α) : sliceTo n l = l.take n := by
  rw [sliceTo, if_pos (Int.natCast_nonneg n), Int.toNat_natCast]

section
variable {d d' first last : Date} {captured : List Date}

theorem strptime_dateText (h : d.year < 10 ^ 4) : strptime (dateText d) = some (d.toOrdinal : ℤ) := by
  rw [strptime, dateText, String.toList_ofList, strptimeDate_ymd h, Option.map_some]

theorem dateText_inj (hd : d.year < 10 ^ 4) (hd' : d'.year < 10 ^ 4)
    (h : dateText d = dateText d') : d = d' :=
  le_antisymm ((dateText_le_iff hd hd').mp h.le) ((dateText_le_iff hd' hd).mp h.ge)

theorem dayRange_dates (first last : Date) :
    (dayRange first.toOrdinal last.toOrdinal).map strftime = (Date.days first last).map dateText := by
  rw [Date.days, dayRange, List.map_map, List.map_map, List.range'_eq_map_range, List.map_map]
  rw [show (last.toOrdinal - first.toOrdinal + 1 : ℤ).toNat =
    last.toOrdinal + 1 - first.toOrdinal by omega]
  apply List.map_congr_left
  intro i _
  change dateText _ = dateText _
  congr 2

theorem flatMap_visitDay (captured : List String) (days : List Day) :
    days.flatMap (visitDay captured) = (days.map strftime).filter (· ∉ captured) := by
  induction days with
  | nil => rfl
  | cons day days ih =>
    rw [List.flatMap_cons, ih, visitDay, List.map_cons, List.filter_cons]
    split_ifs <;> simp_all

theorem insertionSort_dateText (h : ∀ d ∈ captured, d.year < 10 ^ 4) :
    (captured.map dateText).insertionSort (· ≤ ·) =
      (captured.insertionSort (· ≤ ·)).map dateText :=
  (List.map_insertionSort _ _ _ _ fun d hd d' hd' => (dateText_le_iff (h d hd) (h d' hd')).symm).symm

theorem exists_ends (hne : captured ≠ []) : ∃ first last,
    (captured.insertionSort (· ≤ ·)).head? = some first ∧
    (captured.insertionSort (· ≤ ·)).getLast? = some last ∧ first ∈ captured ∧ last ∈ captured ∧
    ∀ d ∈ captured, first ≤ d ∧ d ≤ last := by
  have hsorted := List.pairwise_insertionSort (· ≤ ·) captured
  have hmem : ∀ {d}, d ∈ captured.insertionSort (· ≤ ·) ↔ d ∈ captured := List.mem_insertionSort _
  have hne' : captured.insertionSort (· ≤ ·) ≠ [] := by
    intro hnil
    rw [← List.length_eq_zero_iff, List.length_insertionSort] at hnil
    exact hne (List.length_eq_zero_iff.mp hnil)
  refine ⟨_, _, List.head?_eq_some_head hne', List.getLast?_eq_some_getLast hne',
    hmem.mp (List.head_mem hne'), hmem.mp (List.getLast_mem hne'), ?_⟩
  intro d hd
  exact ⟨hsorted.rel_head (hmem.mpr hd), hsorted.rel_getLast (hmem.mpr hd)⟩

theorem captured_add_gaps (hends : ∀ d ∈ captured, first ≤ d ∧ d ≤ last) :
    captured.dedup.length + ((Date.days first last).filter (· ∉ captured)).length =
      (Date.days first last).length := by
  have hnodup : (Date.days first last).Nodup := (Date.days_sorted first last).imp ne_of_lt
  have hperm : captured.dedup.Perm ((Date.days first last).filter (· ∈ captured)) := by
    rw [List.perm_ext_iff_of_nodup (List.nodup_dedup _) (hnodup.filter _)]
    intro d
    rw [List.mem_dedup, List.mem_filter, decide_eq_true_eq, Date.mem_days]
    exact ⟨fun hd => ⟨hends d hd, hd⟩, And.right⟩
  rw [hperm.length_eq, List.length_eq_length_filter_add (l := Date.days first last) (· ∈ captured)]
  simp only [decide_not]

theorem filter_dateText (hcaptured : ∀ d ∈ captured, d.year < 10 ^ 4) {days : List Date}
    (hdays : ∀ d ∈ days, d.year < 10 ^ 4) :
    (days.map dateText).filter (· ∉ captured.map dateText) =
      (days.filter (· ∉ captured)).map dateText := by
  rw [List.filter_map]
  congr 1
  apply List.filter_congr
  intro d hd
  rw [Function.comp_apply, decide_eq_decide, not_iff_not, List.mem_map]
  constructor
  · rintro ⟨d', hd', htext⟩
    rwa [← dateText_inj (hcaptured d' hd') (hdays d hd) htext]
  · intro hmem
    exact ⟨d, hmem, rfl⟩

theorem length_dedup_dateText (h : ∀ d ∈ captured, d.year < 10 ^ 4) :
    (captured.map dateText).dedup.length = captured.dedup.length := by
  have hperm : (captured.map dateText).dedup.Perm (captured.dedup.map dateText) := by
    rw [List.perm_ext_iff_of_nodup (List.nodup_dedup _)]
    · intro s
      simp only [List.mem_dedup, List.mem_map]
    · refine (List.nodup_dedup _).map_on fun d hd d' hd' htext => ?_
      exact dateText_inj (h d (List.mem_dedup.mp hd)) (h d' (List.mem_dedup.mp hd')) htext
  rw [hperm.length_eq, List.length_map]

theorem walkDays_visitDay (hcaptured : ∀ d ∈ captured, d.year < 10 ^ 4) (hlast : last.year < 10 ^ 4) :
    walkDays (visitDay (captured.map dateText)) first.toOrdinal last.toOrdinal =
      ((Date.days first last).filter (· ∉ captured)).map dateText := by
  rw [walkDays_eq, flatMap_visitDay, dayRange_dates, filter_dateText hcaptured]
  intro d hd
  rcases (Date.mem_days.mp hd).2.eq_or_lt with rfl | hlt
  · exact hlast
  · rcases Date.lt_iff.mp hlt with hyear | ⟨hyear, -⟩ <;> omega

theorem dedup_insertionSort (h : ∀ d ∈ captured, d.year < 10 ^ 4) :
    ((captured.insertionSort (· ≤ ·)).map dateText).dedup.length = captured.dedup.length := by
  rw [length_dedup_dateText fun d hd => h d ((List.mem_insertionSort _).mp hd),
    (List.perm_insertionSort _ captured).dedup.length_eq]

/-- The report, by the dates that are captured. -/
theorem salesCoverageText_eq (h : ∀ d ∈ captured, d.year < 10 ^ 4)
    (hfirst : (captured.insertionSort (· ≤ ·)).head? = some first)
    (hlast : (captured.insertionSort (· ≤ ·)).getLast? = some last) (maxGaps : ℤ) :
    let gaps := walkDays (visitDay (captured.map dateText)) first.toOrdinal last.toOrdinal
    salesCoverageText (captured.map dateText) maxGaps = some
      { capturedDays := captured.dedup.length
        gapDays := gaps.length
        first := some (dateText first)
        last := some (dateText last)
        gaps := sliceTo maxGaps gaps } := by
  have hmem : ∀ {d}, d ∈ captured.insertionSort (· ≤ ·) ↔ d ∈ captured := List.mem_insertionSort _
  have hdates := insertionSort_dateText h
  have hvisit : (fun day => if strftime day ∈ (captured.insertionSort (· ≤ ·)).map dateText then []
      else [strftime day]) = visitDay (captured.map dateText) := by
    funext day
    simp only [visitDay, ← hdates, List.mem_insertionSort]
  unfold salesCoverageText salesCoverage
  simp only [hdates, List.head?_map, List.getLast?_map, hfirst, hlast, Option.map_some,
    Option.toList_some, List.singleton_append, List.all_cons, List.all_nil,
    strptime_dateText (h first (hmem.mp (List.mem_of_head? hfirst))),
    strptime_dateText (h last (hmem.mp (List.mem_of_getLast? hlast))),
    Option.isSome_some, Bool.and_self, if_true, hvisit, dedup_insertionSort h, Option.getD_some]

end

/-- Coverage is an exact complement: the loop ends, its gaps are the days of the span that are not
captured, in order, and with the captured days they are all the days of the span. -/
theorem salesCoverage_complement (captured : List Date) (hne : captured ≠ [])
    (hyears : ∀ d ∈ captured, 1000 ≤ d.year ∧ d.year ≤ 9998) (maxGaps : ℕ) :
    ∃ first ∈ captured, ∃ last ∈ captured, (∀ d ∈ captured, first ≤ d ∧ d ≤ last) ∧
      ∃ gaps cov, Returns (dayWalk (visitDay (captured.map dateText)) last.toOrdinal)
          (first.toOrdinal, []) gaps ∧
        gaps = ((Date.days first last).filter (· ∉ captured)).map dateText ∧
        salesCoverageText (captured.map dateText) maxGaps = some cov ∧
        cov.first = some (dateText first) ∧ cov.last = some (dateText last) ∧
        cov.gapDays = gaps.length ∧ cov.gaps = gaps.take maxGaps ∧
        cov.capturedDays = captured.dedup.length ∧
        cov.capturedDays + cov.gapDays = (Date.days first last).length := by
  have hyear : ∀ d ∈ captured, d.year < 10 ^ 4 := by
    intro d hd
    have := (hyears d hd).2
    omega
  obtain ⟨first, last, hhead, htail, hfirst, hlast, hends⟩ := exists_ends hne
  have hgaps : walkDays (visitDay (captured.map dateText)) first.toOrdinal last.toOrdinal = _ :=
    walkDays_visitDay hyear (hyear last hlast)
  refine ⟨first, hfirst, last, hlast, hends, _, _, walkDays_returns _ _ _, hgaps,
    salesCoverageText_eq hyear hhead htail maxGaps, rfl, rfl, rfl, ?_, rfl, ?_⟩
  · exact sliceTo_natCast maxGaps _
  · rw [hgaps, List.length_map]
    exact captured_add_gaps hends

/-- Three days of two years, a leap day between them. -/
theorem salesCoverage_complement_leap :
    let captured : List Date := [⟨2024, 3, 1, by decide, by decide, by decide⟩,
      ⟨2023, 12, 31, by decide, by decide, by decide⟩,
      ⟨2024, 2, 28, by decide, by decide, by decide⟩]
    ∃ first ∈ captured, ∃ last ∈ captured, (∀ d ∈ captured, first ≤ d ∧ d ≤ last) ∧
      ∃ gaps cov, Returns (dayWalk (visitDay (captured.map dateText)) last.toOrdinal)
          (first.toOrdinal, []) gaps ∧
        gaps = ((Date.days first last).filter (· ∉ captured)).map dateText ∧
        salesCoverageText (captured.map dateText) 10 = some cov ∧
        cov.first = some (dateText first) ∧ cov.last = some (dateText last) ∧
        cov.gapDays = gaps.length ∧ cov.gaps = gaps.take 10 ∧
        cov.capturedDays = captured.dedup.length ∧
        cov.capturedDays + cov.gapDays = (Date.days first last).length :=
  salesCoverage_complement _ (by decide) (by decide) 10

end Chic.History
