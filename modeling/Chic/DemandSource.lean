import Mathlib.Algebra.Order.BigOperators.Group.List
import Mathlib.Data.Int.ConditionallyCompleteOrder
import Mathlib.Data.Int.Interval
import Chic.DemandStats
import Chic.Purchase

namespace Chic.Purchase
open Money Olap

/-- Days between two dates, both included; the fallback where there are none. -/
def periodDays (fromDay toDay : Day) (fallback : ℚ) : ℚ :=
  let days : ℚ := toDay - fromDay + 1
  if 0 < days then days else fallback

theorem periodDays_eq_card {fromDay toDay : Day} (h : fromDay ≤ toDay) (fallback : ℚ) :
    periodDays fromDay toDay fallback = (Finset.Icc fromDay toDay).card := by
  have hcast : (fromDay : ℚ) ≤ toDay := Int.cast_le.mpr h
  have hpos : (0 : ℚ) < toDay - fromDay + 1 := by linarith
  have hcard : ((Finset.Icc fromDay toDay).card : ℤ) = toDay - fromDay + 1 := by
    rw [Int.card_Icc, Int.toNat_of_nonneg (by linarith)]
    ring
  have hcard' : ((Finset.Icc fromDay toDay).card : ℚ) = toDay - fromDay + 1 := by
    exact_mod_cast hcard
  rw [periodDays, if_pos hpos, hcard']

def soldQuantity (lines : List ProfitProductLine) (key : String) : ℚ :=
  ((lines.filter (·.id = key)).map (·.sellQuantity)).sum

/-- The forecast of a product: its history where it has enough, else what the fallback rows sold a
day, else nothing. -/
structure IsForecast (stats : List DemandStats) (lines : List ProfitProductLine) (days : ℚ)
    (key : String) (stat : DemandStat) : Prop where
  history : ∀ s ∈ stats, s.productHref = key → defaultMinDays ≤ s.days →
    stat.dailyMean = s.meanDemand ∧ stat.source = .history
  estimate : (∀ s ∈ stats, s.productHref = key → s.days < defaultMinDays) →
    0 < soldQuantity lines key →
      stat.dailyMean = soldQuantity lines key / days ∧ stat.source = .estimate
  none : (∀ s ∈ stats, s.productHref = key → s.days < defaultMinDays) →
    soldQuantity lines key ≤ 0 → stat.dailyMean = 0 ∧ stat.source = .none

section Fold
variable {cv : ℚ} {stats : Dict String DemandStat} {lines : List ProfitProductLine} {key : String}

/-- The first row of a product that sold anything makes its forecast. -/
theorem get?_foldl_fallbackStep (cv : ℚ) (lines : List ProfitProductLine)
    (stats : Dict String DemandStat) (key : String) :
    (lines.foldl (fallbackStep cv) stats).get? key = (stats.get? key).or
      ((lines.find? fun l => l.id = key ∧ 0 < l.sellQuantity).map fun l =>
        { dailyMean := l.sellQuantity / fallbackWindowDays
          dailyStd := l.sellQuantity / fallbackWindowDays * cv
          source := .estimate }) := by
  induction lines generalizing stats with
  | nil => exact (Option.or_none).symm
  | cons l lines ih =>
    rw [List.foldl_cons, ih, fallbackStep, List.find?_cons]
    by_cases hkey : l.id = key
    · subst hkey
      cases hget : stats.get? l.id with
      | some stat => simp [hget]
      | none =>
        by_cases hsold : 0 < l.sellQuantity
        · simp [hsold, hsold.not_ge]
        · simp [hget, hsold, not_lt.mp hsold]
    · have hother : ∀ stat, (stats.set l.id stat).get? key = stats.get? key :=
        fun stat => Dict.get?_set_of_ne stats stat (Ne.symm hkey)
      split_ifs
      · simp [hkey]
      · simp [hkey, hother]

theorem get?_historyDemand (sqrt : ℚ → ℚ) (history : List (DemandDay Day)) (key : String) :
    (historyDemand sqrt history).get? key =
      ((demandStats sqrt history).filter fun s =>
        s.productHref = key ∧ defaultMinDays ≤ s.days).getLast?.map fun s =>
          { dailyMean := s.meanDemand, dailyStd := s.stdDemand, source := .history } := by
  have hget := Dict.get?_foldl_set_if (·.productHref)
    (fun s => ({ dailyMean := s.meanDemand, dailyStd := s.stdDemand, source := .history } :
      DemandStat))
    (fun s => defaultMinDays ≤ s.days) (demandStats sqrt history) Dict.empty key
  rw [Dict.get?_empty, Option.or_none] at hget
  exact hget

theorem get?_historyDemand_of_mem {sqrt : ℚ → ℚ} {history : List (DemandDay Day)} {s : DemandStats}
    (hs : s ∈ demandStats sqrt history) (hdays : defaultMinDays ≤ s.days) :
    (historyDemand sqrt history).get? s.productHref =
      some { dailyMean := s.meanDemand, dailyStd := s.stdDemand, source := .history } := by
  have hnodup : ((demandStats sqrt history).map (·.productHref)).Nodup := by
    rw [demandStats_products]
    exact List.nodup_dedup _
  rw [get?_historyDemand]
  cases hlast : ((demandStats sqrt history).filter fun s' =>
      s'.productHref = s.productHref ∧ defaultMinDays ≤ s'.days).getLast? with
  | none =>
    rw [List.getLast?_eq_none_iff, List.filter_eq_nil_iff] at hlast
    exact absurd (decide_eq_true ⟨rfl, hdays⟩) (hlast s hs)
  | some s' =>
    obtain ⟨hs', hkey⟩ := List.mem_filter.mp (List.mem_of_getLast? hlast)
    have hsame : s' = s :=
      List.inj_on_of_nodup_map hnodup hs' hs (of_decide_eq_true hkey).1
    rw [hsame, Option.map_some]

theorem soldQuantity_nonpos (h : ∀ l ∈ lines, l.id = key → l.sellQuantity ≤ 0) :
    soldQuantity lines key ≤ 0 := by
  have hneg : 0 ≤ -soldQuantity lines key := by
    rw [soldQuantity, List.sum_neg, List.map_map]
    refine List.sum_nonneg (List.forall_mem_map.mpr fun l hl => ?_)
    obtain ⟨hl, hkey⟩ := List.mem_filter.mp hl
    exact neg_nonneg.mpr (h l hl (of_decide_eq_true hkey))
  linarith

end Fold

section Forecast
variable (num : Numerics) (api : Source) (history : List (DemandDay Day)) (now : Day)
  (fallbackCv : ℚ)

def fallbackLines : List ProfitProductLine :=
  profitByProduct (api.profitByProduct (now - fallbackWindowDays) now)

/-- Thirty days back, both ends included. -/
theorem fallbackDays : periodDays (now - fallbackWindowDays) now 0 = 31 := by
  have hpos : (0 : ℚ) < now - (now - fallbackWindowDays : ℤ) + 1 := by
    norm_num [fallbackWindowDays]
  rw [periodDays, if_pos hpos]
  norm_num [fallbackWindowDays]

section Cases
variable {num api history now fallbackCv} {key : String}

/-- Where the history has enough, the fallback rows do not count. -/
theorem isForecast_of_history {s : DemandStats} (hs : s ∈ demandStats num.sqrt history)
    (henough : defaultMinDays ≤ s.days) (days : ℚ) :
    IsForecast (demandStats num.sqrt history) (fallbackLines api now) days s.productHref
      (statOf (forecasts num api history now fallbackCv) s.productHref) := by
  have hown := get?_historyDemand_of_mem hs henough
  have hget : (forecasts num api history now fallbackCv).get? s.productHref = _ :=
    get?_foldl_fallbackStep (max fallbackCv 0) (fallbackLines api now)
      (historyDemand num.sqrt history) s.productHref
  rw [hown, Option.some_or] at hget
  rw [statOf, hget, Option.getD_some]
  refine ⟨fun s' hs' hkey henough' => ?_, fun hfew => ?_, fun hfew => ?_⟩
  · have hown' := get?_historyDemand_of_mem hs' henough'
    rw [hkey, hown, Option.some_inj] at hown'
    exact ⟨congrArg DemandStat.dailyMean hown', rfl⟩
  · exact absurd (hfew s hs rfl) henough.not_gt
  · exact absurd (hfew s hs rfl) henough.not_gt

section FewDays
variable (hfew : ∀ s ∈ demandStats num.sqrt history, s.productHref = key → s.days < defaultMinDays)
include hfew

theorem get?_forecasts_of_few :
    (forecasts num api history now fallbackCv).get? key =
      ((fallbackLines api now).find? fun l => l.id = key ∧ 0 < l.sellQuantity).map fun l =>
        { dailyMean := l.sellQuantity / fallbackWindowDays
          dailyStd := l.sellQuantity / fallbackWindowDays * max fallbackCv 0
          source := .estimate } := by
  have hnone : (historyDemand num.sqrt history).get? key = none := by
    rw [get?_historyDemand, Option.map_eq_none_iff, List.getLast?_eq_none_iff,
      List.filter_eq_nil_iff]
    intro s hs hcond
    obtain ⟨hkey, henough⟩ := of_decide_eq_true hcond
    exact absurd (hfew s hs hkey) henough.not_gt
  have hget := get?_foldl_fallbackStep (max fallbackCv 0) (fallbackLines api now)
    (historyDemand num.sqrt history) key
  rw [hnone, Option.none_or] at hget
  exact hget

theorem isForecast_of_unsold
    (hunsold : ∀ l ∈ fallbackLines api now, l.id = key → l.sellQuantity ≤ 0) (days : ℚ) :
    IsForecast (demandStats num.sqrt history) (fallbackLines api now) days key
      (statOf (forecasts num api history now fallbackCv) key) := by
  have hfind : (fallbackLines api now).find? (fun l => l.id = key ∧ 0 < l.sellQuantity) = none := by
    refine List.find?_eq_none.mpr fun l hl hcond => ?_
    obtain ⟨hkey, hsold⟩ := of_decide_eq_true hcond
    exact absurd hsold (hunsold l hl hkey).not_gt
  rw [statOf, get?_forecasts_of_few hfew, hfind, Option.map_none, Option.getD_none]
  refine ⟨fun s hs hkey henough => ?_, fun _ hsold => ?_, fun _ _ => ⟨rfl, rfl⟩⟩
  · exact absurd (hfew s hs hkey) henough.not_gt
  · exact absurd hsold (soldQuantity_nonpos hunsold).not_gt

/-- One row, over thirty days, against all rows, over thirty-one. -/
theorem isForecast_iff_of_sold {first : ProfitProductLine}
    (hfind : (fallbackLines api now).find? (fun l => l.id = key ∧ 0 < l.sellQuantity) = some first) :
    IsForecast (demandStats num.sqrt history) (fallbackLines api now) 31 key
        (statOf (forecasts num api history now fallbackCv) key) ↔
      30 * soldQuantity (fallbackLines api now) key = 31 * first.sellQuantity := by
  have hcond := List.find?_some hfind
  obtain ⟨-, hfirst⟩ := of_decide_eq_true hcond
  rw [statOf, get?_forecasts_of_few hfew, hfind, Option.map_some, Option.getD_some]
  constructor
  · intro h
    rcases lt_or_ge 0 (soldQuantity (fallbackLines api now) key) with hsold | hsold
    · have hdaily := (h.estimate hfew hsold).1
      simp only [fallbackWindowDays] at hdaily
      push_cast at hdaily
      linarith
    · exact absurd (h.none hfew hsold).2 (by simp)
  · intro htotal
    refine ⟨fun s hs hkey henough => ?_, fun _ _ => ⟨?_, rfl⟩, fun _ hsold => ?_⟩
    · exact absurd (hfew s hs hkey) henough.not_gt
    · simp only [fallbackWindowDays]
      push_cast
      linarith
    · linarith

end FewDays

end Cases

/-- The forecast is as it should be where the history has it, where nothing was sold, and where the
days that are not counted make up for the rows that are not. -/
theorem isForecast_iff (key : String) :
    IsForecast (demandStats num.sqrt history) (fallbackLines api now)
        (periodDays (now - fallbackWindowDays) now 0) key
        (statOf (forecasts num api history now fallbackCv) key) ↔
      (∃ s ∈ demandStats num.sqrt history, s.productHref = key ∧ defaultMinDays ≤ s.days) ∨
      (∀ l ∈ fallbackLines api now, l.id = key → l.sellQuantity ≤ 0) ∨
      ∃ first, (fallbackLines api now).find? (fun l => l.id = key ∧ 0 < l.sellQuantity) = some first ∧
        30 * soldQuantity (fallbackLines api now) key = 31 * first.sellQuantity := by
  rw [fallbackDays]
  -- by the source of the demand: the history, no sale in the window, or the first sold row
  by_cases hhistory :
      ∃ s ∈ demandStats num.sqrt history, s.productHref = key ∧ defaultMinDays ≤ s.days
  · obtain ⟨s, hs, rfl, henough⟩ := id hhistory
    exact iff_of_true (isForecast_of_history hs henough 31) (Or.inl hhistory)
  · have hfew : ∀ s ∈ demandStats num.sqrt history, s.productHref = key →
        s.days < defaultMinDays := by
      intro s hs hkey
      by_contra hnot
      exact hhistory ⟨s, hs, hkey, not_lt.mp hnot⟩
    rw [or_iff_right hhistory]
    by_cases hunsold : ∀ l ∈ fallbackLines api now, l.id = key → l.sellQuantity ≤ 0
    · exact iff_of_true (isForecast_of_unsold hfew hunsold 31) (Or.inl hunsold)
    · rw [or_iff_right hunsold]
      cases hfind : (fallbackLines api now).find? fun l => l.id = key ∧ 0 < l.sellQuantity with
      | none =>
        refine absurd (fun l hl hkey => ?_) hunsold
        by_contra hsold
        exact List.find?_eq_none.mp hfind l hl (decide_eq_true ⟨hkey, not_le.mp hsold⟩)
      | some first =>
        rw [isForecast_iff_of_sold hfew hfind]
        simp

end Forecast

/-- Every stock line of the plan has the forecast that it should have. -/
def ForecastsHold (num : Numerics) (api : Source) (history : List (DemandDay Day)) (now : Day)
    (fallbackCv : ℚ) : Prop :=
  ∀ line ∈ stock (api.getStock .positiveOnly),
    IsForecast (demandStats num.sqrt history) (fallbackLines api now)
      (periodDays (now - fallbackWindowDays) now 0) line.id
      (statOf (forecasts num api history now fallbackCv) line.id)

/-- For a product without history that sold, thirty days for thirty-one and the first row for all
rows have to cancel out. -/
theorem forecastsHold_iff (num : Numerics) (api : Source) (history : List (DemandDay Day))
    (now : Day) (fallbackCv : ℚ) :
    ForecastsHold num api history now fallbackCv ↔
      ∀ line ∈ stock (api.getStock .positiveOnly),
        (∃ s ∈ demandStats num.sqrt history,
          s.productHref = line.id ∧ defaultMinDays ≤ s.days) ∨
        (∀ l ∈ fallbackLines api now, l.id = line.id → l.sellQuantity ≤ 0) ∨
        ∃ first, (fallbackLines api now).find? (fun l => l.id = line.id ∧ 0 < l.sellQuantity) =
            some first ∧
          30 * soldQuantity (fallbackLines api now) line.id = 31 * first.sellQuantity :=
  forall_congr' fun line => forall_congr' fun _ =>
    isForecast_iff num api history now fallbackCv line.id

def teaSource (quantities : List ℚ) : Source where
  getStock _ := [⟨"чай", "Чай", "", "", 100, 200, 5, 0, 0, 1⟩]
  profitByProduct _ _ := quantities.map fun q => ⟨⟨"чай", "Чай", ""⟩, q, 0, 0, 0, 0, 0⟩

def noHistory : Numerics := ⟨fun _ => 0, fun _ => 0⟩

/-- 31 packs sold on 31 days are not one a day, and 62 packs in two rows not two. -/
theorem teaSource_misforecast :
    ((statOf (forecasts noHistory (teaSource [31]) [] 100 (1 / 2)) "чай").dailyMean = 31 / 30 ∧
      ¬ ForecastsHold noHistory (teaSource [31]) [] 100 (1 / 2)) ∧
    ((statOf (forecasts noHistory (teaSource [30, 32]) [] 100 (1 / 2)) "чай").dailyMean = 1 ∧
      ¬ ForecastsHold noHistory (teaSource [30, 32]) [] 100 (1 / 2)) := by
  refine ⟨⟨by decide +kernel, fun h => ?_⟩, by decide +kernel, fun h => ?_⟩
  · have hdaily := (h _ List.mem_cons_self).estimate (by decide +kernel) (by decide +kernel)
    exact absurd hdaily.1 (by decide +kernel)
  · have hdaily := (h _ List.mem_cons_self).estimate (by decide +kernel) (by decide +kernel)
    exact absurd hdaily.1 (by decide +kernel)

end Chic.Purchase
