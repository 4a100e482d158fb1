import Chic.DemandSource
import Chic.PeriodDays

namespace Chic.Helpers
open Calendar PyTime

def firstOfMonth (d : Date) : Date :=
  { d with
    day := 1
    day_mem := ⟨le_rfl, d.day_mem.1.trans d.day_mem.2⟩ }

/-- `prev_month`, for years of four digits; before the first month of the calendar it raises. -/
def prevMonth (ref : Date) : Option (String × String) :=
  let firstThis := (firstOfMonth ref).toOrdinal
  if firstThis = 1 then none
  else
    let last := Date.ofOrdinal (firstThis - 1)
    some (dateText (firstOfMonth last), dateText last)

/-- The period of `get_turnover` and `get_sales`: without dates, the month before. -/
def reportPeriod (now : Date) (dateFrom dateTo : String) : Option (String × String) :=
  if dateFrom = "" ∧ dateTo = "" then prevMonth now else some (dateFrom, dateTo)

section
variable {d e : Date}

theorem daysInMonth_pos (y m : ℕ) : 1 ≤ daysInMonth y m := by
  unfold daysInMonth
  split_ifs <;> decide

def lastOfMonth (d : Date) : Date :=
  { d with
    day := daysInMonth d.year d.month
    day_mem := ⟨daysInMonth_pos _ _, le_rfl⟩ }

theorem mem_month : firstOfMonth e ≤ d ∧ d ≤ lastOfMonth e ↔ d.year = e.year ∧ d.month = e.month := by
  have hday := d.day_mem
  rw [← not_lt, ← not_lt, Date.lt_iff, Date.lt_iff]
  simp only [firstOfMonth, lastOfMonth]
  constructor
  · intro h
    omega
  · rintro ⟨hyear, hmonth⟩
    rw [hyear, hmonth] at hday
    omega

theorem length_days (e d : Date) : (Date.days e d).length = d.toOrdinal + 1 - e.toOrdinal := by
  rw [Date.days, List.length_map, List.length_range']

/-- Between two dates the days are counted as between their numbers. -/
theorem periodDays_dates (hd : d.year < 10 ^ 4) (he : e.year < 10 ^ 4) (fallback : ℚ) :
    periodDays (dateText d) (dateText e) fallback =
      Purchase.periodDays d.toOrdinal e.toOrdinal fallback := by
  have hdays := periodDays_eq (a := .date d hd) (b := .date e he) fallback
  have hspan : ((instant e 0 0 0 : ℚ) - instant d 0 0 0) / microsecondsPerDay + 1 =
      (e.toOrdinal : ℤ) - (d.toOrdinal : ℤ) + 1 := by
    rw [instant, instant, microsecondsPerDay]
    push_cast
    ring
  simp only [Bound.isIso, Bool.false_eq_true, or_self, if_false, Bound.start, hspan] at hdays
  exact hdays

theorem exists_last_before (h : 1 < d.year) : ∃ last : Date, lastOfMonth last = last ∧
    last.toOrdinal + 1 = (firstOfMonth d).toOrdinal ∧
      12 * last.year + last.month + 1 = 12 * d.year + d.month ∧ d.year ≤ last.year + 1 := by
  have hmonth := d.month_mem
  rcases eq_or_ne d.month 1 with hm | hm
  · let last : Date := ⟨d.year - 1, 12, 31, by omega, by decide, by decide, by simp [daysInMonth]⟩
    refine ⟨last, Date.ext rfl rfl rfl, ?_, ?_, ?_⟩
    · have hyear := daysBeforeYear_succ (y := d.year - 1) (by omega)
      have hthirteen : daysBeforeMonth (d.year - 1) 13 =
          daysBeforeMonth (d.year - 1) 12 + daysInMonth (d.year - 1) 12 :=
        daysBeforeMonth_succ (by decide)
      have hall := daysBeforeMonth_thirteen (d.year - 1)
      have hdec : daysInMonth (d.year - 1) 12 = 31 := rfl
      have hjan : daysBeforeMonth d.year 1 = 0 := rfl
      rw [Nat.sub_add_cancel (by omega)] at hyear
      simp only [Date.toOrdinal, firstOfMonth, hm, hjan, last]
      omega
    · simp only [last]
      omega
    · simp only [last]
      omega
  · let last : Date := ⟨d.year, d.month - 1, daysInMonth d.year (d.month - 1), d.year_pos, by omega,
      daysInMonth_pos _ _, le_rfl⟩
    refine ⟨last, rfl, ?_, ?_, Nat.le_succ _⟩
    · have hnext := daysBeforeMonth_succ (y := d.year) (m := d.month - 1) (by omega)
      rw [Nat.sub_add_cancel (by omega)] at hnext
      simp only [Date.toOrdinal, firstOfMonth, last]
      omega
    · simp only [last]
      omega

end

/-- Without dates a report is of the whole month before, and of nothing else: its window holds just
the days of that month, the moments that are sent are the first second of its first day and the last
of its last one, and the turnover is reckoned over as many days as the month has. -/
theorem reportPeriod_default (ref : Date) (hlow : 1000 < ref.year) (hhigh : ref.year < 10 ^ 4) :
    ∃ first last : Date, reportPeriod ref "" "" = some (dateText first, dateText last) ∧
      (∀ d : Date, first ≤ d ∧ d ≤ last ↔ 12 * d.year + d.month + 1 = 12 * ref.year + ref.month) ∧
      window (dateText first) (dateText last) = some (instant first 0 0 0, instant last 23 59 59) ∧
      periodDays (dateText first) (dateText last) 30 = daysInMonth last.year last.month ∧
      (Date.days first last).length = daysInMonth last.year last.month := by
  obtain ⟨last, hlast, hnext, hindex, hyear⟩ := exists_last_before (d := ref) (by omega)
  have hordinal : (firstOfMonth ref).toOrdinal - 1 = last.toOrdinal := by omega
  have hpos := last.toOrdinal_pos
  have hperiod : reportPeriod ref "" "" = some (dateText (firstOfMonth last), dateText last) := by
    rw [reportPeriod, if_pos ⟨rfl, rfl⟩, prevMonth]
    dsimp only
    rw [if_neg (by omega), hordinal, Date.ofOrdinal_toOrdinal]
  have hlastyear : last.year < 10 ^ 4 := by
    have := last.month_mem
    have := ref.month_mem
    omega
  have hday : last.day = daysInMonth last.year last.month := congrArg Date.day hlast.symm
  have hspan : (firstOfMonth last).toOrdinal + daysInMonth last.year last.month =
      last.toOrdinal + 1 := by
    simp only [Date.toOrdinal, firstOfMonth, ← hday]
    omega
  have hwindow := window_eq (.date (firstOfMonth last) hlastyear) (.date last hlastyear)
  refine ⟨firstOfMonth last, last, hperiod, fun d => ?_, hwindow, ?_, ?_⟩
  · have hmonth := last.month_mem
    have hmonth' := d.month_mem
    conv_lhs => rw [← hlast]
    rw [show firstOfMonth (lastOfMonth last) = firstOfMonth last from rfl, mem_month]
    omega
  · have hmonth := daysInMonth_pos last.year last.month
    have hle : ((firstOfMonth last).toOrdinal : ℤ) ≤ last.toOrdinal := by omega
    have hcard : ((last.toOrdinal : ℤ) + 1 - (firstOfMonth last).toOrdinal).toNat =
        daysInMonth last.year last.month := by omega
    rw [periodDays_dates (d := firstOfMonth last) hlastyear hlastyear, Purchase.periodDays_eq_card hle,
      Int.card_Icc, hcard]
  · rw [length_days, ← hspan, Nat.add_sub_cancel_left]

/-- In March after a leap February. -/
theorem reportPeriod_march : ∃ first last : Date,
    reportPeriod ⟨2024, 3, 31, by decide, by decide, by decide⟩ "" "" =
      some (dateText first, dateText last) ∧ (Date.days first last).length = 29 := by
  obtain ⟨first, last, hperiod, hmonth, -, -, hlength⟩ :=
    reportPeriod_default ⟨2024, 3, 31, by decide, by decide, by decide⟩ (by decide) (by decide)
  refine ⟨first, last, hperiod, ?_⟩
  have hfeb : last.year = 2024 ∧ last.month = 2 := by
    have hle : first ≤ last := by
      by_contra hlt
      rw [Date.days, List.length_map, List.length_range'] at hlength
      have := Date.toOrdinal_strictMono (not_le.mp hlt)
      have := daysInMonth_pos last.year last.month
      omega
    have hindex := (hmonth last).mp ⟨hle, le_rfl⟩
    have := last.month_mem
    dsimp only at hindex
    omega
  rw [hlength, hfeb.1, hfeb.2]
  rfl

end Chic.Helpers
