import Mathlib.Algebra.Order.BigOperators.Group.List
import Mathlib.Data.Prod.Lex
import Mathlib.Order.Lattice.Nat
import Mathlib.Tactic.Ring

namespace Chic.Calendar

def isLeap (y : ℕ) : Bool := y % 4 = 0 ∧ (y % 100 ≠ 0 ∨ y % 400 = 0)

def daysInYear (y : ℕ) : ℕ := if isLeap y then 366 else 365

def daysInMonth (y m : ℕ) : ℕ :=
  if m = 2 then if isLeap y then 29 else 28
  else if m = 4 ∨ m = 6 ∨ m = 9 ∨ m = 11 then 30
  else 31

/-- A date of the Gregorian calendar, extended into the past. -/
@[ext]
structure Date where
  year : ℕ
  month : ℕ
  day : ℕ
  year_pos : 1 ≤ year
  month_mem : 1 ≤ month ∧ month ≤ 12
  day_mem : 1 ≤ day ∧ day ≤ daysInMonth year month
  deriving DecidableEq

def daysBeforeYear (y : ℕ) : ℕ := (y - 1) * 365 + (y - 1) / 4 - (y - 1) / 100 + (y - 1) / 400

def daysBeforeMonth (y m : ℕ) : ℕ := ((List.range' 1 (m - 1)).map (daysInMonth y)).sum

/-- Days since the last day of the year 0. -/
def Date.toOrdinal (d : Date) : ℕ :=
  daysBeforeYear d.year + daysBeforeMonth d.year d.month + d.day

/-- Which of the blocks from number `i` on, of these lengths, holds the place `n`, and where. -/
def locate (len : ℕ → ℕ) : (fuel i n : ℕ) → ℕ × ℕ
  | 0, i, n => (i, n)
  | fuel + 1, i, n => if n < len i then (i, n) else locate len fuel (i + 1) (n - len i)

section Locate
variable {len before : ℕ → ℕ} {first : ℕ}

theorem locate_spec (hstep : ∀ i, first ≤ i → before (i + 1) = before i + len i) (fuel : ℕ)
    {i n : ℕ} (hi : first ≤ i) (hn : before i + n < before (i + fuel)) :
    let r := locate len fuel i n
    before r.1 + r.2 = before i + n ∧ i ≤ r.1 ∧ r.1 < i + fuel ∧ r.2 < len r.1 := by
  induction fuel generalizing i n with
  | zero => exact absurd hn (by rw [Nat.add_zero]; omega)
  | succ fuel ih =>
    rw [locate]
    split_ifs with hlt
    · exact ⟨rfl, le_rfl, by omega, hlt⟩
    · have hnext := hstep i hi
      obtain ⟨hplace, hle, hfuel, hin⟩ := @ih (i + 1) (n - len i) (by omega) (by
        rw [hnext, show i + 1 + fuel = i + (fuel + 1) by omega]
        omega)
      exact ⟨by omega, by omega, by omega, hin⟩

end Locate

section Counts
variable {y m : ℕ}

theorem daysInYear_pos (y : ℕ) : 0 < daysInYear y := by
  unfold daysInYear
  split_ifs <;> decide

/-- Leap days by the rule of the fours, the hundreds and the four hundreds. -/
theorem daysInYear_eq (y : ℕ) : daysInYear y + (if y % 100 = 0 then 1 else 0) =
    365 + (if y % 4 = 0 then 1 else 0) + if y % 400 = 0 then 1 else 0 := by
  unfold daysInYear isLeap
  simp only [decide_eq_true_eq]
  split_ifs <;> omega

theorem div_succ (n k : ℕ) : (n + 1) / k = n / k + if (n + 1) % k = 0 then 1 else 0 := by
  rw [Nat.succ_div]
  simp only [Nat.dvd_iff_mod_eq_zero]

theorem daysBeforeYear_succ (hy : 1 ≤ y) :
    daysBeforeYear (y + 1) = daysBeforeYear y + daysInYear y := by
  obtain ⟨n, rfl⟩ : ∃ n, y = n + 1 := ⟨y - 1, by omega⟩
  have hle : n / 100 ≤ n / 4 := Nat.div_le_div_left (by decide) (by decide)
  have hyear := daysInYear_eq (n + 1)
  unfold daysBeforeYear
  rw [Nat.add_sub_cancel, Nat.add_sub_cancel, div_succ, div_succ, div_succ]
  generalize n / 4 = a at hle ⊢
  generalize n / 100 = b at hle ⊢
  split_ifs at hyear ⊢ <;> omega

theorem daysBeforeMonth_succ (hm : 1 ≤ m) :
    daysBeforeMonth y (m + 1) = daysBeforeMonth y m + daysInMonth y m := by
  obtain ⟨n, rfl⟩ : ∃ n, m = n + 1 := ⟨m - 1, by omega⟩
  unfold daysBeforeMonth
  rw [Nat.add_sub_cancel, Nat.add_sub_cancel, List.range'_1_concat, List.map_append, List.sum_append,
    List.map_singleton, List.sum_singleton, Nat.add_comm 1 n]

theorem daysBeforeMonth_thirteen (y : ℕ) : daysBeforeMonth y 13 = daysInYear y := by
  unfold daysBeforeMonth daysInYear daysInMonth
  cases isLeap y <;> decide

theorem le_daysBeforeYear (hy : 1 ≤ y) (n : ℕ) :
    daysBeforeYear y + n ≤ daysBeforeYear (y + n) := by
  induction n with
  | zero => exact le_rfl
  | succ n ih =>
    have hnext := daysBeforeYear_succ (y := y + n) (by omega)
    have hpos := daysInYear_pos (y + n)
    rw [← Nat.add_assoc, ← Nat.add_assoc, hnext]
    omega

theorem daysBeforeYear_mono {y' : ℕ} (hy : 1 ≤ y) (h : y ≤ y') :
    daysBeforeYear y ≤ daysBeforeYear y' := by
  obtain ⟨n, rfl⟩ := Nat.exists_eq_add_of_le h
  exact (Nat.le_add_right _ n).trans (le_daysBeforeYear hy n)

theorem daysBeforeMonth_mono {m' : ℕ} (hm : 1 ≤ m) (h : m ≤ m') :
    daysBeforeMonth y m ≤ daysBeforeMonth y m' := by
  induction m', h using Nat.le_induction with
  | base => exact le_rfl
  | succ m' hm' ih =>
    rw [daysBeforeMonth_succ (hm.trans hm')]
    exact ih.trans (Nat.le_add_right _ _)

end Counts

namespace Date

def key (d : Date) : ℕ ×ₗ ℕ ×ₗ ℕ := toLex (d.year, toLex (d.month, d.day))

theorem key_injective : Function.Injective key := by
  intro d d' h
  obtain ⟨hy, h⟩ := Prod.mk.inj (toLex_inj.mp h)
  obtain ⟨hm, hd⟩ := Prod.mk.inj (toLex_inj.mp h)
  exact Date.ext hy hm hd

/-- Dates in the order of years, months and days. -/
instance : LinearOrder Date := LinearOrder.lift' key key_injective

theorem lt_iff {d d' : Date} : d < d' ↔ d.year < d'.year ∨ (d.year = d'.year ∧
    (d.month < d'.month ∨ (d.month = d'.month ∧ d.day < d'.day))) := by
  change key d < key d' ↔ _
  rw [key, key, Prod.Lex.toLex_lt_toLex, Prod.Lex.toLex_lt_toLex]

theorem toOrdinal_pos (d : Date) : 1 ≤ d.toOrdinal := by
  have := d.day_mem
  rw [toOrdinal]
  omega

theorem toOrdinal_le_month (d : Date) :
    d.toOrdinal ≤ daysBeforeYear d.year + daysBeforeMonth d.year (d.month + 1) := by
  have := d.day_mem
  rw [toOrdinal, daysBeforeMonth_succ d.month_mem.1]
  omega

theorem toOrdinal_le_year (d : Date) : d.toOrdinal ≤ daysBeforeYear (d.year + 1) := by
  have hmonth := d.toOrdinal_le_month
  have hle := daysBeforeMonth_mono (y := d.year) (Nat.le_add_left 1 d.month)
    (show d.month + 1 ≤ 13 from Nat.succ_le_succ d.month_mem.2)
  rw [daysBeforeMonth_thirteen] at hle
  rw [daysBeforeYear_succ d.year_pos]
  omega

/-- Ordinals count the days in order. -/
theorem toOrdinal_strictMono : StrictMono toOrdinal := by
  intro d d' h
  have hpos := d'.day_mem.1
  rcases lt_iff.mp h with hy | ⟨hy, hm | ⟨hm, hd⟩⟩
  · have hle := d.toOrdinal_le_year.trans (daysBeforeYear_mono (Nat.le_add_left 1 _) hy)
    rw [toOrdinal.eq_1 d']
    omega
  · have hle := daysBeforeMonth_mono (y := d.year) (Nat.le_add_left 1 d.month) hm
    have hmonth := d.toOrdinal_le_month
    rw [toOrdinal.eq_1 d', ← hy]
    omega
  · rw [toOrdinal, toOrdinal, ← hy, ← hm]
    omega

theorem toOrdinal_le_iff {d d' : Date} : d.toOrdinal ≤ d'.toOrdinal ↔ d ≤ d' :=
  toOrdinal_strictMono.le_iff_le

theorem locate_year {n : ℕ} (hn : 1 ≤ n) :
    let r := locate daysInYear n 1 (n - 1)
    daysBeforeYear r.1 + r.2 = n - 1 ∧ 1 ≤ r.1 ∧ r.1 < 1 + n ∧ r.2 < daysInYear r.1 := by
  have hzero : daysBeforeYear 1 = 0 := rfl
  have h := locate_spec (fun _ => daysBeforeYear_succ) n (n := n - 1) le_rfl (by
    have := le_daysBeforeYear le_rfl n
    omega)
  rwa [hzero, Nat.zero_add] at h

theorem locate_month {y r : ℕ} (hr : r < daysInYear y) :
    let q := locate (daysInMonth y) 12 1 r
    daysBeforeMonth y q.1 + q.2 = r ∧ 1 ≤ q.1 ∧ q.1 < 13 ∧ q.2 < daysInMonth y q.1 := by
  have hzero : daysBeforeMonth y 1 = 0 := rfl
  have h := locate_spec (fun _ => daysBeforeMonth_succ (y := y)) 12 (n := r) le_rfl (by
    rw [hzero, Nat.zero_add, daysBeforeMonth_thirteen]
    exact hr)
  rwa [hzero, Nat.zero_add] at h

/-- The date of an ordinal, the first day for what is none. -/
def ofOrdinal (n : ℕ) : Date :=
  if hn : 1 ≤ n then
    let r := locate daysInYear n 1 (n - 1)
    let q := locate (daysInMonth r.1) 12 1 r.2
    { year := r.1
      month := q.1
      day := q.2 + 1
      year_pos := (locate_year hn).2.1
      month_mem := ⟨(locate_month (locate_year hn).2.2.2).2.1,
        Nat.lt_succ_iff.mp (locate_month (locate_year hn).2.2.2).2.2.1⟩
      day_mem := ⟨Nat.le_add_left 1 _, (locate_month (locate_year hn).2.2.2).2.2.2⟩ }
  else ⟨1, 1, 1, le_rfl, by decide, by decide⟩

theorem toOrdinal_ofOrdinal {n : ℕ} (hn : 1 ≤ n) : (ofOrdinal n).toOrdinal = n := by
  obtain ⟨hyear, -, -, hr⟩ := locate_year hn
  obtain ⟨hmonth, -⟩ := locate_month hr
  rw [ofOrdinal, dif_pos hn, toOrdinal]
  dsimp only
  omega

@[simp] theorem ofOrdinal_toOrdinal (d : Date) : ofOrdinal d.toOrdinal = d :=
  toOrdinal_strictMono.injective (toOrdinal_ofOrdinal d.toOrdinal_pos)

def days (first last : Date) : List Date :=
  (List.range' first.toOrdinal (last.toOrdinal + 1 - first.toOrdinal)).map ofOrdinal

theorem mem_days {first last d : Date} : d ∈ days first last ↔ first ≤ d ∧ d ≤ last := by
  have hpos := first.toOrdinal_pos
  rw [days, List.mem_map, ← toOrdinal_le_iff, ← toOrdinal_le_iff]
  constructor
  · rintro ⟨n, hn, rfl⟩
    rw [List.mem_range'_1] at hn
    rw [toOrdinal_ofOrdinal (by omega)]
    omega
  · intro h
    exact ⟨d.toOrdinal, List.mem_range'_1.mpr (by omega), ofOrdinal_toOrdinal d⟩

theorem days_sorted (first last : Date) : (days first last).Pairwise (· < ·) := by
  have hpos := first.toOrdinal_pos
  refine List.pairwise_map.mpr (List.Pairwise.imp_of_mem ?_ (List.pairwise_lt_range' 1))
  intro m n hm hn hlt
  rw [List.mem_range'_1] at hm hn
  rwa [← toOrdinal_strictMono.lt_iff_lt, toOrdinal_ofOrdinal (by omega),
    toOrdinal_ofOrdinal (by omega)]

end Date

end Chic.Calendar
