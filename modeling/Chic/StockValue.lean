import Mathlib.Algebra.Order.BigOperators.Group.List
import Chic.Reports

namespace Chic.StockValue
open Money

def exactValue (r : StockRow) : ℚ := r.stock * r.price / 100

/-- Half a cent, and for each unit in stock what rounding takes off its price. -/
def allowance (r : StockRow) : ℚ := 1 / 200 + |r.stock| * |r.price - roundHalfUp r.price| / 100

theorem abs_moneyRound_sub_le (v : ℚ) : |moneyRound v - v| ≤ 1 / 200 := by
  have h := abs_sub_roundHalfUp_le (v * 100)
  rw [abs_sub_comm, moneyRound]
  rw [abs_le] at h ⊢
  constructor <;> linarith [h.1, h.2]

theorem minorToMajor_eq (minor : ℚ) : minorToMajor minor = roundHalfUp minor / 100 :=
  WholeCents.moneyRound_eq ⟨_, rfl⟩

section Row
variable (r : StockRow)

theorem stockValue_close :
    |(stockLine r).stockValue - r.stock * roundHalfUp r.price / 100| ≤ 1 / 200 := by
  have hvalue : (stockLine r).stockValue = moneyRound (r.stock * roundHalfUp r.price / 100) := by
    rw [stockLine, minorToMajor_eq, mul_div_assoc]
  rw [hvalue]
  exact abs_moneyRound_sub_le _

theorem stockValue_allowed : |(stockLine r).stockValue - exactValue r| ≤ allowance r := by
  have hprice : |r.stock * roundHalfUp r.price / 100 - exactValue r| =
      |r.stock| * |r.price - roundHalfUp r.price| / 100 := by
    rw [exactValue, ← sub_div, ← mul_sub, abs_div, abs_mul, abs_sub_comm (r.price)]
    norm_num
  rw [allowance, ← hprice]
  exact (abs_sub_le _ _ _).trans (add_le_add_left (stockValue_close r) _)

theorem allowance_le : allowance r ≤ (1 + |r.stock|) / 200 := by
  have h := mul_le_mul_of_nonneg_left (abs_sub_roundHalfUp_le r.price) (abs_nonneg r.stock)
  rw [allowance]
  linarith

theorem allowance_of_whole {k : ℤ} (h : r.price = k) : allowance r = 1 / 200 := by
  rw [allowance, h, roundHalfUp_intCast, sub_self, abs_zero, mul_zero, zero_div, add_zero]

end Row

theorem stockReport_stockValue (rows : List StockRow) (limit : ℤ) :
    (stockReport rows limit).totals.stockValue =
      (rows.map fun r => (stockLine r).stockValue).sum := by
  -- rounding the sum of rounded values changes nothing
  have hcents : WholeCents (rows.map fun r => (stockLine r).stockValue).sum := by
    apply wholeCents_sum
    intro v hv
    obtain ⟨r, -, rfl⟩ := List.mem_map.mp hv
    exact wholeCents_moneyRound _
  have hperm := ((perm_sortedDesc (·.stockValue) (stock rows)).map (·.stockValue)).sum_eq
  rw [stock, List.map_map] at hperm
  calc (stockReport rows limit).totals.stockValue
    _ = moneyRound ((sortedDesc (·.stockValue) (stock rows)).map (·.stockValue)).sum := rfl
    _ = moneyRound (rows.map fun r => (stockLine r).stockValue).sum := by rw [stock, hperm]; rfl
    _ = _ := hcents.moneyRound_eq

def cheapScrews : StockRow := ⟨"винт", "Винт", "", "", 2 / 5, 1, 1000, 0, 0, 0⟩

end Chic.StockValue
