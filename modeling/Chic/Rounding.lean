import Mathlib.Algebra.BigOperators.Group.List.Basic
import Mathlib.Algebra.Order.Floor.Ring
import Mathlib.Data.Int.Cast.Lemmas
import Mathlib.Tactic.Linarith

namespace Chic

section
variable {α : Type*} [Field α] [LinearOrder α] [IsStrictOrderedRing α] [FloorRing α]

/-- Rounding to the nearest integer by magnitude, a tie away from zero. -/
def roundHalfUp (x : α) : ℤ :=
  let whole := ⌊|x|⌋
  let n := if 1 / 2 ≤ |x| - whole then whole + 1 else whole
  if 0 ≤ x then n else -n

theorem abs_sub_roundHalfUp_le (x : α) : |x - roundHalfUp x| ≤ 1 / 2 := by
  have hlo := Int.floor_le |x|
  have hhi := Int.lt_floor_add_one |x|
  rcases le_or_gt 0 x with hx | hx
  · rw [abs_of_nonneg hx] at hlo hhi
    simp only [roundHalfUp, if_pos hx, abs_of_nonneg hx]
    split_ifs <;> rw [abs_le] <;> push_cast <;> constructor <;> linarith
  · rw [abs_of_neg hx] at hlo hhi
    simp only [roundHalfUp, if_neg (not_le.mpr hx), abs_of_neg hx]
    split_ifs <;> rw [abs_le] <;> push_cast <;> constructor <;> linarith

@[simp] theorem roundHalfUp_zero : roundHalfUp (0 : α) = 0 := by
  have h : ¬ (2 : α) ≤ 0 := by norm_num
  simp [roundHalfUp, h]

theorem roundHalfUp_neg (x : α) : roundHalfUp (-x) = -roundHalfUp x := by
  rcases lt_trichotomy x 0 with hx | rfl | hx
  · have hx' : 0 ≤ -x := by linarith
    simp only [roundHalfUp, if_pos hx', if_neg (not_le.mpr hx), abs_neg, neg_neg]
  · simp
  · have hx' : ¬ 0 ≤ -x := by linarith
    simp only [roundHalfUp, if_pos hx.le, if_neg hx', abs_neg]

theorem roundHalfUp_intCast (n : ℤ) : roundHalfUp (n : α) = n := by
  have hnonneg : ∀ m : ℤ, 0 ≤ m → roundHalfUp (m : α) = m := by
    intro m hm
    have hm' : (0 : α) ≤ m := Int.cast_nonneg_iff.mpr hm
    have hhalf : ¬ (1 / 2 : α) ≤ 0 := not_le.mpr (by norm_num)
    simp only [roundHalfUp, abs_of_nonneg hm', Int.floor_intCast, sub_self, if_neg hhalf, if_pos hm']
  rcases le_total 0 n with hn | hn
  · exact hnonneg n hn
  · have h := hnonneg (-n) (by omega)
    rw [Int.cast_neg, roundHalfUp_neg] at h
    omega

omit [FloorRing α] in
/-- Errors of the terms add up. -/
theorem abs_sum_sub_sum_le {ι : Type*} {f g e : ι → α} (h : ∀ i, |f i - g i| ≤ e i) (is : List ι) :
    |(is.map f).sum - (is.map g).sum| ≤ (is.map e).sum := by
  induction is with
  | nil => simp
  | cons i is ih =>
    rw [List.map_cons, List.map_cons, List.map_cons, List.sum_cons, List.sum_cons, List.sum_cons,
      add_sub_add_comm]
    exact (abs_add_le _ _).trans (add_le_add (h i) ih)

/-- A sum that is zero before rounding is off by less than half a unit for each term after it:
with `n` terms it is at most `n / 2` in absolute value, and a whole number. -/
theorem abs_sum_roundHalfUp_le (xs : List α) (h : xs.sum = 0) :
    |(((xs.map roundHalfUp).sum : ℤ) : α)| ≤ xs.length / 2 := by
  have hsum := abs_sum_sub_sum_le (f := id) abs_sub_roundHalfUp_le xs
  have hcast : (xs.map fun x => (roundHalfUp x : α)).sum = (((xs.map roundHalfUp).sum : ℤ) : α) := by
    have hhom := map_list_sum (Int.castAddHom α) (xs.map roundHalfUp)
    rw [List.map_map] at hhom
    exact hhom.symm
  have hhalves : (xs.map fun _ => (1 / 2 : α)).sum = xs.length / 2 := by
    rw [List.map_const', List.sum_replicate, nsmul_eq_mul, mul_one_div]
  rwa [List.map_id, h, zero_sub, abs_neg, hcast, hhalves] at hsum

def roundHalfEven (x : α) : ℤ :=
  let whole := ⌊x⌋
  if x - whole < 1 / 2 then whole
  else if 1 / 2 < x - whole then whole + 1
  else if whole % 2 = 0 then whole
  else whole + 1

/-- Conversion to an integer drops the fraction, towards zero. -/
def truncToInt (x : α) : ℤ := if 0 ≤ x then ⌊x⌋ else ⌈x⌉

theorem truncToInt_mono {x y : α} (h : x ≤ y) : truncToInt x ≤ truncToInt y := by
  unfold truncToInt
  split_ifs with hx hy hy
  · exact Int.floor_le_floor h
  · linarith
  · have h1 : ⌈x⌉ ≤ 0 := Int.ceil_le.mpr (by push_cast; linarith)
    exact h1.trans (Int.floor_nonneg.mpr hy)
  · exact Int.ceil_le_ceil h

theorem lt_of_truncToInt_lt {x y : α} (h : truncToInt x < truncToInt y) : x < y :=
  lt_of_not_ge fun hle => (truncToInt_mono hle).not_gt h

end

end Chic
