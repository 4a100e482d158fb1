import Mathlib.Algebra.BigOperators.Ring.List
import Mathlib.Data.Rat.Floor
import Mathlib.Tactic.Ring
import Chic.Rounding

namespace Chic.Money

/-- `quantize(0.01, ROUND_HALF_UP)`. Decimals are exact rationals here, so `dec` is silent. -/
def moneyRound (v : ℚ) : ℚ := roundHalfUp (v * 100) / 100

/-- Minor units to major units; fractional minor units are rounded to whole ones first. -/
def minorToMajor (minor : ℚ) : ℚ :=
  let whole : ℚ := roundHalfUp minor
  moneyRound (whole / 100)

def roundHalfAway (x : ℚ) : ℤ := if 0 ≤ x then ⌊x + 1 / 2⌋ else ⌈x - 1 / 2⌉

def round2 (v : ℚ) : ℚ := roundHalfAway (v * 100) / 100

def marginPct (profit revenue : ℚ) : ℚ :=
  if revenue = 0 then 0 else round2 (profit / revenue * 100)

theorem roundHalfAway_mono {x y : ℚ} (h : x ≤ y) : roundHalfAway x ≤ roundHalfAway y := by
  unfold roundHalfAway
  split_ifs with hx hy hy
  · exact Int.floor_le_floor (by linarith)
  · exact (hy (hx.trans h)).elim
  · have hneg : ⌈x - 1 / 2⌉ ≤ 0 := Int.ceil_le.mpr (by push_cast; linarith)
    exact hneg.trans (Int.floor_nonneg.mpr (by linarith))
  · exact Int.ceil_le_ceil (by linarith)

theorem round2_mono : Monotone round2 := by
  intro x y h
  have hround := roundHalfAway_mono (show x * 100 ≤ y * 100 by linarith)
  exact div_le_div_of_nonneg_right (Int.cast_le.mpr hround) (by norm_num)

theorem roundHalfAway_pos_iff (x : ℚ) : 0 < roundHalfAway x ↔ 1 / 2 ≤ x := by
  unfold roundHalfAway
  split_ifs with hx
  · rw [Int.floor_pos]
    constructor <;> intro h <;> linarith
  · have hneg : ⌈x - 1 / 2⌉ ≤ 0 := Int.ceil_le.mpr (by push_cast; linarith)
    exact iff_of_false hneg.not_gt (by linarith)

theorem roundHalfAway_neg_iff (x : ℚ) : roundHalfAway x < 0 ↔ x ≤ -1 / 2 := by
  unfold roundHalfAway
  split_ifs with hx
  · have hpos : 0 ≤ ⌊x + 1 / 2⌋ := Int.floor_nonneg.mpr (by linarith)
    exact iff_of_false hpos.not_gt (by linarith)
  · rw [← Int.le_sub_one_iff, Int.ceil_le]
    push_cast
    constructor <;> intro h <;> linarith

theorem round2_pos_iff (v : ℚ) : 0 < round2 v ↔ 1 / 200 ≤ v := by
  rw [round2, div_pos_iff_of_pos_right (by norm_num), Int.cast_pos, roundHalfAway_pos_iff]
  constructor <;> intro h <;> linarith

theorem round2_neg_iff (v : ℚ) : round2 v < 0 ↔ v ≤ -1 / 200 := by
  rw [round2, div_lt_iff₀ (by norm_num), zero_mul, Int.cast_lt_zero, roundHalfAway_neg_iff]
  constructor <;> intro h <;> linarith

theorem round2_eq_zero_iff (v : ℚ) : round2 v = 0 ↔ |v| < 1 / 200 := by
  rw [← not_iff_not, ← ne_eq, ne_iff_lt_or_gt, round2_neg_iff, not_lt, le_abs']
  refine or_congr ?_ (round2_pos_iff v)
  rw [neg_div]

/-- Both roundings take a tie away from zero. -/
theorem roundHalfUp_eq_roundHalfAway (x : ℚ) : roundHalfUp x = roundHalfAway x := by
  have hnonneg : ∀ y : ℚ, 0 ≤ y → roundHalfUp y = ⌊y + 1 / 2⌋ := by
    intro y hy
    have hlo := Int.floor_le y
    have hhi := Int.lt_floor_add_one y
    simp only [roundHalfUp, abs_of_nonneg hy, if_pos hy]
    split_ifs with hhalf <;> symm <;> rw [Int.floor_eq_iff] <;> push_cast <;>
      constructor <;> linarith
  by_cases hx : 0 ≤ x
  · rw [hnonneg x hx, roundHalfAway, if_pos hx]
  · have hneg := hnonneg (-x) (by linarith)
    rw [roundHalfUp_neg] at hneg
    rw [roundHalfAway, if_neg hx, ← neg_neg (roundHalfUp x), hneg, ← Int.ceil_neg, neg_add, neg_neg,
      ← sub_eq_add_neg]

theorem roundHalfAway_neg (x : ℚ) : roundHalfAway (-x) = -roundHalfAway x := by
  rw [← roundHalfUp_eq_roundHalfAway, ← roundHalfUp_eq_roundHalfAway, roundHalfUp_neg]

theorem roundHalfAway_intCast (n : ℤ) : roundHalfAway n = n := by
  rw [← roundHalfUp_eq_roundHalfAway, roundHalfUp_intCast]

theorem moneyRound_eq_round2 (v : ℚ) : moneyRound v = round2 v := by
  rw [moneyRound, roundHalfUp_eq_roundHalfAway, round2]

theorem moneyRound_mono : Monotone moneyRound := by
  intro x y h
  rw [moneyRound_eq_round2, moneyRound_eq_round2]
  exact round2_mono h

def WholeCents (v : ℚ) : Prop := ∃ cents : ℤ, v = cents / 100

theorem wholeCents_moneyRound (v : ℚ) : WholeCents (moneyRound v) := ⟨_, rfl⟩

theorem wholeCents_minorToMajor (v : ℚ) : WholeCents (minorToMajor v) := wholeCents_moneyRound _

theorem WholeCents.moneyRound_eq {v : ℚ} (h : WholeCents v) : moneyRound v = v := by
  obtain ⟨cents, rfl⟩ := h
  rw [moneyRound, div_mul_cancel₀ _ (by norm_num), roundHalfUp_intCast]

theorem wholeCents_zero : WholeCents 0 := ⟨0, by simp⟩

theorem WholeCents.add {v w : ℚ} (hv : WholeCents v) (hw : WholeCents w) : WholeCents (v + w) := by
  obtain ⟨cents, rfl⟩ := hv
  obtain ⟨cents', rfl⟩ := hw
  refine ⟨cents + cents', ?_⟩
  rw [Int.cast_add]
  ring

theorem WholeCents.sub {v w : ℚ} (hv : WholeCents v) (hw : WholeCents w) : WholeCents (v - w) := by
  obtain ⟨cents, rfl⟩ := hv
  obtain ⟨cents', rfl⟩ := hw
  refine ⟨cents - cents', ?_⟩
  rw [Int.cast_sub]
  ring

theorem wholeCents_sum {vs : List ℚ} (h : ∀ v ∈ vs, WholeCents v) : WholeCents vs.sum := by
  induction vs with
  | nil => exact wholeCents_zero
  | cons v vs ih =>
    obtain ⟨hv, hvs⟩ := List.forall_mem_cons.mp h
    rw [List.sum_cons]
    exact hv.add (ih hvs)

theorem moneyRound_neg (v : ℚ) : moneyRound (-v) = -moneyRound v := by
  rw [moneyRound, neg_mul, roundHalfUp_neg, Int.cast_neg, neg_div, moneyRound]

theorem roundHalfAway_eq_iff (x : ℚ) (n : ℤ) :
    roundHalfAway x = n ↔
      |x - n| < 1 / 2 ∨ (0 < x ∧ x - n = -1 / 2) ∨ (x < 0 ∧ x - n = 1 / 2) := by
  rw [abs_lt]
  unfold roundHalfAway
  split_ifs with hx
  · rw [Int.floor_eq_iff]
    constructor
    · rintro ⟨hlo, hhi⟩
      rcases hlo.eq_or_lt with heq | hlt
      · refine .inr (.inl ⟨hx.lt_of_ne fun hzero => ?_, by linarith⟩)
        -- no whole number is a half away from zero
        have htwice : (2 * n : ℚ) = 1 := by linarith
        have : 2 * n = 1 := by exact_mod_cast htwice
        omega
      · exact .inl ⟨by linarith, by linarith⟩
    · rintro (h | h | h) <;> constructor <;> linarith [h.1, h.2]
  · rw [Int.ceil_eq_iff]
    constructor
    · rintro ⟨hlo, hhi⟩
      rcases hhi.eq_or_lt with heq | hlt
      · exact .inr (.inr ⟨not_le.mp hx, by linarith⟩)
      · exact .inl ⟨by linarith, by linarith⟩
    · rintro (h | h | h) <;> constructor <;> linarith [h.1, h.2]

/-- An amount is rounded to the whole cents that are less than half a cent away, or half a cent
and away from zero. -/
theorem moneyRound_eq_iff (v : ℚ) {c : ℚ} (hc : WholeCents c) :
    moneyRound v = c ↔
      |v - c| < 1 / 200 ∨ (0 < v ∧ v - c = -1 / 200) ∨ (v < 0 ∧ v - c = 1 / 200) := by
  obtain ⟨cents, rfl⟩ := hc
  have hsmall : |v - cents / 100| < 1 / 200 ↔ |v * 100 - cents| < 1 / 2 := by
    rw [abs_lt, abs_lt]
    constructor <;> rintro ⟨hlo, hhi⟩ <;> constructor <;> linarith
  have hdiv : moneyRound v = cents / 100 ↔ roundHalfAway (v * 100) = cents := by
    rw [moneyRound_eq_round2, round2, div_left_inj' (by norm_num), Int.cast_inj]
  rw [hdiv, roundHalfAway_eq_iff, hsmall]
  refine or_congr_right (or_congr ?_ ?_)
  · constructor <;> rintro ⟨hsign, htie⟩ <;> constructor <;> linarith
  · constructor <;> rintro ⟨hsign, htie⟩ <;> constructor <;> linarith

/-- Rounding the terms of a vanishing sum leaves at most half a cent for each of them, in
whole cents. -/
theorem sum_moneyRound (vs : List ℚ) (h : vs.sum = 0) :
    ∃ cents : ℤ, (vs.map moneyRound).sum = cents / 100 ∧ 2 * |cents| ≤ vs.length := by
  refine ⟨((vs.map (· * 100)).map roundHalfUp).sum, ?_, ?_⟩
  · clear h
    induction vs with
    | nil => simp
    | cons v vs ih =>
      simp only [List.map_cons, List.sum_cons, Int.cast_add, ih, moneyRound]
      ring
  · have hs : (vs.map (· * 100)).sum = 0 := by
      rw [List.sum_map_mul_right, List.map_id', h, zero_mul]
    have hb := abs_sum_roundHalfUp_le _ hs
    rw [List.length_map, ← Int.cast_abs] at hb
    have hb' : ((2 * |((vs.map (· * 100)).map roundHalfUp).sum| : ℤ) : ℚ) ≤ (vs.length : ℤ) := by
      push_cast at hb ⊢
      linarith
    exact_mod_cast hb'

end Chic.Money
