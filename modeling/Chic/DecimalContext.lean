import Chic.Decimal
import Chic.Guardrail

namespace Chic.Guardrail
open Decimal

/-- A number of at most 28 significant digits. -/
def Exact (x : ℚ) : Prop := ∃ c e : ℤ, x = c * 10 ^ e ∧ |c| < 10 ^ 28

section
variable {x y : ℚ}

theorem contextRound_eq_roundTo (x : ℚ) : contextRound x = roundTo 28 x := by
  rw [roundTo, show Int.log 10 |x| + 1 - ((28 : ℕ) : ℤ) = Int.log 10 |x| - 27 by push_cast; ring]
  rfl

namespace Exact

theorem neg (h : Exact x) : Exact (-x) := by
  obtain ⟨c, e, rfl, hc⟩ := h
  exact ⟨-c, e, by push_cast; ring, by rwa [abs_neg]⟩

theorem abs (h : Exact x) : Exact |x| := by
  rcases abs_choice x with hx | hx
  · rwa [hx]
  · rw [hx]
    exact h.neg

theorem mul_zpow (h : Exact x) (k : ℤ) : Exact (x * 10 ^ k) := by
  obtain ⟨c, e, rfl, hc⟩ := h
  exact ⟨c, e + k, by rw [zpow_add₀ (by norm_num), mul_assoc], hc⟩

theorem contextRound_eq (h : Exact x) : contextRound x = x := by
  obtain ⟨c, e, rfl, hc⟩ := h
  rw [contextRound_eq_roundTo, roundTo_eq_self hc e]

end Exact

theorem exact_natCast_div (n : ℕ) (hn : n < 10 ^ 28) (e : ℕ) : Exact (n / 10 ^ e) := by
  refine ⟨n, -e, ?_, ?_⟩
  · rw [zpow_neg, zpow_natCast, div_eq_mul_inv]
    rfl
  · rw [Nat.abs_cast]
    exact_mod_cast hn

theorem exact_natCast {n : ℕ} (hn : n < 10 ^ 28) : Exact n := by
  have h := exact_natCast_div n hn 0
  rwa [pow_zero, div_one] at h

theorem contextRound_mono (hx : 0 ≤ x) (h : x ≤ y) : contextRound x ≤ contextRound y := by
  rw [contextRound_eq_roundTo, contextRound_eq_roundTo]
  exact roundTo_mono (by norm_num) hx h

theorem exact_contextRound (hx : 0 ≤ x) : Exact (contextRound x) := by
  rw [contextRound_eq_roundTo]
  exact exists_roundTo_eq (by norm_num) hx

end

end Chic.Guardrail
