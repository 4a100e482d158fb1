import Mathlib.Algebra.Order.BigOperators.Group.List
import Mathlib.Order.Bounds.Basic

namespace Chic.PrefixSums

section
variable {α : Type*} [AddCommMonoid α] [LinearOrder α] [IsOrderedAddMonoid α]
  {bound bound' cum : α} {vs : List α}

/-- `n` is the length of the longest prefix that adds up to at most `bound`. -/
def LongestPrefix (vs : List α) (bound : α) (n : ℕ) : Prop :=
  IsGreatest {k | k ≤ vs.length ∧ (vs.take k).sum ≤ bound} n

/-- How many leading values keep a running sum that starts from `cum` within `bound`. -/
def fits (bound : α) : α → List α → ℕ
  | _, [] => 0
  | cum, v :: vs => if cum + v ≤ bound then fits bound (cum + v) vs + 1 else 0

omit [IsOrderedAddMonoid α] in
theorem fits_le_length (bound cum : α) (vs : List α) : fits bound cum vs ≤ vs.length := by
  induction vs generalizing cum with
  | nil => exact le_rfl
  | cons v vs ih =>
    rw [fits]
    split_ifs
    · exact Nat.succ_le_succ (ih _)
    · exact Nat.zero_le _

omit [IsOrderedAddMonoid α] in
theorem fits_mono (h : bound ≤ bound') (cum : α) (vs : List α) :
    fits bound cum vs ≤ fits bound' cum vs := by
  induction vs generalizing cum with
  | nil => exact le_rfl
  | cons v vs ih =>
    rw [fits, fits]
    by_cases hv : cum + v ≤ bound
    · rw [if_pos hv, if_pos (hv.trans h)]
      exact Nat.succ_le_succ (ih _)
    · rw [if_neg hv]
      exact Nat.zero_le _

/-- Past the bound nothing fits any more. -/
theorem fits_eq_zero (h : bound < cum) (hvs : ∀ v ∈ vs, 0 ≤ v) : fits bound cum vs = 0 := by
  cases vs with
  | nil => rfl
  | cons v vs =>
    have hv : cum ≤ cum + v := le_add_of_nonneg_right (hvs v List.mem_cons_self)
    rw [fits, if_neg (h.trans_le hv).not_ge]

theorem add_sum_take_le_iff (hcum : cum ≤ bound) (hvs : ∀ v ∈ vs, 0 ≤ v) {k : ℕ}
    (hk : k ≤ vs.length) : cum + (vs.take k).sum ≤ bound ↔ k ≤ fits bound cum vs := by
  induction vs generalizing cum k with
  | nil =>
    obtain rfl : k = 0 := Nat.le_zero.mp hk
    simpa [fits] using hcum
  | cons v vs ih =>
    have hvs' : ∀ v ∈ vs, 0 ≤ v := fun v hv => hvs v (List.mem_cons_of_mem _ hv)
    cases k with
    | zero => simpa using hcum
    | succ k =>
      rw [List.take_succ_cons, List.sum_cons, ← add_assoc, fits]
      split_ifs with hv
      · rw [ih hv hvs' (Nat.le_of_succ_le_succ hk), Nat.succ_le_succ_iff]
      · have hsum : 0 ≤ (vs.take k).sum :=
          List.sum_nonneg fun v hv => hvs' v (List.mem_of_mem_take hv)
        have hlt : bound < cum + v + (vs.take k).sum :=
          (not_le.mp hv).trans_le (le_add_of_nonneg_right hsum)
        exact iff_of_false hlt.not_ge (Nat.not_succ_le_zero k)

/-- Of values that are not negative the ones that fit are the longest prefix. -/
theorem longestPrefix_fits (hbound : 0 ≤ bound) (hvs : ∀ v ∈ vs, 0 ≤ v) :
    LongestPrefix vs bound (fits bound 0 vs) := by
  have hiff : ∀ k ≤ vs.length, (vs.take k).sum ≤ bound ↔ k ≤ fits bound 0 vs := by
    intro k hk
    rw [← add_sum_take_le_iff hbound hvs hk, zero_add]
  refine ⟨⟨fits_le_length _ _ _, ?_⟩, ?_⟩
  · exact (hiff _ (fits_le_length _ _ _)).mpr le_rfl
  · intro k hk
    exact (hiff k hk.1).mp hk.2

end

end Chic.PrefixSums
