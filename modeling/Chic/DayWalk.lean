import Mathlib.Algebra.Order.Ring.Int
import Mathlib.Data.List.Range
import Mathlib.Tactic.Ring
import Chic.While

namespace Chic
open While

variable {α : Type*}

/-- The days from `start` to `last`, both included, as ordinals. -/
def dayRange (start last : ℤ) : List ℤ :=
  (List.range (last - start + 1).toNat).map fun i : ℕ => start + i

theorem mem_dayRange {start last d : ℤ} : d ∈ dayRange start last ↔ start ≤ d ∧ d ≤ last := by
  unfold dayRange
  rw [List.mem_map]
  refine ⟨?_, fun h => ⟨(d - start).toNat, List.mem_range.mpr (by omega), by omega⟩⟩
  intro h
  obtain ⟨i, hi, rfl⟩ := h
  have := List.mem_range.mp hi
  omega

theorem dayRange_sorted (start last : ℤ) : (dayRange start last).Pairwise (· < ·) := by
  refine List.pairwise_map.mpr (List.pairwise_lt_range.imp ?_)
  intro i j hij
  omega

theorem dayRange_cons {start last : ℤ} (h : start ≤ last) :
    dayRange start last = start :: dayRange (start + 1) last := by
  have hlen : (last - start + 1).toNat = (last - (start + 1) + 1).toNat + 1 := by omega
  unfold dayRange
  rw [hlen, List.range_succ_eq_map, List.map_cons, List.map_map]
  congr 1
  · simp
  · apply List.map_congr_left
    intro i _
    simp only [Function.comp_apply, Nat.succ_eq_add_one, Nat.cast_add, Nat.cast_one]
    ring

theorem dayRange_eq_nil {start last : ℤ} (h : last < start) : dayRange start last = [] := by
  have hlen : (last - start + 1).toNat = 0 := by omega
  rw [dayRange, hlen]
  rfl

theorem dayRange_eq_nil_iff {start last : ℤ} : dayRange start last = [] ↔ last < start := by
  refine ⟨?_, dayRange_eq_nil⟩
  intro h
  by_contra hle
  rw [dayRange_cons (not_lt.mp hle)] at h
  cases h

/-- The body of `while day <= end`: what a day adds, then the next day. -/
def dayWalk (visit : ℤ → List α) (last : ℤ) : ℤ × List α → (ℤ × List α) ⊕ List α
  | (day, out) => if day ≤ last then .inl (day + 1, out ++ visit day) else .inr out

theorem loop_dayWalk (visit : ℤ → List α) (start last : ℤ) (out : List α) :
    loop (dayWalk visit last) ((last - start + 1).toNat + 1) (start, out) =
      some (out ++ (dayRange start last).flatMap visit) := by
  induction hn : (last - start + 1).toNat generalizing start out with
  | zero =>
    have hlt : last < start := by omega
    have hstop : dayWalk visit last (start, out) = .inr out := if_neg (not_le.mpr hlt)
    rw [dayRange_eq_nil hlt, loop_succ_inr hstop, List.flatMap_nil, List.append_nil]
  | succ n ih =>
    have hle : start ≤ last := by omega
    have hagain : dayWalk visit last (start, out) = .inl (start + 1, out ++ visit start) :=
      if_pos hle
    rw [loop_succ_inl hagain, ih _ _ (by omega), dayRange_cons hle, List.flatMap_cons,
      List.append_assoc]

def walkDays (visit : ℤ → List α) (start last : ℤ) : List α :=
  (loop (dayWalk visit last) ((last - start + 1).toNat + 1) (start, [])).getD []

theorem walkDays_eq (visit : ℤ → List α) (start last : ℤ) :
    walkDays visit start last = (dayRange start last).flatMap visit := by
  rw [walkDays, loop_dayWalk, Option.getD_some, List.nil_append]

theorem walkDays_returns (visit : ℤ → List α) (start last : ℤ) :
    Returns (dayWalk visit last) (start, []) (walkDays visit start last) :=
  ⟨_, by rw [loop_dayWalk, walkDays_eq, List.nil_append]⟩

end Chic
