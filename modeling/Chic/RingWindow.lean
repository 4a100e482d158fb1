import Mathlib.Data.List.DropRight
import Mathlib.Data.List.Rotate

namespace Chic.RingWindow
open List

variable {α : Type*}

/-- What a ring of `n` cells, blank at first, holds after a log has been written to it. -/
def window (blank : α) (n : ℕ) (log : List α) : List α :=
  (replicate n blank ++ log).drop log.length

section Window
variable {blank x : α} {n : ℕ} {log : List α}

@[simp] theorem window_nil (blank : α) (n : ℕ) : window blank n [] = replicate n blank := by
  simp [window]

@[simp] theorem length_window : (window blank n log).length = n := by
  simp [window]

theorem window_eq :
    window blank n log = replicate (n - log.length) blank ++ log.rtake n := by
  rw [window, drop_append, drop_replicate, length_replicate, rtake]

theorem window_concat (hn : 0 < n) :
    window blank n (log ++ [x]) = (window blank n log).tail ++ [x] := by
  have hle : log.length + 1 ≤ (replicate n blank ++ log).length := by
    rw [length_append, length_replicate]
    omega
  rw [window, window, ← append_assoc, length_append, length_singleton, tail_drop,
    drop_append_of_le_length hle]

theorem filter_window [DecidableEq α] (h : ∀ x ∈ log, x ≠ blank) :
    (window blank n log).filter (· ≠ blank) = log.rtake n := by
  have hblanks : (replicate (n - log.length) blank).filter (· ≠ blank) = [] := by
    refine filter_eq_nil_iff.mpr fun x hx => ?_
    simp [eq_of_mem_replicate hx]
  have hlast : (log.rtake n).filter (· ≠ blank) = log.rtake n := by
    refine filter_eq_self.mpr fun x hx => ?_
    exact decide_eq_true (h x (mem_of_mem_drop hx))
  rw [window_eq, filter_append, hblanks, hlast, nil_append]

end Window

section Ring
variable {cells : List α} {i : ℕ}

/-- The cell under the cursor holds the oldest entry. -/
theorem rotate_eq_cons (h : i < cells.length) :
    ∃ old rest, cells[i]? = some old ∧ cells.rotate i = old :: rest := by
  refine ⟨cells[i], cells.drop (i + 1) ++ cells.take i, getElem?_eq_getElem h, ?_⟩
  rw [rotate_eq_drop_append_take h.le, drop_eq_getElem_cons h, cons_append]

/-- Writing at the cursor and moving on drops the oldest entry and adds the new one. -/
theorem rotate_set (h : i < cells.length) (x : α) :
    (cells.set i x).rotate ((i + 1) % cells.length) = (cells.rotate i).tail ++ [x] := by
  have hlen : (cells.set i x).length = cells.length := length_set
  have hdrop : (cells.set i x).drop (i + 1) = cells.drop (i + 1) :=
    drop_set_of_lt (Nat.lt_succ_self i)
  have htake : (cells.set i x).take (i + 1) = cells.take i ++ [x] := by
    rw [take_succ_eq_append_getElem (by omega), take_set_of_le le_rfl, getElem_set_self]
  rw [← hlen, rotate_mod, rotate_eq_drop_append_take (by omega), hdrop, htake,
    rotate_eq_drop_append_take h.le, drop_eq_getElem_cons h, cons_append, tail_cons, append_assoc]

end Ring

end Chic.RingWindow
