import Mathlib.Data.List.Nodup
import Mathlib.Logic.Function.Basic
import Mathlib.Tactic.Common

namespace Chic.PartialWrites

variable {κ ν : Type*} [DecidableEq κ]

def writeAll (f : κ → ν) (ws : List (κ × ν)) : κ → ν :=
  ws.foldl (fun f w => Function.update f w.1 w.2) f

/-- However many of the writes are done, the cells are as before or as after all of them. -/
def AllOrNothing (f : κ → ν) (ws : List (κ × ν)) : Prop :=
  ∀ n, writeAll f (ws.take n) = f ∨ writeAll f (ws.take n) = writeAll f ws

/-- The number of writes that change their cell. -/
def changes [DecidableEq ν] (f : κ → ν) (ws : List (κ × ν)) : ℕ := ws.countP fun w => f w.1 ≠ w.2

section
variable {f : κ → ν} {w : κ × ν} {ws : List (κ × ν)}

theorem writeAll_cons : writeAll f (w :: ws) = writeAll (Function.update f w.1 w.2) ws := rfl

theorem writeAll_append (f : κ → ν) (ws ws' : List (κ × ν)) :
    writeAll f (ws ++ ws') = writeAll (writeAll f ws) ws' := List.foldl_append

theorem writeAll_of_not_mem {k : κ} (h : k ∉ ws.map Prod.fst) : writeAll f ws k = f k := by
  induction ws generalizing f with
  | nil => rfl
  | cons w ws ih =>
    rw [List.map_cons, List.mem_cons, not_or] at h
    rw [writeAll_cons, ih h.2, Function.update_of_ne h.1]

theorem writeAll_of_mem (hkeys : (ws.map Prod.fst).Nodup) (hw : w ∈ ws) :
    writeAll f ws w.1 = w.2 := by
  induction ws generalizing f with
  | nil => cases hw
  | cons w' ws ih =>
    rw [List.map_cons, List.nodup_cons] at hkeys
    rw [writeAll_cons]
    rcases List.mem_cons.mp hw with rfl | hw
    · rw [writeAll_of_not_mem hkeys.1, Function.update_self]
    · exact ih hkeys.2 hw

variable [DecidableEq ν]

omit [DecidableEq κ] in
theorem changes_eq_zero_iff : changes f ws = 0 ↔ ∀ w ∈ ws, f w.1 = w.2 := by
  simp [changes, List.countP_eq_zero]

theorem writeAll_eq_self (h : changes f ws = 0) : writeAll f ws = f := by
  rw [changes_eq_zero_iff] at h
  induction ws with
  | nil => rfl
  | cons w ws ih =>
    have hw : Function.update f w.1 w.2 = f := by
      rw [← h w List.mem_cons_self, Function.update_eq_self]
    rw [writeAll_cons, hw]
    exact ih fun w' hw' => h w' (List.mem_cons_of_mem _ hw')

/-- The writes before do not touch the cells of those after. -/
theorem changes_writeAll {ws' : List (κ × ν)} (hkeys : ((ws ++ ws').map Prod.fst).Nodup) :
    changes (writeAll f ws) ws' = changes f ws' := by
  rw [List.map_append, List.nodup_append] at hkeys
  apply List.countP_congr
  intro w hw
  have hnot : w.1 ∉ ws.map Prod.fst := fun hmem =>
    hkeys.2.2 w.1 hmem w.1 (List.mem_map_of_mem hw) rfl
  rw [writeAll_of_not_mem hnot]

omit [DecidableEq ν] in
theorem allOrNothing_cons_of_eq (hw : f w.1 = w.2) :
    AllOrNothing f (w :: ws) → AllOrNothing f ws := by
  have hsame : Function.update f w.1 w.2 = f := by rw [← hw, Function.update_eq_self]
  intro h n
  have := h (n + 1)
  rwa [List.take_succ_cons, writeAll_cons, writeAll_cons, hsame] at this

/-- When the first write alone is not nothing, it is all. -/
theorem changes_of_cons_ne (hkeys : ((w :: ws).map Prod.fst).Nodup) (hw : f w.1 ≠ w.2)
    (h : AllOrNothing f (w :: ws)) : changes f ws = 0 := by
  rw [List.map_cons, List.nodup_cons] at hkeys
  have hall : Function.update f w.1 w.2 = writeAll f (w :: ws) := by
    refine (h 1).resolve_left fun hsame => hw ?_
    have := congrFun hsame w.1
    rw [List.take_one] at this
    exact this.symm.trans (Function.update_self _ _ _)
  rw [changes_eq_zero_iff]
  intro w' hw'
  have hne : w'.1 ≠ w.1 := fun heq => hkeys.1 (heq ▸ List.mem_map_of_mem hw')
  have := congrFun hall w'.1
  rw [Function.update_of_ne hne, writeAll_cons, writeAll_of_mem hkeys.2 hw'] at this
  exact this

theorem changes_le_one (hkeys : (ws.map Prod.fst).Nodup) (h : AllOrNothing f ws) :
    changes f ws ≤ 1 := by
  induction ws with
  | nil => exact Nat.zero_le 1
  | cons w ws ih =>
    by_cases hw : f w.1 = w.2
    · have hcount : changes f (w :: ws) = changes f ws :=
        List.countP_cons_of_neg (by simpa using hw)
      rw [hcount]
      exact ih (List.nodup_cons.mp hkeys).2 (allOrNothing_cons_of_eq hw h)
    · have hcount : changes f (w :: ws) = changes f ws + 1 :=
        List.countP_cons_of_pos (by simpa using hw)
      have hrest := changes_of_cons_ne hkeys hw h
      omega

/-- Independent writes cut short anywhere are all or nothing exactly when at most one of them
changes anything. -/
theorem allOrNothing_iff (hkeys : (ws.map Prod.fst).Nodup) :
    AllOrNothing f ws ↔ changes f ws ≤ 1 := by
  refine ⟨changes_le_one hkeys, ?_⟩
  intro h n
  have hsplit : changes f (ws.take n) + changes f (ws.drop n) = changes f ws := by
    rw [changes, changes, ← List.countP_append, List.take_append_drop]
    rfl
  by_cases hdone : changes f (ws.take n) = 0
  · exact .inl (writeAll_eq_self hdone)
  · refine .inr ?_
    have hrest : changes (writeAll f (ws.take n)) (ws.drop n) = 0 := by
      rw [changes_writeAll (by rwa [List.take_append_drop])]
      omega
    rw [← writeAll_eq_self hrest, ← writeAll_append, List.take_append_drop]

end

end Chic.PartialWrites
