import Chic.Dict

namespace Chic.Dict

variable {α κ ν : Type*} [DecidableEq κ] {key : α → κ} {init : κ → ν} {f : ν → α → ν}

/-- Each item is worked into the value of its key, which is there or begins with the item. -/
def put (key : α → κ) (init : κ → ν) (f : ν → α → ν) (d : Dict κ ν) (a : α) : Dict κ ν :=
  d.set (key a) (f ((d.get? (key a)).getD (init (key a))) a)

/-- Items grouped by key, the keys in the order in which they come first. -/
def group (key : α → κ) (init : κ → ν) (f : ν → α → ν) (as : List α) : Dict κ ν :=
  as.foldl (put key init f) empty

theorem mem_keys_foldl_put {as : List α} {d : Dict κ ν} {k : κ} :
    k ∈ (as.foldl (put key init f) d).keys ↔ k ∈ d.keys ∨ k ∈ as.map key := by
  induction as generalizing d with
  | nil => simp
  | cons a as ih =>
    rw [List.foldl_cons, ih, put, mem_keys_set, List.map_cons, List.mem_cons, or_left_comm,
      or_assoc]

variable (key init f) in
theorem mem_keys_group {as : List α} {k : κ} : k ∈ (group key init f as).keys ↔ k ∈ as.map key := by
  rw [group, mem_keys_foldl_put]
  exact or_iff_right List.not_mem_nil

variable (key init f) in
theorem getD_foldl_put (as : List α) (d : Dict κ ν) (k : κ) :
    ((as.foldl (put key init f) d).get? k).getD (init k) =
      (as.filter (key · = k)).foldl f ((d.get? k).getD (init k)) := by
  induction as generalizing d with
  | nil => rfl
  | cons a as ih =>
    rw [List.foldl_cons, ih, put, get?_set]
    by_cases h : key a = k
    · subst h
      rw [if_pos rfl, Option.getD_some, List.filter_cons_of_pos (by simp), List.foldl_cons]
    · rw [if_neg (Ne.symm h), List.filter_cons_of_neg (by simpa using h)]

/-- The value of a key is made of the items of that key alone, in their order. -/
theorem get?_group {as : List α} {k : κ} (h : k ∈ as.map key) :
    (group key init f as).get? k = some ((as.filter (key · = k)).foldl f (init k)) := by
  obtain ⟨v, hv⟩ := mem_keys_iff.mp ((mem_keys_group key init f).mpr h)
  have hvalue := getD_foldl_put key init f as empty k
  rw [← group, hv] at hvalue
  rw [hv]
  exact congrArg some hvalue

theorem values_eq (d : Dict κ ν) (default : κ → ν) :
    d.values = d.keys.map fun k => (d.get? k).getD (default k) := by
  rw [values, keys, List.map_map]
  refine List.map_congr_left fun e he => ?_
  rw [Function.comp_apply, mem_entries_iff.mp he, Option.getD_some]

theorem values_group (as : List α) : (group key init f as).values =
    (group key init f as).keys.map fun k => (as.filter (key · = k)).foldl f (init k) := by
  rw [values_eq _ init]
  refine List.map_congr_left fun k hk => ?_
  rw [get?_group ((mem_keys_group key init f).mp hk), Option.getD_some]

end Chic.Dict
