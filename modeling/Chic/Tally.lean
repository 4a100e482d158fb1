import Chic.Dict

namespace Chic.Dict

variable {κ ν : Type*} [DecidableEq κ] [AddCommMonoid ν]

/-- `d.get(k, 0)`. -/
def amount (d : Dict κ ν) (k : κ) : ν := (d.get? k).getD 0

/-- `d[k] = d.get(k, 0) + v`. -/
def add (d : Dict κ ν) (k : κ) (v : ν) : Dict κ ν := d.set k (d.amount k + v)

/-- The values of each key added up, the keys in the order in which they come first. -/
def tally (pairs : List (κ × ν)) : Dict κ ν := pairs.foldl (fun d p => d.add p.1 p.2) empty

def sumOf (pairs : List (κ × ν)) (k : κ) : ν := ((pairs.filter (·.1 = k)).map Prod.snd).sum

variable {d : Dict κ ν} {pairs pairs' : List (κ × ν)} {k k' : κ} {v : ν}

@[simp] theorem amount_empty (k : κ) : (empty : Dict κ ν).amount k = 0 := rfl

theorem amount_eq_zero (h : k ∉ d.keys) : d.amount k = 0 := by
  rw [amount, not_mem_keys_iff.mp h, Option.getD_none]

theorem amount_of_mem_entries (h : (k, v) ∈ d.entries) : d.amount k = v := by
  rw [amount, mem_entries_iff.mp h, Option.getD_some]

theorem amount_add (d : Dict κ ν) (k k' : κ) (v : ν) :
    (d.add k v).amount k' = d.amount k' + if k = k' then v else 0 := by
  by_cases h : k' = k
  · rw [h, if_pos rfl, amount, add, get?_set_self, Option.getD_some]
  · rw [if_neg (Ne.symm h), add_zero, amount, add, get?_set_of_ne _ _ h, amount]

theorem mem_keys_add : k' ∈ (d.add k v).keys ↔ k' = k ∨ k' ∈ d.keys := mem_keys_set

theorem sum_upsert_add (k : κ) (v : ν) (es : List (κ × ν)) :
    ((upsert k ((lookup k es).getD 0 + v) es).map Prod.snd).sum = (es.map Prod.snd).sum + v := by
  induction es with
  | nil => simp [upsert, lookup]
  | cons e es ih =>
    obtain ⟨k₀, v₀⟩ := e
    by_cases h : k₀ = k
    · simp only [upsert, lookup, if_pos h, List.map_cons, List.sum_cons, Option.getD_some]
      exact add_right_comm v₀ v _
    · simp only [upsert, lookup, if_neg h, List.map_cons, List.sum_cons, ih, add_assoc]

theorem sum_values_add (d : Dict κ ν) (k : κ) (v : ν) :
    (d.add k v).values.sum = d.values.sum + v :=
  sum_upsert_add k v d.entries

theorem sumOf_cons (p : κ × ν) (pairs : List (κ × ν)) (k : κ) :
    sumOf (p :: pairs) k = (if p.1 = k then p.2 else 0) + sumOf pairs k := by
  by_cases h : p.1 = k
  · rw [sumOf, List.filter_cons_of_pos (by simpa using h), if_pos h, List.map_cons, List.sum_cons]
    rfl
  · rw [sumOf, List.filter_cons_of_neg (by simpa using h), if_neg h, zero_add]
    rfl

theorem sumOf_perm (h : pairs.Perm pairs') (k : κ) : sumOf pairs k = sumOf pairs' k :=
  ((h.filter _).map _).sum_eq

theorem amount_foldl_add (pairs : List (κ × ν)) (d : Dict κ ν) (k : κ) :
    (pairs.foldl (fun d p => d.add p.1 p.2) d).amount k = d.amount k + sumOf pairs k := by
  induction pairs generalizing d with
  | nil => exact (add_zero _).symm
  | cons p pairs ih => rw [List.foldl_cons, ih, amount_add, sumOf_cons, add_assoc]

theorem amount_tally (pairs : List (κ × ν)) (k : κ) : (tally pairs).amount k = sumOf pairs k := by
  rw [tally, amount_foldl_add, amount_empty, zero_add]

theorem mem_keys_foldl_add : k ∈ (pairs.foldl (fun d p => d.add p.1 p.2) d).keys ↔
    k ∈ d.keys ∨ k ∈ pairs.map Prod.fst := by
  induction pairs generalizing d with
  | nil => simp
  | cons p pairs ih =>
    rw [List.foldl_cons, ih, mem_keys_add, List.map_cons, List.mem_cons, or_left_comm, or_assoc]

theorem mem_keys_tally : k ∈ (tally pairs).keys ↔ k ∈ pairs.map Prod.fst := by
  rw [tally, mem_keys_foldl_add]
  exact or_iff_right (List.not_mem_nil)

theorem sum_values_foldl_add (pairs : List (κ × ν)) (d : Dict κ ν) :
    (pairs.foldl (fun d p => d.add p.1 p.2) d).values.sum =
      d.values.sum + (pairs.map Prod.snd).sum := by
  induction pairs generalizing d with
  | nil => exact (add_zero _).symm
  | cons p pairs ih =>
    rw [List.foldl_cons, ih, sum_values_add, List.map_cons, List.sum_cons, add_assoc]

/-- Nothing is lost and nothing counted twice. -/
theorem sum_values_tally (pairs : List (κ × ν)) :
    (tally pairs).values.sum = (pairs.map Prod.snd).sum := by
  rw [tally, sum_values_foldl_add]
  exact zero_add _

/-- The keys of a list, each listed once, have between them what comes under them. -/
theorem sum_sumOf_filter {keys : List κ} (hnodup : keys.Nodup) (pairs : List (κ × ν)) :
    (keys.map (sumOf pairs)).sum = ((pairs.filter (·.1 ∈ keys)).map Prod.snd).sum := by
  induction pairs with
  | nil => exact List.sum_eq_zero (by simp [sumOf])
  | cons p pairs ih =>
    have hsingle : (keys.map fun k => if p.1 = k then p.2 else 0).sum =
        if p.1 ∈ keys then p.2 else 0 := by
      rw [List.sum_map_eq_nsmul_single p.1 _ fun k hk _ => if_neg (Ne.symm hk), if_pos rfl,
        hnodup.count]
      split_ifs
      · exact one_nsmul p.2
      · exact zero_nsmul p.2
    rw [funext (sumOf_cons p pairs), List.sum_map_add, hsingle, ih]
    by_cases h : p.1 ∈ keys
    · simp [h]
    · simp [h]

/-- Keys that are listed once, and all of them, share out the whole. -/
theorem sum_sumOf {keys : List κ} (hnodup : keys.Nodup)
    (hmem : ∀ p ∈ pairs, p.1 ∈ keys) :
    (keys.map (sumOf pairs)).sum = (pairs.map Prod.snd).sum := by
  rw [sum_sumOf_filter hnodup, List.filter_eq_self.mpr fun p hp => decide_eq_true (hmem p hp)]

section Labelled
variable {α : Type*} (label : α → Option κ) (value : α → ν)

def labelled (rows : List α) : List (κ × ν) :=
  rows.filterMap fun a => (label a).map (·, value a)

omit [DecidableEq κ] [AddCommMonoid ν] in
theorem values_labelled (rows : List α) :
    (labelled label value rows).map Prod.snd =
      (rows.filter fun a => (label a).isSome).map value := by
  induction rows with
  | nil => rfl
  | cons a rows ih =>
    simp only [labelled] at ih ⊢
    cases h : label a with
    | none => simp [h, ih]
    | some k => simp [h, ih]

theorem sumOf_labelled (rows : List α) (k : κ) :
    sumOf (labelled label value rows) k = ((rows.filter (label · = some k)).map value).sum := by
  induction rows with
  | nil => rfl
  | cons a rows ih =>
    simp only [labelled] at ih ⊢
    cases h : label a with
    | none => simp [h, ih]
    | some k' =>
      by_cases hk : k' = k
      · simp [h, ih, sumOf_cons, hk]
      · simp [h, ih, sumOf_cons, hk]

theorem countOf_labelled (rows : List α) (k : κ) :
    sumOf (labelled label (fun _ => 1) rows) k = rows.countP (label · = some k) := by
  rw [sumOf_labelled, List.map_const', List.sum_replicate_nat, mul_one, List.countP_eq_length_filter]

omit [DecidableEq κ] in
theorem count_labelled (rows : List α) :
    ((labelled label (fun _ => 1) rows).map Prod.snd).sum =
      rows.countP fun a => (label a).isSome := by
  rw [values_labelled, List.map_const', List.sum_replicate_nat, mul_one,
    List.countP_eq_length_filter]

omit [DecidableEq κ] [AddCommMonoid ν] in
theorem mem_keys_labelled {rows : List α} {k : κ} :
    k ∈ (labelled label value rows).map Prod.fst ↔ ∃ a ∈ rows, label a = some k := by
  simp [labelled]

theorem sum_sumOf_labelled {rows : List α} {keys : List κ} (hnodup : keys.Nodup)
    (hcovered : ∀ a ∈ rows, ∀ k, label a = some k → k ∈ keys) :
    (keys.map (sumOf (labelled label value rows))).sum =
      ((labelled label value rows).map Prod.snd).sum := by
  refine sum_sumOf hnodup fun p hp => ?_
  obtain ⟨a, ha, hlabel⟩ := (mem_keys_labelled label value).mp (List.mem_map_of_mem hp)
  exact hcovered a ha p.1 hlabel

end Labelled

end Chic.Dict
