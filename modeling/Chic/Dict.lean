import Mathlib.Data.List.Nodup
import Mathlib.Algebra.BigOperators.Group.List.Basic
import Mathlib.Tactic.Abel

namespace Chic

/-- A dictionary in insertion order: setting a key that is there keeps its place, a new key
goes to the end. A table with a primary key is one of these too. -/
structure Dict (κ ν : Type*) where
  entries : List (κ × ν)
  nodup : (entries.map Prod.fst).Nodup

namespace Dict

variable {κ ν : Type*}

def empty : Dict κ ν := ⟨[], List.nodup_nil⟩

def keys (d : Dict κ ν) : List κ := d.entries.map Prod.fst

def values (d : Dict κ ν) : List ν := d.entries.map Prod.snd

theorem keys_nodup (d : Dict κ ν) : d.keys.Nodup := d.nodup

theorem eq_of_entries {d d' : Dict κ ν} (h : d.entries = d'.entries) : d = d' := by
  cases d
  cases d'
  cases h
  rfl

@[simp] theorem values_empty : (empty : Dict κ ν).values = [] := rfl

variable [DecidableEq κ]

def lookup (k : κ) : List (κ × ν) → Option ν
  | [] => none
  | (k', v) :: es => if k' = k then some v else lookup k es

def upsert (k : κ) (v : ν) : List (κ × ν) → List (κ × ν)
  | [] => [(k, v)]
  | (k', v') :: es => if k' = k then (k, v) :: es else (k', v') :: upsert k v es

theorem lookup_eq_none_iff {k : κ} {es : List (κ × ν)} :
    lookup k es = none ↔ k ∉ es.map Prod.fst := by
  induction es with
  | nil => simp [lookup]
  | cons e es ih =>
    obtain ⟨k', v⟩ := e
    by_cases h : k' = k
    · simp [lookup, h]
    · simp [lookup, h, ih, Ne.symm h]

theorem lookup_eq_some_iff {k : κ} {v : ν} {es : List (κ × ν)}
    (hn : (es.map Prod.fst).Nodup) : lookup k es = some v ↔ (k, v) ∈ es := by
  induction es with
  | nil => simp [lookup]
  | cons e es ih =>
    obtain ⟨k', v'⟩ := e
    obtain ⟨hk, hn⟩ := List.nodup_cons.mp hn
    by_cases h : k' = k
    · subst h
      have hnot : (k', v) ∉ es := fun hm => hk (List.mem_map.mpr ⟨_, hm, rfl⟩)
      simp [lookup, hnot, eq_comm]
    · simp [lookup, h, ih hn, Ne.symm h]

theorem lookup_upsert (k k' : κ) (v : ν) (es : List (κ × ν)) :
    lookup k' (upsert k v es) = if k' = k then some v else lookup k' es := by
  induction es with
  | nil => simp [upsert, lookup, eq_comm]
  | cons e es ih =>
    obtain ⟨k₀, v₀⟩ := e
    by_cases h : k₀ = k
    · by_cases h' : k' = k
      · simp [upsert, lookup, h, h']
      · simp [upsert, lookup, h, h', Ne.symm h']
    · by_cases h' : k₀ = k'
      · simp [upsert, lookup, h', h' ▸ h]
      · simp [upsert, lookup, h, h', ih]

theorem keys_upsert (k : κ) (v : ν) (es : List (κ × ν)) :
    (upsert k v es).map Prod.fst =
      if k ∈ es.map Prod.fst then es.map Prod.fst else es.map Prod.fst ++ [k] := by
  induction es with
  | nil => simp [upsert]
  | cons e es ih =>
    obtain ⟨k₀, v₀⟩ := e
    by_cases h : k₀ = k
    · simp [upsert, h]
    · rw [upsert, if_neg h, List.map_cons, ih, List.map_cons]
      by_cases hm : k ∈ es.map Prod.fst
      · rw [if_pos hm, if_pos (List.mem_cons_of_mem _ hm)]
      · have hm' : k ∉ k₀ :: es.map Prod.fst := by
          simpa [Ne.symm h] using hm
        rw [if_neg hm, if_neg hm', List.cons_append]

theorem nodup_upsert (k : κ) (v : ν) {es : List (κ × ν)} (h : (es.map Prod.fst).Nodup) :
    ((upsert k v es).map Prod.fst).Nodup := by
  rw [keys_upsert]
  split_ifs with hm
  · exact h
  · exact h.append (List.nodup_singleton k) (by simpa using hm)

def get? (d : Dict κ ν) (k : κ) : Option ν := lookup k d.entries

def set (d : Dict κ ν) (k : κ) (v : ν) : Dict κ ν :=
  ⟨upsert k v d.entries, nodup_upsert k v d.nodup⟩

def erase (d : Dict κ ν) (k : κ) : Dict κ ν :=
  ⟨d.entries.filter (·.1 ≠ k), d.nodup.sublist (List.filter_sublist.map _)⟩

@[simp] theorem get?_empty (k : κ) : (empty : Dict κ ν).get? k = none := rfl

theorem get?_set (d : Dict κ ν) (k k' : κ) (v : ν) :
    (d.set k v).get? k' = if k' = k then some v else d.get? k' :=
  lookup_upsert k k' v d.entries

@[simp] theorem get?_set_self (d : Dict κ ν) (k : κ) (v : ν) : (d.set k v).get? k = some v := by
  rw [get?_set, if_pos rfl]

theorem get?_set_of_ne (d : Dict κ ν) {k k' : κ} (v : ν) (h : k' ≠ k) :
    (d.set k v).get? k' = d.get? k' := by
  rw [get?_set, if_neg h]

theorem mem_entries_iff {d : Dict κ ν} {k : κ} {v : ν} :
    (k, v) ∈ d.entries ↔ d.get? k = some v :=
  (lookup_eq_some_iff d.nodup).symm

theorem get?_erase (d : Dict κ ν) (k k' : κ) :
    (d.erase k).get? k' = if k' = k then none else d.get? k' := by
  split_ifs with h
  · rw [get?, lookup_eq_none_iff]
    simp [erase, h]
  · apply Option.ext
    intro v
    rw [← mem_entries_iff, ← mem_entries_iff]
    simp [erase, h]

/-- Deleting the entries that do not meet a condition on their values. -/
def filter (d : Dict κ ν) (p : ν → Bool) : Dict κ ν :=
  ⟨d.entries.filter fun e => p e.2, d.nodup.sublist (List.filter_sublist.map _)⟩

theorem get?_filter (d : Dict κ ν) (p : ν → Bool) (k : κ) :
    (d.filter p).get? k = (d.get? k).filter p := by
  ext v
  rw [← mem_entries_iff, Option.filter_eq_some_iff, ← mem_entries_iff]
  simp [filter]

theorem erase_of_not_mem {d : Dict κ ν} {k : κ} (h : k ∉ d.keys) : d.erase k = d := by
  have hall : d.entries.filter (·.1 ≠ k) = d.entries := by
    apply List.filter_eq_self.mpr
    intro e he
    have hne : e.1 ≠ k := fun heq => h (heq ▸ List.mem_map_of_mem he)
    simpa using hne
  cases d
  simp only [erase, mk.injEq]
  exact hall

theorem mem_keys_iff {d : Dict κ ν} {k : κ} : k ∈ d.keys ↔ ∃ v, d.get? k = some v := by
  constructor
  · intro h
    obtain ⟨⟨_, v⟩, he, rfl⟩ := List.mem_map.mp h
    exact ⟨v, mem_entries_iff.mp he⟩
  · rintro ⟨v, hv⟩
    exact List.mem_map_of_mem (mem_entries_iff.mpr hv)

theorem mem_keys_set {d : Dict κ ν} {k k' : κ} {v : ν} :
    k' ∈ (d.set k v).keys ↔ k' = k ∨ k' ∈ d.keys := by
  rw [mem_keys_iff, mem_keys_iff]
  simp only [get?_set]
  by_cases h : k' = k <;> simp [h]

theorem not_mem_keys_iff {d : Dict κ ν} {k : κ} : k ∉ d.keys ↔ d.get? k = none :=
  lookup_eq_none_iff.symm

theorem get?_foldl_set (rows : List (κ × ν)) (d : Dict κ ν) (k : κ) :
    (rows.foldl (fun d r => d.set r.1 r.2) d).get? k =
      ((rows.filter fun r => r.1 = k).getLast?.map Prod.snd).or (d.get? k) := by
  induction rows generalizing d with
  | nil => rfl
  | cons r rows ih =>
    rw [List.foldl_cons, ih, get?_set]
    by_cases h : r.1 = k
    · rw [List.filter_cons_of_pos (by simpa using h), List.getLast?_cons, if_pos h.symm]
      cases (rows.filter fun r => r.1 = k).getLast? <;> rfl
    · rw [List.filter_cons_of_neg (by simpa using h), if_neg (Ne.symm h)]

/-- The same for rows of any kind, some of which are passed over. -/
theorem get?_foldl_set_if {ρ : Type*} (key : ρ → κ) (value : ρ → ν) (p : ρ → Prop)
    [DecidablePred p] (rows : List ρ) (d : Dict κ ν) (k : κ) :
    (rows.foldl (fun d r => if p r then d.set (key r) (value r) else d) d).get? k =
      ((rows.filter fun r => key r = k ∧ p r).getLast?.map value).or (d.get? k) := by
  have hfold : rows.foldl (fun d r => if p r then d.set (key r) (value r) else d) d =
      ((rows.filter p).map fun r => (key r, value r)).foldl (fun d r => d.set r.1 r.2) d := by
    rw [List.foldl_map, List.foldl_filter]
    simp only [decide_eq_true_eq]
  rw [hfold, get?_foldl_set, List.filter_map, List.filter_filter, List.getLast?_map,
    Option.map_map]
  simp only [Function.comp_def, Bool.decide_and]

theorem mem_keys_foldl_set {rows : List (κ × ν)} {d : Dict κ ν} {k : κ} :
    k ∈ (rows.foldl (fun d r => d.set r.1 r.2) d).keys ↔ k ∈ d.keys ∨ k ∈ rows.map Prod.fst := by
  induction rows generalizing d with
  | nil => simp
  | cons r rows ih =>
    rw [List.foldl_cons, ih, mem_keys_set, List.map_cons, List.mem_cons, or_left_comm, or_assoc]

theorem set_entries_of_not_mem {d : Dict κ ν} {k : κ} {v : ν} (h : k ∉ d.keys) :
    (d.set k v).entries = d.entries ++ [(k, v)] := by
  change upsert k v d.entries = _
  have hk : k ∉ d.entries.map Prod.fst := h
  generalize d.entries = es at hk ⊢
  induction es with
  | nil => rfl
  | cons e es ih =>
    rw [List.map_cons, List.mem_cons, not_or] at hk
    simp only [upsert, if_neg (Ne.symm hk.1), ih hk.2, List.cons_append]

theorem entries_foldl_set {d : Dict κ ν} {rows : List (κ × ν)} (hnodup : (rows.map Prod.fst).Nodup)
    (hfresh : ∀ k ∈ rows.map Prod.fst, k ∉ d.keys) :
    (rows.foldl (fun d r => d.set r.1 r.2) d).entries = d.entries ++ rows := by
  induction rows generalizing d with
  | nil => rw [List.foldl_nil, List.append_nil]
  | cons r rows ih =>
    obtain ⟨hr, hnodup⟩ := List.nodup_cons.mp hnodup
    have hnew : r.1 ∉ d.keys := hfresh r.1 List.mem_cons_self
    rw [List.foldl_cons, ih hnodup, set_entries_of_not_mem hnew, List.append_assoc]
    · rfl
    · intro k hk
      rw [mem_keys_set, not_or]
      exact ⟨fun heq => hr (heq ▸ hk), hfresh k (List.mem_cons_of_mem _ hk)⟩

section Slice
variable {ι : Type*}

/-- The entries under one first component of the key. -/
def slice (d : Dict (κ × ι) ν) (k : κ) : Dict ι ν where
  entries := d.entries.filterMap fun e => if e.1.1 = k then some (e.1.2, e.2) else none
  nodup := by
    have hd := d.nodup
    rw [List.Nodup, List.pairwise_map] at hd ⊢
    apply List.Pairwise.filterMap _ _ hd
    intro e e' hne a ha b hb heq
    split_ifs at ha hb with hk hk'
    cases ha
    cases hb
    exact hne (Prod.ext (hk.trans hk'.symm) heq)

theorem slice_eq_nil_iff {d : Dict (κ × ι) ν} {k : κ} :
    (d.slice k).entries = [] ↔ k ∉ d.keys.map Prod.fst := by
  simp only [slice, keys, List.filterMap_eq_nil_iff, List.map_map, List.mem_map, not_exists,
    not_and, ite_eq_right_iff, reduceCtorEq, imp_false, Function.comp_apply]

variable [DecidableEq ι]

theorem get?_slice (d : Dict (κ × ι) ν) (k : κ) (i : ι) : (d.slice k).get? i = d.get? (k, i) := by
  apply Option.ext
  intro v
  rw [← mem_entries_iff, ← mem_entries_iff]
  simp only [slice, List.mem_filterMap, Option.ite_none_right_eq_some, Option.some.injEq,
    Prod.mk.injEq, Prod.exists]
  refine ⟨?_, fun h => ⟨k, i, v, h, rfl, rfl, rfl⟩⟩
  rintro ⟨k', i', v', h, rfl, rfl, rfl⟩
  exact h

theorem slice_set_self (d : Dict (κ × ι) ν) (k : κ) (i : ι) (v : ν) :
    (d.set (k, i) v).slice k = (d.slice k).set i v := by
  apply eq_of_entries
  change (upsert (k, i) v d.entries).filterMap _ = upsert i v (d.entries.filterMap _)
  induction d.entries with
  | nil => simp [upsert]
  | cons e es ih =>
    obtain ⟨⟨k', i'⟩, v'⟩ := e
    by_cases hk : k' = k
    · by_cases hi : i' = i
      · simp [upsert, hk, hi]
      · simp [upsert, hk, hi, ih]
    · simp [upsert, hk, ih]

theorem slice_set_of_ne (d : Dict (κ × ι) ν) {k k' : κ} (i : ι) (v : ν) (h : k' ≠ k) :
    (d.set (k, i) v).slice k' = d.slice k' := by
  apply eq_of_entries
  change (upsert (k, i) v d.entries).filterMap _ = d.entries.filterMap _
  induction d.entries with
  | nil => simp [upsert, Ne.symm h]
  | cons e es ih =>
    obtain ⟨⟨k₀, i₀⟩, v₀⟩ := e
    by_cases he : (k₀, i₀) = (k, i)
    · cases he
      simp [upsert, Ne.symm h]
    · simp only [upsert, if_neg he, List.filterMap_cons, ih]

theorem slice_erase_self (d : Dict (κ × ι) ν) (k : κ) (i : ι) :
    (d.erase (k, i)).slice k = (d.slice k).erase i := by
  apply eq_of_entries
  dsimp only [slice, erase]
  rw [List.filterMap_filter, List.filter_filterMap]
  congr 1
  funext ⟨⟨k', i'⟩, v⟩
  by_cases hk : k' = k <;> by_cases hi : i' = i <;> simp [hk, hi, Option.filter]

theorem slice_erase_of_ne (d : Dict (κ × ι) ν) {k k' : κ} (i : ι) (h : k' ≠ k) :
    (d.erase (k, i)).slice k' = d.slice k' := by
  apply eq_of_entries
  dsimp only [slice, erase]
  rw [List.filterMap_filter]
  congr 1
  funext ⟨⟨k₀, i₀⟩, v⟩
  by_cases hk : k₀ = k'
  · simp [hk, h]
  · simp [hk]

end Slice

section Sum
variable {M : Type*} [AddCommGroup M]

theorem sum_upsert (f : ν → M) (k : κ) (v : ν) (es : List (κ × ν)) :
    ((upsert k v es).map fun e => f e.2).sum =
      (es.map fun e => f e.2).sum - ((lookup k es).map f).getD 0 + f v := by
  induction es with
  | nil => simp [upsert, lookup]
  | cons e es ih =>
    obtain ⟨k₀, v₀⟩ := e
    by_cases h : k₀ = k
    · simp only [upsert, lookup, if_pos h, List.map_cons, List.sum_cons, Option.map_some,
        Option.getD_some]
      abel
    · simp only [upsert, lookup, if_neg h, List.map_cons, List.sum_cons, ih]
      abel

theorem sum_values_set (d : Dict κ ν) (f : ν → M) (k : κ) (v : ν) :
    ((d.set k v).values.map f).sum =
      (d.values.map f).sum - ((d.get? k).map f).getD 0 + f v := by
  have h := sum_upsert f k v d.entries
  rw [values, values, List.map_map, List.map_map]
  exact h

end Sum

end Dict

end Chic
