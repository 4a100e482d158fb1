import Chic.AppDb

namespace Chic.AppDb.Store

def maxRenderedPreferences : ℕ := 50

def profileRows (db : Store) (u : UserId) : List (String × MemoryRow) :=
  db.userMemory.entries.filterMap fun e => if e.1.1 = u then some (e.1.2, e.2) else none

/-- `order by updated_at desc`; the key index yields rows of one second in key order. -/
def Newer (a b : String × MemoryRow) : Prop :=
  b.2.updatedAt < a.2.updatedAt ∨ (b.2.updatedAt = a.2.updatedAt ∧ a.1 ≤ b.1)

instance : DecidableRel Newer := fun a b => by unfold Newer; infer_instance

/-- The most recently updated preferences, in the order of their keys. -/
def preferences (db : Store) (u : UserId) : List Preference :=
  let recent := ((db.profileRows u).insertionSort Newer).take maxRenderedPreferences
  (recent.insertionSort fun a b => a.1 ≤ b.1).map fun r => ⟨r.1, r.2.value⟩

def preference? (db : Store) (u : UserId) (key : String) : Option String :=
  (db.userMemory.get? (u, key)).map (·.value)

section
variable {db : Store} {u u' : UserId} {key key' value : String} {now : ℤ}

theorem profileRows_keys_nodup (db : Store) (u : UserId) :
    ((db.profileRows u).map Prod.fst).Nodup :=
  (db.userMemory.slice u).nodup

theorem preferences_sorted (db : Store) (u : UserId) :
    (db.preferences u).Pairwise (·.key < ·.key) := by
  let recent := ((db.profileRows u).insertionSort Newer).take maxRenderedPreferences
  have hnodup : ((recent.insertionSort fun a b => a.1 ≤ b.1).map Prod.fst).Nodup := by
    rw [((List.perm_insertionSort _ recent).map Prod.fst).nodup_iff]
    refine ((List.take_sublist _ _).map Prod.fst).nodup ?_
    rw [((List.perm_insertionSort Newer (db.profileRows u)).map Prod.fst).nodup_iff]
    exact profileRows_keys_nodup db u
  have hsorted : (recent.insertionSort fun a b => a.1 ≤ b.1).Pairwise fun a b => a.1 ≤ b.1 := by
    have : Std.Total fun a b : String × MemoryRow => a.1 ≤ b.1 := ⟨fun a b => le_total a.1 b.1⟩
    have : IsTrans (String × MemoryRow) fun a b => a.1 ≤ b.1 := ⟨fun _ _ _ => le_trans⟩
    exact List.pairwise_insertionSort _ recent
  rw [List.Nodup, List.pairwise_map] at hnodup
  refine List.pairwise_map.mpr ((hsorted.and hnodup).imp ?_)
  intro a b h
  exact lt_of_le_of_ne h.1 h.2

theorem length_preferences_le (db : Store) (u : UserId) :
    (db.preferences u).length ≤ maxRenderedPreferences := by
  rw [preferences, List.length_map, List.length_insertionSort]
  exact List.length_take_le _ _

theorem preference?_of_mem_profileRows {r : String × MemoryRow} (h : r ∈ db.profileRows u) :
    db.preference? u r.1 = some r.2.value := by
  obtain ⟨e, he, hr⟩ := List.mem_filterMap.mp h
  split_ifs at hr with hu
  cases hr
  have hget : db.userMemory.get? (u, e.1.2) = some e.2 := by
    rw [← Dict.mem_entries_iff, ← hu]
    exact he
  rw [preference?, hget]
  rfl

theorem preference?_of_mem_preferences {p : Preference} (h : p ∈ db.preferences u) :
    db.preference? u p.key = some p.value := by
  obtain ⟨r, hr, rfl⟩ := List.mem_map.mp h
  have hr := List.mem_of_mem_take ((List.perm_insertionSort _ _).mem_iff.mp hr)
  exact preference?_of_mem_profileRows ((List.perm_insertionSort _ _).mem_iff.mp hr)

theorem preferences_keys_nodup (db : Store) (u : UserId) :
    ((db.preferences u).map (·.key)).Nodup :=
  (List.pairwise_map.mpr (preferences_sorted db u)).imp ne_of_lt

@[simp] theorem preference?_setPreference :
    (db.setPreference u key value now).preference? u' key' =
      if u' = u ∧ key' = key then some value else db.preference? u' key' := by
  unfold preference? setPreference
  rw [Dict.get?_set]
  simp only [Prod.mk.injEq]
  split_ifs <;> rfl

@[simp] theorem preference?_deletePreference :
    (db.deletePreference u key).preference? u' key' =
      if u' = u ∧ key' = key then none else db.preference? u' key' := by
  unfold preference? deletePreference
  rw [Dict.get?_erase]
  simp only [Prod.mk.injEq]
  split_ifs <;> rfl

/-- Two deletions come to the same when they are of one key, or of two that are not there. -/
theorem deletePreference_eq_iff :
    db.deletePreference u key = db.deletePreference u key' ↔
      key = key' ∨ (db.preference? u key = none ∧ db.preference? u key' = none) := by
  refine ⟨?_, ?_⟩
  · intro h
    by_cases hkey : key = key'
    · exact .inl hkey
    · have h₁ := congrArg (fun d => d.preference? u key) h
      have h₂ := congrArg (fun d => d.preference? u key') h
      simp only [preference?_deletePreference, true_and, if_true, hkey, if_false,
        Ne.symm hkey] at h₁ h₂
      exact .inr ⟨h₁.symm, h₂⟩
  · intro h
    rcases h with rfl | ⟨hk, hk'⟩
    · rfl
    · have habsent : ∀ k, db.preference? u k = none → db.userMemory.erase (u, k) = db.userMemory :=
        fun k h => Dict.erase_of_not_mem (Dict.not_mem_keys_iff.mpr (Option.map_eq_none_iff.mp h))
      rw [deletePreference, deletePreference, habsent key hk, habsent key' hk']

theorem deletePreference_eq_self_iff :
    db.deletePreference u key = db ↔ db.preference? u key = none := by
  refine ⟨?_, ?_⟩
  · intro h
    rw [← h]
    simp
  · intro h
    rw [deletePreference, Dict.erase_of_not_mem
      (Dict.not_mem_keys_iff.mpr (Option.map_eq_none_iff.mp h))]

end

end Chic.AppDb.Store
