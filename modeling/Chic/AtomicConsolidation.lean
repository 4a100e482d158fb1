import Chic.Consolidation
import Chic.ConsolidatedReply
import Chic.PartialWrites

namespace Chic.Profile
open AppDb PartialWrites Trace

def World.profile (w : World) (u : UserId) : String → Option String := w.db.preference? u

/-- The profile that a consolidation is for: the listed preferences, and of the others those
that were not in its snapshot. -/
def consolidatedProfile (before : String → Option String) (current desired : List Preference)
    (key : String) : Option String :=
  match desired.find? (·.key = key) with
  | some p => some p.value
  | none => if key ∈ current.map (·.key) then none else before key

/-- A reply is taken up, some writes are done, and then the process stops or the next write
raises. -/
def cutShort (j : ℕ) (pairs : List (String × String)) (nows : List ℤ) (raises : Bool) :
    List Event :=
  .replied j pairs :: (nows.map (.advance j ·) ++ if raises then [.fails j] else [])

def cells (writes : List Write) : List (String × Option String) :=
  writes.map fun write => (write.key, write.effect)

section
variable {w w' : World} {j : ℕ} {job : Job} {u : UserId} {current desired : List Preference}

theorem profile_jobWrites (w : World) (u : UserId) (missed : List String) (write : Write)
    (now : ℤ) :
    (w.jobWrites u missed write now).profile u =
      Function.update (w.profile u) write.key write.effect := by
  funext key
  show (w.jobWrites u missed write now).db.preference? u key = _
  rw [jobWrites_preference?, Function.update_apply]
  simp only [true_and]
  rfl

def standing : List Write → JobPc
  | [] => .done
  | write :: rest => .writing (write :: rest)

theorem standing_eq (writes : List Write) :
    (if writes = [] then JobPc.done else .writing writes) = standing writes := by
  cases writes <;> rfl

theorem step_standing {writes : List Write} (hj : w.jobs j = some job)
    (hpc : job.pc = standing writes) (now : ℤ) :
    step w (.advance j now) = writes.head?.map fun write =>
      (w.jobWrites job.userId job.missed write now).setJob j
        { job with pc := standing writes.tail } := by
  cases writes with
  | nil =>
    have hpc : job.pc = .done := hpc
    simp [step, hj, World.advance, hpc]
  | cons write rest =>
    have hpc : job.pc = .writing (write :: rest) := hpc
    simp only [step, hj, Option.bind_some, World.advance, hpc, standing_eq, List.head?_cons,
      Option.map_some, List.tail_cons]

/-- As many writes can be done as there are to come. -/
theorem run_writing_isSome {writes : List Write} (hj : w.jobs j = some job)
    (hpc : job.pc = standing writes) {nows : List ℤ} (hlen : nows.length ≤ writes.length) :
    (run step w (nows.map (.advance j ·))).isSome = true := by
  induction nows generalizing w job writes with
  | nil => rfl
  | cons now nows ih =>
    cases writes with
    | nil => cases hlen
    | cons write rest =>
      rw [List.map_cons, run_cons, step_standing hj hpc]
      refine ih (setJob_jobs_self _ _ _) rfl ?_
      exact Nat.le_of_succ_le_succ hlen

theorem run_writing {writes : List Write} (hj : w.jobs j = some job)
    (hpc : job.pc = standing writes) {nows : List ℤ}
    (hrun : run step w (nows.map (.advance j ·)) = some w') :
    w'.profile job.userId =
      writeAll (w.profile job.userId) ((cells writes).take nows.length) := by
  induction nows generalizing w job writes with
  | nil => cases hrun; rfl
  | cons now nows ih =>
    obtain ⟨w₁, hstep, hrest⟩ := run_cons_some.mp hrun
    rw [step_standing hj hpc] at hstep
    cases writes with
    | nil => cases hstep
    | cons write rest =>
      cases hstep
      have hprofile := ih (setJob_jobs_self _ _ _) rfl hrest
      dsimp only at hprofile
      rw [hprofile]
      show writeAll ((w.jobWrites job.userId job.missed write now).profile job.userId) _ = _
      rw [profile_jobWrites]
      rfl

theorem fails_profile {raises : Bool}
    (hrun : run step w (if raises then [.fails j] else []) = some w') :
    w'.profile u = w.profile u := by
  cases raises with
  | false => cases hrun; rfl
  | true =>
    obtain ⟨w₁, hstep, hnil⟩ := run_cons_some.mp hrun
    cases hnil
    cases step_moves hstep
    rfl

theorem cells_writeBack (hne : desired ≠ []) (hle : desired.length ≤ current.length) :
    cells (writeBack current desired) =
      (current.filter fun p => p.key ∉ desired.map (·.key)).map (fun p => (p.key, none)) ++
        desired.map fun p => (p.key, some p.value) := by
  rw [cells, writeBack, if_neg (by simp [hne, hle]), List.map_append, List.map_map, List.map_map]
  rfl

theorem writeBack_keys_nodup (hne : desired ≠ []) (hle : desired.length ≤ current.length)
    (hcurrent : (current.map (·.key)).Nodup) (hdesired : (desired.map (·.key)).Nodup) :
    ((cells (writeBack current desired)).map Prod.fst).Nodup := by
  rw [cells_writeBack hne hle, List.map_append, List.map_map, List.map_map, List.nodup_append]
  refine ⟨((List.filter_sublist).map _).nodup hcurrent, hdesired, ?_⟩
  intro a ha b hb
  obtain ⟨p, hp, rfl⟩ := List.mem_map.mp ha
  have hp := of_decide_eq_true (List.mem_filter.mp hp).2
  intro heq
  have hkey : p.key = b := heq
  exact hp (hkey ▸ hb)

theorem set_mem_cells (hne : desired ≠ []) (hle : desired.length ≤ current.length)
    {p : Preference} (hp : p ∈ desired) :
    (p.key, some p.value) ∈ cells (writeBack current desired) := by
  rw [cells_writeBack hne hle]
  exact List.mem_append_right _ (List.mem_map.mpr ⟨p, hp, rfl⟩)

theorem delete_mem_cells (hne : desired ≠ []) (hle : desired.length ≤ current.length)
    {p : Preference} (hp : p ∈ current) (hout : p.key ∉ desired.map (·.key)) :
    (p.key, none) ∈ cells (writeBack current desired) := by
  rw [cells_writeBack hne hle]
  refine List.mem_append_left _ (List.mem_map.mpr ⟨p, ?_, rfl⟩)
  exact List.mem_filter.mpr ⟨hp, decide_eq_true hout⟩

theorem writeAll_writeBack {before : String → Option String} (hne : desired ≠ [])
    (hle : desired.length ≤ current.length) (hcurrent : (current.map (·.key)).Nodup)
    (hdesired : (desired.map (·.key)).Nodup) :
    writeAll before (cells (writeBack current desired)) =
      consolidatedProfile before current desired := by
  have hkeys := writeBack_keys_nodup hne hle hcurrent hdesired
  funext key
  unfold consolidatedProfile
  split
  case h_1 p hfind =>
    have hkey : p.key = key := by simpa using List.find?_some hfind
    rw [← hkey]
    exact writeAll_of_mem hkeys (set_mem_cells hne hle (List.mem_of_find?_eq_some hfind))
  case h_2 hfind =>
    have hout : key ∉ desired.map (·.key) := by
      simpa [List.find?_eq_none] using hfind
    split_ifs with hcur
    · obtain ⟨p, hp, rfl⟩ := List.mem_map.mp hcur
      exact writeAll_of_mem hkeys (delete_mem_cells hne hle hp hout)
    · apply writeAll_of_not_mem
      rw [cells_writeBack hne hle, List.map_append, List.map_map, List.map_map, List.mem_append,
        not_or]
      refine ⟨?_, hout⟩
      intro hmem
      obtain ⟨p, hp, rfl⟩ := List.mem_map.mp hmem
      exact hcur (List.mem_map_of_mem (List.mem_of_mem_filter hp))

/-- A preference that the reply leaves out is deleted, and a listed one that is not stored like
that is written. -/
theorem changes_writeBack (hne : desired ≠ []) (hle : desired.length ≤ (w.db.preferences u).length) :
    changes (w.profile u) (cells (writeBack (w.db.preferences u) desired)) =
      (w.db.preferences u).countP (fun p => p.key ∉ desired.map (·.key)) +
        desired.countP fun p => w.profile u p.key ≠ some p.value := by
  rw [cells_writeBack hne hle, changes, List.countP_append, List.countP_map, List.countP_map,
    List.countP_filter]
  congr 1
  apply List.countP_congr
  intro p hp
  have hstored : w.profile u p.key = some p.value := Store.preference?_of_mem_preferences hp
  simp [hstored]

theorem step_replied {pairs : List (String × String)} (hj : w.jobs j = some job)
    (hpc : job.pc = .asking current) :
    step w (.replied j pairs) =
      some (w.setJob j
        { job with pc := standing (writeBack current (consolidated pairs)) }) := by
  simp only [step, hj, Option.bind_some, World.replied, hpc, standing_eq]

theorem profile_cutShort {pairs : List (String × String)} (hj : w.jobs j = some job)
    (hpc : job.pc = .asking current) {nows : List ℤ} {raises : Bool}
    (hrun : run step w (cutShort j pairs nows raises) = some w') :
    w'.profile job.userId = writeAll (w.profile job.userId)
      ((cells (writeBack current (consolidated pairs))).take nows.length) := by
  obtain ⟨w₁, hstep, hrest⟩ := run_cons_some.mp hrun
  rw [step_replied hj hpc, Option.some.injEq] at hstep
  subst hstep
  rw [run_append, Option.bind_eq_some_iff] at hrest
  obtain ⟨w₂, hwrites, hfails⟩ := hrest
  rw [fails_profile hfails]
  have hdone := run_writing (setJob_jobs_self w j
    { job with pc := standing (writeBack current (consolidated pairs)) }) rfl hwrites
  exact hdone

theorem cutShort_isSome {pairs : List (String × String)} (hj : w.jobs j = some job)
    (hpc : job.pc = .asking current) {nows : List ℤ}
    (hlen : nows.length ≤ (writeBack current (consolidated pairs)).length) :
    (run step w (cutShort j pairs nows false)).isSome = true := by
  rw [cutShort, run_cons, step_replied hj hpc, Option.bind_some]
  simp only [Bool.false_eq_true, if_false, List.append_nil]
  exact run_writing_isSome (setJob_jobs_self _ _ _) rfl hlen

/-- A consolidation cut short anywhere leaves the profile from before or the consolidated one
exactly when all its writes together change at most one preference. -/
theorem consolidation_atomic_iff {pairs : List (String × String)} (hj : w.jobs j = some job)
    (hpc : job.pc = .asking (w.db.preferences job.userId)) (hne : consolidated pairs ≠ [])
    (hle : (consolidated pairs).length ≤ (w.db.preferences job.userId).length) :
    (∀ nows raises w', run step w (cutShort j pairs nows raises) = some w' →
      w'.profile job.userId = w.profile job.userId ∨
        w'.profile job.userId = consolidatedProfile (w.profile job.userId)
          (w.db.preferences job.userId) (consolidated pairs)) ↔
    (w.db.preferences job.userId).countP (fun p => p.key ∉ (consolidated pairs).map (·.key)) +
      (consolidated pairs).countP (fun p => w.profile job.userId p.key ≠ some p.value) ≤ 1 := by
  have hcurrent := Store.preferences_keys_nodup w.db job.userId
  have hdesired := consolidated_keys_nodup pairs
  rw [← changes_writeBack hne hle,
    ← allOrNothing_iff (writeBack_keys_nodup hne hle hcurrent hdesired), AllOrNothing,
    writeAll_writeBack hne hle hcurrent hdesired]
  refine ⟨?_, ?_⟩
  · intro h n
    let cs := cells (writeBack (w.db.preferences job.userId) (consolidated pairs))
    have hlen : (List.replicate (min n cs.length) (0 : ℤ)).length ≤
        (writeBack (w.db.preferences job.userId) (consolidated pairs)).length := by
      rw [List.length_replicate]
      exact (min_le_right _ _).trans_eq (List.length_map _)
    obtain ⟨w', hrun⟩ := Option.isSome_iff_exists.mp (cutShort_isSome hj hpc hlen)
    have hstate := h _ _ w' hrun
    rw [profile_cutShort hj hpc hrun, List.length_replicate, ← List.take_eq_take_min] at hstate
    exact hstate
  · intro h nows raises w' hrun
    rw [profile_cutShort hj hpc hrun]
    exact h nows.length

end

/-- The model drops `h` and keeps the rest. -/
def droppedEighth : List (String × String) :=
  [("a", "x"), ("b", "x"), ("c", "x"), ("d", "x"), ("e", "x"), ("f", "x"), ("g", "x")]

/-- The model merges `g` and `h` under a new key. -/
def mergedEighth : List (String × String) :=
  [("a", "x"), ("b", "x"), ("c", "x"), ("d", "x"), ("e", "x"), ("f", "x"), ("gh", "x, x")]

def eightPreferences : List Preference :=
  ["a", "b", "c", "d", "e", "f", "g", "h"].map fun key => ⟨key, "x"⟩

theorem droppedEighth_atomic : ∃ w, run step World.init eighthPreference = some w ∧
    ∀ nows raises w', run step w (cutShort 7 droppedEighth nows raises) = some w' →
      w'.profile 1 = w.profile 1 ∨
        w'.profile 1 = consolidatedProfile (w.profile 1) (w.db.preferences 1)
          (consolidated droppedEighth) := by
  have h : ((run step World.init eighthPreference).map fun w =>
      (w.jobs 7, w.db.preferences 1,
        (consolidated droppedEighth).countP fun p => w.profile 1 p.key ≠ some p.value)) =
      some (some { userId := 1, pc := .asking eightPreferences }, eightPreferences, 0) := by
    decide +kernel
  obtain ⟨w, hrun, hw⟩ := Option.map_eq_some_iff.mp h
  simp only [Prod.mk.injEq] at hw
  obtain ⟨hj, hprefs, hcount⟩ := hw
  refine ⟨w, hrun, (consolidation_atomic_iff hj ?_ ?_ ?_).mpr ?_⟩
  · rw [hprefs]
  · decide +kernel
  · rw [hprefs]
    decide +kernel
  · rw [hprefs, hcount]
    decide +kernel

/-- The process stops after the first write: `g` is gone and what replaces it is not there. -/
theorem mergedEighth_loses : ∃ w w', run step World.init eighthPreference = some w ∧
    run step w (cutShort 7 mergedEighth [9] false) = some w' ∧
    w.profile 1 "g" = some "x" ∧ w'.profile 1 "g" = none ∧ w'.profile 1 "gh" = none ∧
    ¬ (w'.profile 1 = w.profile 1 ∨
      w'.profile 1 = consolidatedProfile (w.profile 1) (w.db.preferences 1)
        (consolidated mergedEighth)) := by
  have h : ((run step World.init eighthPreference).bind fun w =>
      (run step w (cutShort 7 mergedEighth [9] false)).map fun w' =>
        (w.profile 1 "g", w'.profile 1 "g", w'.profile 1 "gh",
          consolidatedProfile (w.profile 1) (w.db.preferences 1) (consolidated mergedEighth) "gh")) =
      some (some "x", none, none, some "x, x") := by
    decide +kernel
  obtain ⟨w, hrun, h⟩ := Option.bind_eq_some_iff.mp h
  obtain ⟨w', hcut, hw⟩ := Option.map_eq_some_iff.mp h
  simp only [Prod.mk.injEq] at hw
  obtain ⟨hbefore, hg, hgh, hwhole⟩ := hw
  refine ⟨w, w', hrun, hcut, hbefore, hg, hgh, not_or.mpr ⟨?_, ?_⟩⟩
  · intro hsame
    rw [hsame, hbefore] at hg
    cases hg
  · intro hsame
    rw [hsame, hwhole] at hgh
    cases hgh

end Chic.Profile
