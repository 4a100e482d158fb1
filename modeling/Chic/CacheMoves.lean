import Chic.CachingClient

namespace Chic.Cache

variable {Value : Values} {cl : Client Value}

theorem World.tasks_setTask {w : World Value} {i j : ℕ} {t u : Task Value}
    (h : (w.setTask i t).tasks j = some u) : (j = i ∧ u = t) ∨ w.tasks j = some u := by
  by_cases hj : j = i
  · subst hj
    exact .inl ⟨rfl, by simpa [World.setTask, eq_comm] using h⟩
  · exact .inr (by simpa [World.setTask, hj] using h)

theorem Client.begin_call (cl : Client Value) (w : World Value) (c : Call) (reads : Bool) :
    (cl.begin w c reads).call = c := by
  unfold Client.begin
  split_ifs <;> rfl

def World.note (w : World Value) (a : Answer Value) : World Value :=
  { w with fetched := w.fetched ++ [a] }

/-- Every way for a step to go, with the guard it took. -/
inductive Moves (cl : Client Value) (w : World Value) : Event Value → World Value → Prop
  | tick {now} (h : w.now ≤ now) : Moves cl w (.tick now) { w with now }
  | begun {i c reads} (h : w.tasks i = none) :
    Moves cl w (.call i c reads) (w.setTask i (cl.begin w c reads))
  | hit {i c began raw v} (h : w.tasks i = some ⟨c, began, .looking (some raw)⟩)
    (hv : cl.validateJson c raw = some v) :
    Moves cl w (.looked i) (w.setTask i ⟨c, began, .returned v⟩)
  | miss {i c began raw} (h : w.tasks i = some ⟨c, began, .looking raw⟩)
    (hv : raw.bind (cl.validateJson c) = none) :
    Moves cl w (.looked i) (w.setTask i ⟨c, began, .fetching⟩)
  | direct {i c began v writes} (h : w.tasks i = some ⟨c, began, .fetching⟩)
    (httl : cl.ttl c ≤ 0) :
    Moves cl w (.fetched i c v writes) ((w.note ⟨i, c, v⟩).setTask i ⟨c, began, .returned v⟩)
  | kept {i c began v writes} (h : w.tasks i = some ⟨c, began, .fetching⟩)
    (httl : 0 < cl.ttl c) :
    Moves cl w (.fetched i c v writes)
      (((w.note ⟨i, c, v⟩).store cl ⟨i, c, v⟩ writes).setTask i ⟨c, began, .storing v⟩)
  | stored {i c began v} (h : w.tasks i = some ⟨c, began, .storing v⟩) :
    Moves cl w (.stored i) (w.setTask i ⟨c, began, .returned v⟩)
  | aborted {i c began pc} (h : w.tasks i = some ⟨c, began, pc⟩) (hpc : pc.ended = false) :
    Moves cl w (.abort i) (w.setTask i ⟨c, began, .raised⟩)
  | purged {works} :
    Moves cl w (.purge works)
      (if works then { w with table := (Store.purge w.table w.now).1 } else w)

theorem step_moves {w w' : World Value} {e : Event Value} (h : step cl w e = some w') :
    Moves cl w e w' := by
  cases e with
  | tick now =>
    simp only [step] at h
    split_ifs at h with hle
    cases h
    exact .tick hle
  | call i c reads =>
    simp only [step] at h
    split at h
    case h_1 hi => cases h; exact .begun hi
    case h_2 => cases h
  | looked i =>
    simp only [step] at h
    split at h
    case h_1 c began raw hi =>
      split at h
      case h_1 v hv =>
        obtain ⟨raw, rfl, hv⟩ := Option.bind_eq_some_iff.mp hv
        cases h
        exact .hit hi hv
      case h_2 hv => cases h; exact .miss hi hv
    case h_2 => cases h
  | fetched i c v writes =>
    simp only [step] at h
    split at h
    case h_1 c' began hi =>
      split_ifs at h with hc httl
      · subst hc
        cases h
        exact .direct hi httl
      · subst hc
        cases h
        exact .kept hi (not_le.mp httl)
    case h_2 => cases h
  | stored i =>
    simp only [step] at h
    split at h
    case h_1 hi => cases h; exact .stored hi
    case h_2 => cases h
  | abort i =>
    simp only [step] at h
    split at h
    case h_1 c began pc hi =>
      split_ifs at h with hpc
      cases h
      exact .aborted hi (Bool.eq_false_of_not_eq_true hpc)
    case h_2 => cases h
  | purge works =>
    cases h
    exact .purged

theorem moves_step {w w' : World Value} {e : Event Value} (h : Moves cl w e w') :
    step cl w e = some w' := by
  cases h with
  | tick h => rw [step, if_pos h]
  | begun h => simp only [step, h]
  | hit h hv => simp only [step, h, Option.bind_some, hv]
  | miss h hv => simp only [step, h, hv]
  | direct h httl => simp only [step, h, if_pos httl]; rfl
  | kept h httl => simp only [step, h, if_neg (not_le.mpr httl)]; rfl
  | stored h => simp only [step, h]
  | aborted h hpc => simp only [step, h, hpc]; rfl
  | purged => rfl

def begunCalls (es : List (Event Value)) : List Call :=
  es.filterMap fun
    | .call _ c _ => some c
    | _ => none

theorem Moves.call_of_task {w w' : World Value} {e : Event Value} (h : Moves cl w e w') {i : ℕ}
    {t : Task Value} (ht : w'.tasks i = some t) :
    (∃ u, w.tasks i = some u ∧ u.call = t.call) ∨ t.call ∈ begunCalls [e] := by
  -- a task that goes on is the one that was there
  have hgoes : ∀ {v : World Value} {j c began} {pc pc' : CallPc (Value c.method)},
      v.tasks = w.tasks → w.tasks j = some ⟨c, began, pc⟩ →
        (v.setTask j ⟨c, began, pc'⟩).tasks i = some t →
          ∃ u, w.tasks i = some u ∧ u.call = t.call := by
    intro v j c began pc pc' hv hj h
    rcases World.tasks_setTask h with ⟨rfl, rfl⟩ | hold
    · exact ⟨_, hj, rfl⟩
    · exact ⟨t, hv ▸ hold, rfl⟩
  cases h with
  | tick => exact .inl ⟨t, ht, rfl⟩
  | begun hj =>
    rcases World.tasks_setTask ht with ⟨rfl, rfl⟩ | hold
    · exact .inr (by rw [cl.begin_call]; exact List.mem_singleton_self _)
    · exact .inl ⟨t, hold, rfl⟩
  | hit hj => exact .inl (hgoes rfl hj ht)
  | miss hj => exact .inl (hgoes rfl hj ht)
  | direct hj => exact .inl (hgoes rfl hj ht)
  | @kept _ _ _ _ writes hj => cases writes <;> exact .inl (hgoes rfl hj ht)
  | stored hj => exact .inl (hgoes rfl hj ht)
  | aborted hj => exact .inl (hgoes rfl hj ht)
  | @purged works => cases works <;> exact .inl ⟨t, ht, rfl⟩

theorem mem_begunCalls {w₀ w : World Value} (h₀ : ∀ i, w₀.tasks i = none) {es : List (Event Value)}
    (hrun : Trace.run (step cl) w₀ es = some w) {i : ℕ} {t : Task Value}
    (ht : w.tasks i = some t) : t.call ∈ begunCalls es := by
  induction es using List.reverseRecOn generalizing w t with
  | nil =>
    cases hrun
    rw [h₀ i] at ht
    cases ht
  | append_singleton es e ih =>
    obtain ⟨w', hrun', he⟩ := Trace.run_concat_some.mp hrun
    rw [begunCalls, List.filterMap_append, List.mem_append]
    rcases (step_moves he).call_of_task ht with ⟨u, hu, hcall⟩ | hnew
    · exact .inl (hcall ▸ ih hrun' hu)
    · exact .inr hnew

end Chic.Cache
