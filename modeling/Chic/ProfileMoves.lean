import Chic.Profile

namespace Chic.Profile
open AppDb Keyboards

/-- Every way for a step to go, with the guard it took. -/
inductive Moves (w : World) : Event → World → Prop
  | refused {j u key value now text} (h : checkRemember key value = .error text) :
    Moves w (.remember j u key value now) w
  | remembered {j u key value now k v} (h : checkRemember key value = .ok (k, v))
    (hj : w.jobs j = none) :
    Moves w (.remember j u key value now)
      ((w.userWrites u (w.db.setPreference u k v now) k (some v)).setJob j { userId := u })
  | nothing {u key} (h : PyText.collapse key = "") : Moves w (.forget u key) w
  | forgotten {u key} (h : PyText.collapse key ≠ "") :
    Moves w (.forget u key)
      (w.userWrites u (w.db.deletePreference u (PyText.collapse key)) (PyText.collapse key) none)
  | few {j job now} (hj : w.jobs j = some job) (hpc : job.pc = .reading)
    (hlen : (w.db.preferences job.userId).length < consolidateThreshold) :
    Moves w (.advance j now) (w.setJob j { job with pc := .done })
  | snapshot {j job now} (hj : w.jobs j = some job) (hpc : job.pc = .reading)
    (hlen : consolidateThreshold ≤ (w.db.preferences job.userId).length) :
    Moves w (.advance j now) (w.setJob j { job with pc := .asking (w.db.preferences job.userId) })
  | wrote {j job now write rest} (hj : w.jobs j = some job)
    (hpc : job.pc = .writing (write :: rest)) :
    Moves w (.advance j now)
      ((w.jobWrites job.userId job.missed write now).setJob j
        { job with pc := if rest = [] then .done else .writing rest })
  | replied {j job pairs current} (hj : w.jobs j = some job) (hpc : job.pc = .asking current) :
    Moves w (.replied j pairs)
      (w.setJob j
        { job with
          pc :=
            if writeBack current (consolidated pairs) = [] then .done
            else .writing (writeBack current (consolidated pairs)) })
  | failed {j job} (hj : w.jobs j = some job) (hpc : job.pc ≠ .done) :
    Moves w (.fails j) (w.setJob j { job with pc := .done })
  | shown {u} : Moves w (.showMemory u) { w with sent := w.sent ++ [(u, w.db.preferences u)] }
  | press {p c row u items item button index} (hp : w.presses p = none)
    (hc : w.sent[c]? = some (u, items)) (hrow : items[row]? = some item)
    (hbutton : memoryButton? items row = some button)
    (hindex : indexFromCallback button.callbackData memForgetPrefix = some index) :
    Moves w (.press p c row) (w.setPress p { userId := u, label := item.key, index })
  | found {p t} (hp : w.presses p = some t) (hpc : t.pc = .reading)
    (hlt : t.index < (w.db.preferences t.userId).length) :
    Moves w (.pressed p) (w.setPress p { t with pc := .deleting (w.db.preferences t.userId) })
  | past {p t} (hp : w.presses p = some t) (hpc : t.pc = .reading)
    (hle : (w.db.preferences t.userId).length ≤ t.index) :
    Moves w (.pressed p) (w.setPress p { t with pc := .editing (w.db.preferences t.userId) })
  | deleted {p t prefs pref} (hp : w.presses p = some t) (hpc : t.pc = .deleting prefs)
    (hpref : prefs[t.index]? = some pref) :
    Moves w (.pressed p)
      ((w.userWrites t.userId (w.db.deletePreference t.userId pref.key) pref.key none).setPress p
        { t with pc := .rereading })
  | reread {p t} (hp : w.presses p = some t) (hpc : t.pc = .rereading) :
    Moves w (.pressed p) (w.setPress p { t with pc := .editing (w.db.preferences t.userId) })
  | edited {p t prefs shown} (hp : w.presses p = some t) (hpc : t.pc = .editing prefs) :
    Moves w (.edited p shown)
      { w.setPress p { t with pc := .done } with
        sent := if shown then w.sent ++ [(t.userId, prefs)] else w.sent }

theorem remember_moves {w w' : World} {j : ℕ} {u : UserId} {key value : String} {now : ℤ}
    (h : w.remember j u key value now = some w') : Moves w (.remember j u key value now) w' := by
  unfold World.remember at h
  split at h
  case h_1 text hcheck => cases h; exact .refused hcheck
  case h_2 k v hcheck =>
    split_ifs at h with hj
    cases h
    exact .remembered hcheck (Option.not_isSome_iff_eq_none.mp hj)

theorem advance_moves {w w' : World} {j : ℕ} {job : Job} {now : ℤ} (hj : w.jobs j = some job)
    (h : w.advance j job now = some w') : Moves w (.advance j now) w' := by
  unfold World.advance at h
  split at h
  case h_1 hpc =>
    cases h
    split_ifs with hlen
    · exact .few hj hpc hlen
    · exact .snapshot hj hpc (not_lt.mp hlen)
  case h_2 hpc => cases h; exact .wrote hj hpc
  case h_3 => cases h

theorem press_moves {w w' : World} {p c row : ℕ} (h : w.press p c row = some w') :
    Moves w (.press p c row) w' := by
  unfold World.press at h
  split_ifs at h with hp
  obtain ⟨⟨u, items⟩, hc, h⟩ := Option.bind_eq_some_iff.mp h
  obtain ⟨item, hrow, h⟩ := Option.bind_eq_some_iff.mp h
  obtain ⟨button, hbutton, h⟩ := Option.bind_eq_some_iff.mp h
  obtain ⟨index, hindex, rfl⟩ := Option.map_eq_some_iff.mp h
  exact .press (Option.not_isSome_iff_eq_none.mp hp) hc hrow hbutton hindex

theorem pressed_moves {w w' : World} {p : ℕ} {t : Press} (hp : w.presses p = some t)
    (h : w.pressed p t = some w') : Moves w (.pressed p) w' := by
  unfold World.pressed at h
  split at h
  case h_1 hpc =>
    cases h
    split_ifs with hlt
    · exact .found hp hpc hlt
    · exact .past hp hpc (not_lt.mp hlt)
  case h_2 prefs hpc =>
    obtain ⟨pref, hpref, rfl⟩ := Option.map_eq_some_iff.mp h
    exact .deleted hp hpc hpref
  case h_3 hpc => cases h; exact .reread hp hpc
  case h_4 => cases h

theorem step_moves {w w' : World} {e : Event} (h : step w e = some w') : Moves w e w' := by
  cases e with
  | remember j u key value now => exact remember_moves h
  | forget u key =>
    dsimp only [step, World.forget] at h
    split_ifs at h with hkey
    · cases h
      exact .nothing hkey
    · cases h
      exact .forgotten hkey
  | advance j now =>
    obtain ⟨job, hj, h⟩ := Option.bind_eq_some_iff.mp h
    exact advance_moves hj h
  | replied j pairs =>
    obtain ⟨job, hj, h⟩ := Option.bind_eq_some_iff.mp h
    unfold World.replied at h
    split at h
    case h_1 hpc => cases h; exact .replied hj hpc
    case h_2 => cases h
  | fails j =>
    obtain ⟨job, hj, h⟩ := Option.bind_eq_some_iff.mp h
    unfold World.fails at h
    split_ifs at h with hpc
    cases h
    exact .failed hj hpc
  | showMemory u => cases h; exact .shown
  | press p c row => exact press_moves h
  | pressed p =>
    obtain ⟨t, hp, h⟩ := Option.bind_eq_some_iff.mp h
    exact pressed_moves hp h
  | edited p shown =>
    obtain ⟨t, hp, h⟩ := Option.bind_eq_some_iff.mp h
    unfold World.edited at h
    split at h
    case h_1 hpc => cases h; exact .edited hp hpc
    case h_2 => cases h

@[simp] theorem setJob_db (w : World) (j : ℕ) (job : Job) : (w.setJob j job).db = w.db := rfl

theorem setJob_jobs (w : World) (j j' : ℕ) (job : Job) :
    (w.setJob j job).jobs j' = if j' = j then some job else w.jobs j' := by
  simp [World.setJob, Function.update_apply]

theorem setJob_jobs_cases {w : World} {j j' : ℕ} {job job' : Job}
    (h : (w.setJob j job).jobs j' = some job') :
    (j' = j ∧ job' = job) ∨ w.jobs j' = some job' := by
  rw [setJob_jobs] at h
  by_cases hj : j' = j
  · rw [if_pos hj, Option.some.injEq] at h
    exact .inl ⟨hj, h.symm⟩
  · rw [if_neg hj] at h
    exact .inr h

@[simp] theorem setJob_jobs_self (w : World) (j : ℕ) (job : Job) :
    (w.setJob j job).jobs j = some job := Function.update_self _ _ _

@[simp] theorem setJob_promised (w : World) (j : ℕ) (job : Job) :
    (w.setJob j job).promised = w.promised := rfl

@[simp] theorem setPress_db (w : World) (p : ℕ) (t : Press) : (w.setPress p t).db = w.db := rfl

@[simp] theorem setPress_jobs (w : World) (p : ℕ) (t : Press) :
    (w.setPress p t).jobs = w.jobs := rfl

@[simp] theorem userWrites_db (w : World) (u : UserId) (db : Store) (key : String)
    (effect : Option String) : (w.userWrites u db key effect).db = db := rfl

theorem jobWrites_preference? (w : World) (u u' : UserId) (missed : List String) (write : Write)
    (now : ℤ) (key' : String) :
    (w.jobWrites u missed write now).db.preference? u' key' =
      if u' = u ∧ key' = write.key then write.effect else w.db.preference? u' key' := by
  cases write with
  | delete key => exact Store.preference?_deletePreference
  | set key value => exact Store.preference?_setPreference

end Chic.Profile
