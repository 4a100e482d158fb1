import Chic.ProfileMoves

namespace Chic.Profile
open AppDb Trace

/-- The user's last operation on a key stands, as long as no consolidation that has seen it
writes the key. -/
def Kept (w : World) : Prop :=
  ∀ u key effect, w.promised (u, key) = some effect → w.db.preference? u key = effect

/-- A write-back of a key that the user touched after the snapshot was read repeats what the
user's last operation left there. -/
def RepeatsUser (w : World) : Event → Prop
  | .advance j _ => ∀ job write rest, w.jobs j = some job →
      job.pc = .writing (write :: rest) → write.key ∈ job.missed →
        ∀ effect, w.promised (job.userId, write.key) = some effect → write.effect = effect
  | _ => True

section
variable {w w' : World}

theorem Kept.of_eq (hw : Kept w) (hdb : w'.db = w.db) (hp : w'.promised = w.promised) : Kept w' := by
  intro u key effect h
  rw [hp] at h
  rw [hdb]
  exact hw u key effect h

theorem Kept.userWrites (hw : Kept w) {u : UserId} {db : Store} {key : String}
    {effect : Option String}
    (hdb : ∀ u' key', db.preference? u' key' =
      if u' = u ∧ key' = key then effect else w.db.preference? u' key') :
    Kept (w.userWrites u db key effect) := by
  intro u' key' effect' h
  change Function.update w.promised (u, key) (some effect) (u', key') = some effect' at h
  change db.preference? u' key' = effect'
  rw [Function.update_apply] at h
  rw [hdb]
  by_cases hkey : u' = u ∧ key' = key
  · rw [if_pos (by rw [hkey.1, hkey.2])] at h
    rw [if_pos hkey]
    exact Option.some.inj h
  · rw [if_neg (by simpa using hkey)] at h
    rw [if_neg hkey]
    exact hw u' key' effect' h

/-- A write-back that repeats the user's operation, or writes a key whose last operation it
has seen. -/
theorem Kept.jobWrites (hw : Kept w) {u : UserId} {missed : List String} {write : Write} {now : ℤ}
    (hrepeats : write.key ∈ missed →
      ∀ effect, w.promised (u, write.key) = some effect → write.effect = effect) :
    Kept (w.jobWrites u missed write now) := by
  intro u' key' effect h
  rw [jobWrites_preference?]
  change (if write.key ∈ missed then w.promised
    else Function.update w.promised (u, write.key) none) (u', key') = some effect at h
  by_cases hkey : u' = u ∧ key' = write.key
  · obtain ⟨rfl, rfl⟩ := hkey
    rw [if_pos ⟨rfl, rfl⟩]
    -- a key that the snapshot has counts as seen from here on
    by_cases hmissed : write.key ∈ missed
    · rw [if_pos hmissed] at h
      exact hrepeats hmissed effect h
    · rw [if_neg hmissed, Function.update_self] at h
      cases h
  · rw [if_neg hkey]
    split_ifs at h
    · exact hw u' key' effect h
    · rw [Function.update_of_ne (by simpa using hkey)] at h
      exact hw u' key' effect h

theorem kept_init : Kept World.init := by
  intro u key effect h
  cases h

theorem Kept.step (hw : Kept w) {e : Event} (hrepeats : RepeatsUser w e)
    (hstep : Profile.step w e = some w') : Kept w' := by
  cases step_moves hstep with
  | remembered hcheck hj =>
    exact (hw.userWrites fun _ _ => Store.preference?_setPreference).of_eq rfl rfl
  | forgotten hkey => exact hw.userWrites fun _ _ => Store.preference?_deletePreference
  | deleted hp hpc hpref =>
    exact (hw.userWrites fun _ _ => Store.preference?_deletePreference).of_eq rfl rfl
  | wrote hj hpc =>
    exact (hw.jobWrites fun hmissed => hrepeats _ _ _ hj hpc hmissed).of_eq rfl rfl
  | _ => exact hw.of_eq rfl rfl

/-- A write-back that does not repeat the user's operation undoes it. -/
theorem Kept.lost {e : Event} (hother : ¬ RepeatsUser w e)
    (hstep : Profile.step w e = some w') : ¬ Kept w' := by
  cases e with
  | advance j now =>
    simp only [RepeatsUser, not_forall] at hother
    obtain ⟨job, write, rest, hj, hpc, hmissed, effect, hpromised, hne⟩ := hother
    have hw' : (w.jobWrites job.userId job.missed write now).setJob j
        { job with pc := if rest = [] then .done else .writing rest } = w' := by
      simpa [Profile.step, hj, World.advance, hpc] using hstep
    intro hkept
    apply hne
    have hstill : w'.promised (job.userId, write.key) = some effect := by
      have hsame : (w.jobWrites job.userId job.missed write now).promised = w.promised :=
        if_pos hmissed
      rw [← hw', setJob_promised, hsame]
      exact hpromised
    have hvalue := hkept job.userId write.key effect hstill
    rw [← hw', setJob_db, jobWrites_preference?, if_pos ⟨rfl, rfl⟩] at hvalue
    exact hvalue
  | _ => exact (hother trivial).elim

end

def eighthPreference : List Event :=
  let remember (j : ℕ) (key : String) : List Event :=
    [.remember j 1 key "x" j, .advance j 0]
  remember 0 "a" ++ remember 1 "b" ++ remember 2 "c" ++ remember 3 "d" ++ remember 4 "e" ++
    remember 5 "f" ++ remember 6 "g" ++ remember 7 "h"

/-- The model merges `g` and `h`, and the user stays out of the way. -/
def mergingRun : List Event :=
  eighthPreference ++
    [.replied 7 [("a", "x"), ("b", "x"), ("c", "x"), ("d", "x"), ("e", "x"), ("f", "x"),
      ("g", "x")], .advance 7 9, .advance 7 9]

/-- The user forgets `a` while the model answers with the profile as it was. -/
def undoingRun : List Event :=
  eighthPreference ++
    [.forget 1 "a", .replied 7 [("a", "x"), ("b", "x"), ("c", "x"), ("d", "x"), ("e", "x"),
      ("f", "x"), ("g", "x"), ("h", "x")]] ++ List.replicate 8 (.advance 7 9)

end Chic.Profile
