import Chic.ProfileMoves

namespace Chic.Profile
open AppDb Keyboards Trace

/-- The step of a press that decides what is removed: its delete, or its read when nothing
stands at its index; with the user and the key that the button's text shows. -/
def settles (w : World) (p : ℕ) : Option (UserId × String) :=
  (w.presses p).bind fun t =>
    match t.pc with
    | .reading =>
      if t.index < (w.db.preferences t.userId).length then none else some (t.userId, t.label)
    | .deleting _ => some (t.userId, t.label)
    | _ => none

/-- A press removes the preference on its label, when it is there, and no other. -/
def HitsLabel (w : World) : Event → Prop
  | .pressed p => ∀ w', step w (.pressed p) = some w' →
      w'.db = match settles w p with
        | some (userId, label) => w.db.deletePreference userId label
        | none => w.db
  | _ => True

/-- The key is among the ones read, and as many keys as the index says sort before it. -/
def InPlace (prefs : List Preference) (key : String) (index : ℕ) : Prop :=
  (∃ p ∈ prefs, p.key = key) ∧ prefs.countP (·.key < key) = index

/-- The label still has its place when the press reads the profile, or all is gone that could
be removed: by the time of the delete both the label and the key at its place, or, with
nothing at its place, the label. -/
def KeepsPlace (w : World) : Event → Prop
  | .pressed p => ∀ t, w.presses p = some t →
      (∀ prefs, t.pc = .deleting prefs → InPlace prefs t.label t.index ∨
        (∀ pref, prefs[t.index]? = some pref → w.db.preference? t.userId pref.key = none) ∧
          w.db.preference? t.userId t.label = none) ∧
      (t.pc = .reading → (w.db.preferences t.userId).length ≤ t.index →
        w.db.preference? t.userId t.label = none)
  | _ => True

/-- In a list with strictly sorted keys the place of a key is its rank. -/
theorem getElem?_key_iff_inPlace {prefs : List Preference} (hs : prefs.Pairwise (·.key < ·.key))
    (key : String) (index : ℕ) :
    prefs[index]?.map (·.key) = some key ↔ InPlace prefs key index := by
  induction prefs generalizing index with
  | nil => simp [InPlace]
  | cons p ps ih =>
    obtain ⟨hp, hs⟩ := List.pairwise_cons.mp hs
    by_cases hkey : p.key = key
    · -- nothing sorts before the first key
      have hnone : (p :: ps).countP (·.key < key) = 0 := by
        rw [List.countP_eq_zero]
        intro q hq
        rw [decide_eq_true_eq, not_lt, ← hkey]
        rcases List.mem_cons.mp hq with rfl | hq
        · exact le_rfl
        · exact (hp q hq).le
      have hzero : InPlace (p :: ps) key index ↔ 0 = index := by
        rw [InPlace, hnone]
        exact and_iff_right ⟨p, List.mem_cons_self, hkey⟩
      rw [hzero]
      cases index with
      | zero => simp [hkey]
      | succ i =>
        simp only [List.getElem?_cons_succ, Nat.zero_ne_add_one, iff_false]
        intro h
        obtain ⟨q, hq, rfl⟩ := Option.map_eq_some_iff.mp h
        exact absurd hkey (hp q (List.mem_of_getElem? hq)).ne
    · have hmem : (∃ q ∈ p :: ps, q.key = key) ↔ ∃ q ∈ ps, q.key = key := by
        simp [hkey]
      by_cases hlt : p.key < key
      · have hcount : (p :: ps).countP (·.key < key) = ps.countP (·.key < key) + 1 := by
          rw [List.countP_cons_of_pos (by simpa using hlt)]
        rw [InPlace, hmem, hcount]
        cases index with
        | zero => simp [hkey]
        | succ i => simpa [InPlace] using ih hs i
      · -- a key before the first one is not in the list
        have hnot : ¬ ∃ q ∈ ps, q.key = key := by
          intro h
          obtain ⟨q, hq, rfl⟩ := h
          exact hlt (hp q hq)
        rw [InPlace, hmem]
        simp only [hnot, false_and, iff_false]
        cases index with
        | zero => simp [hkey]
        | succ i =>
          intro h
          exact hnot ((ih hs i).mp h).1

/-- What a rendering lists: keys in order, no more of them than fit. -/
def Listing (items : List Preference) : Prop :=
  items.Pairwise (·.key < ·.key) ∧ items.length ≤ Store.maxRenderedPreferences

theorem listing_preferences (db : Store) (u : UserId) : Listing (db.preferences u) :=
  ⟨Store.preferences_sorted db u, Store.length_preferences_le db u⟩

theorem Listing.index_of_button {items : List Preference} (h : Listing items) {row index : ℕ}
    {item : Preference} {button : Button} (hrow : items[row]? = some item)
    (hbutton : memoryButton? items row = some button)
    (hindex : indexFromCallback button.callbackData memForgetPrefix = some index) :
    index = row := by
  rw [memoryButton?_eq, hrow] at hbutton
  cases hbutton
  have hlt : row < 10 ^ 64 := by
    have hlen := h.2
    have := (List.getElem?_eq_some_iff.mp hrow).1
    rw [Store.maxRenderedPreferences] at hlen
    exact lt_of_lt_of_le (by omega : row < 50) (by decide)
  rw [indexFromCallback_forgetButton hlt] at hindex
  exact (Option.some.inj hindex).symm

/-- The index of a press is the place of its label in a message the user was sent, and what it
has read reaches to its index. -/
structure PressOk (w : World) (t : Press) : Prop where
  sent : ∃ items, (t.userId, items) ∈ w.sent ∧ InPlace items t.label t.index
  deleting : ∀ prefs, t.pc = .deleting prefs → Listing prefs ∧ t.index < prefs.length
  editing : ∀ prefs, t.pc = .editing prefs → Listing prefs

structure PressInv (w : World) : Prop where
  sent : ∀ u items, (u, items) ∈ w.sent → Listing items
  presses : ∀ p t, w.presses p = some t → PressOk w t

theorem PressOk.mono {w w' : World} {t : Press} (h : PressOk w t) (hsent : w.sent ⊆ w'.sent) :
    PressOk w' t := by
  obtain ⟨items, hmem, hplace⟩ := h.sent
  exact ⟨⟨items, hsent hmem, hplace⟩, h.deleting, h.editing⟩

theorem PressInv.set {w w' : World} (hw : PressInv w) {p : ℕ} {t : Press}
    (hpresses : w'.presses = Function.update w.presses p (some t)) (hsub : w.sent ⊆ w'.sent)
    (hsent : ∀ u items, (u, items) ∈ w'.sent → (u, items) ∈ w.sent ∨ Listing items)
    (ht : PressOk w' t) : PressInv w' := by
  refine ⟨?_, ?_⟩
  · intro u items h
    rcases hsent u items h with h | h
    · exact hw.sent u items h
    · exact h
  · intro q t' h
    rw [hpresses, Function.update_apply] at h
    split_ifs at h
    · cases h
      exact ht
    · exact (hw.presses q t' h).mono hsub

/-- A press goes on with what it has just read. -/
theorem PressInv.next {w w' : World} (hw : PressInv w) {p : ℕ} {t : Press}
    (hp : w.presses p = some t) {pc : PressPc} (hsent : w'.sent = w.sent)
    (hpresses : w'.presses = Function.update w.presses p (some { t with pc }))
    (hdeleting : ∀ prefs, pc = .deleting prefs → Listing prefs ∧ t.index < prefs.length)
    (hediting : ∀ prefs, pc = .editing prefs → Listing prefs) : PressInv w' := by
  refine hw.set hpresses (hsent ▸ List.Subset.refl _) (fun u items h => .inl (hsent ▸ h)) ?_
  obtain ⟨items, hmem, hplace⟩ := (hw.presses p t hp).sent
  exact ⟨⟨items, hsent ▸ hmem, hplace⟩, hdeleting, hediting⟩

theorem PressInv.step {w w' : World} (hw : PressInv w) {e : Event}
    (hstep : Profile.step w e = some w') : PressInv w' := by
  cases step_moves hstep with
  | @shown u =>
    refine ⟨?_, fun p t h => (hw.presses p t h).mono (List.subset_append_left _ _)⟩
    intro v items h
    rcases List.mem_append.mp h with h | h
    · exact hw.sent v items h
    · cases List.mem_singleton.mp h
      exact listing_preferences w.db u
  -- the button was shown at this index, since a listing has each key once
  | @press p c row u items item button index hp hc hrow hbutton hindex =>
    have hmem := List.mem_of_getElem? hc
    have hlist := hw.sent u items hmem
    refine hw.set rfl (List.Subset.refl _) (fun _ _ h => .inl h) ⟨⟨items, hmem, ?_⟩, ?_, ?_⟩
    · rw [← getElem?_key_iff_inPlace hlist.1, hlist.index_of_button hrow hbutton hindex, hrow]
      rfl
    · intro prefs h
      cases h
    · intro prefs h
      cases h
  | @found p t hp hpc hlt =>
    refine hw.next hp rfl rfl ?_ (fun _ h => (by cases h))
    intro prefs h
    cases h
    exact ⟨listing_preferences w.db t.userId, hlt⟩
  -- what is read now is a listing of its own, and no index is kept
  | @past p t hp | @reread p t hp =>
    refine hw.next hp rfl rfl (fun _ h => (by cases h)) ?_
    intro prefs h
    cases h
    exact listing_preferences w.db t.userId
  | @deleted p t prefs pref hp hpc hpref =>
    exact hw.next hp rfl rfl (fun _ h => (by cases h)) (fun _ h => (by cases h))
  | @edited p t prefs shown hp hpc =>
    have hok := hw.presses p t hp
    have hsub : w.sent ⊆ if shown then w.sent ++ [(t.userId, prefs)] else w.sent := by
      split_ifs
      · exact List.subset_append_left _ _
      · exact List.Subset.refl _
    refine hw.set rfl hsub ?_ ⟨?_, fun _ h => (by cases h), fun _ h => (by cases h)⟩
    · intro u items h
      dsimp only at h
      split_ifs at h
      · rcases List.mem_append.mp h with h | h
        · exact .inl h
        · cases List.mem_singleton.mp h
          exact .inr (hok.editing prefs hpc)
      · exact .inl h
    · obtain ⟨items, hmem, hplace⟩ := hok.sent
      exact ⟨items, hsub hmem, hplace⟩
  | _ => exact ⟨hw.sent, fun p t h => (hw.presses p t h).mono (List.Subset.refl _)⟩

theorem pressInv_init : PressInv World.init := by
  refine ⟨?_, ?_⟩
  · intro u items h
    cases h
  · intro p t h
    cases h

/-- The step that decides a press removes what its label says exactly when the label has kept
its place. -/
theorem hitsLabel_iff_keepsPlace {w w' : World} (hw : PressInv w) {e : Event}
    (hstep : step w e = some w') : HitsLabel w e ↔ KeepsPlace w e := by
  have hhits : ∀ p, e = .pressed p → (HitsLabel w e ↔ w'.db = match settles w p with
      | some (userId, label) => w.db.deletePreference userId label
      | none => w.db) := by
    intro p hp
    subst hp
    rw [HitsLabel, hstep]
    simp
  cases step_moves hstep with
  | @found p t hp hpc hlt =>
    rw [hhits p rfl, settles, hp]
    simp [KeepsPlace, hp, hpc, hlt, not_le.mpr hlt]
  | @past p t hp hpc hle =>
    rw [hhits p rfl, settles, hp]
    simp [KeepsPlace, hp, hpc, hle, not_lt.mpr hle, eq_comm (a := w.db),
      Store.deletePreference_eq_self_iff]
  | @deleted p t prefs pref hp hpc hpref =>
    have hsorted := ((hw.presses p t hp).deleting prefs hpc).1.1
    have hplace : InPlace prefs t.label t.index ↔ pref.key = t.label := by
      rw [← getElem?_key_iff_inPlace hsorted, hpref]
      simp
    rw [hhits p rfl, settles, hp]
    simp [KeepsPlace, hp, hpc, hpref, hplace, Store.deletePreference_eq_iff]
  | @reread p t hp hpc =>
    rw [hhits p rfl, settles, hp]
    simp [KeepsPlace, hp, hpc]
  | _ => exact Iff.rfl

/-- Over whole runs: every press removes exactly what its button shows if and only if each label
keeps the place it had in the message. -/
theorem presses_hit_labels_iff {w : World} {es : List Event}
    (hrun : run step World.init es = some w) :
    Along step HitsLabel World.init es ↔ Along step KeepsPlace World.init es :=
  along_iff (fun _ _ _ hw hs => hw.step hs) (fun _ _ _ hw hs => hitsLabel_iff_keepsPlace hw hs)
    pressInv_init hrun

def firstPress : List Event :=
  [.remember 0 1 "a" "x" 0, .remember 1 1 "b" "y" 0, .showMemory 1, .press 0 0 0, .pressed 0,
    .pressed 0]

theorem firstPress_hits : ∃ w, run step World.init firstPress = some w ∧
    (Along step HitsLabel World.init firstPress ↔ Along step KeepsPlace World.init firstPress) := by
  have h : (run step World.init firstPress).isSome := by decide +kernel
  obtain ⟨w, hrun⟩ := Option.isSome_iff_exists.mp h
  exact ⟨w, hrun, presses_hit_labels_iff hrun⟩

/-- A second tap on the same button, labelled `a`, removes `b`. -/
theorem secondPress_misses : ∃ w, run step World.init (firstPress ++ [.press 1 0 0, .pressed 1]) =
    some w ∧ (w.presses 1).map (·.label) = some "a" ∧ ¬ HitsLabel w (.pressed 1) := by
  have h : ((run step World.init (firstPress ++ [.press 1 0 0, .pressed 1])).map fun w =>
      (settles w 1, w.db.preference? 1 "b", (w.presses 1).map (·.label),
        ((step w (.pressed 1)).map fun w' => w'.db.preference? 1 "b"))) =
      some (some (1, "a"), some "y", some "a", some none) := by decide +kernel
  obtain ⟨w, hrun, hw⟩ := Option.map_eq_some_iff.mp h
  simp only [Prod.mk.injEq] at hw
  obtain ⟨hsettles, hstored, hlabel, hafter⟩ := hw
  obtain ⟨w', hstep, hgone⟩ := Option.map_eq_some_iff.mp hafter
  refine ⟨w, hrun, hlabel, ?_⟩
  intro hhits
  have hdb := hhits w' hstep
  rw [hsettles] at hdb
  rw [hdb] at hgone
  simp [hstored] at hgone

end Chic.Profile
