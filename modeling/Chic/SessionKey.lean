import Chic.Json
import Chic.SessionIsolation

namespace Chic.AppDb

/-- `session_key`: the user and the id of the last boundary. -/
def Store.sessionKey (db : Store) (userId : UserId) : String :=
  toString userId ++ ":" ++ toString (db.messages.sessionEpoch userId)

theorem toList_toString_int (z : ℤ) : (toString z).toList = Json.renderInt z := by
  have hnat (n : ℕ) : (toString n).toList = Nat.toDigits 10 n := by
    rw [Nat.toString_eq_ofList_toDigits, String.toList_ofList]
  cases z with
  | ofNat n => exact hnat n
  | negSucc n =>
    change ("-" ++ toString (n + 1)).toList = _
    rw [String.toList_append, hnat, Json.renderInt, if_pos (Int.negSucc_lt_zero n)]
    rfl

theorem sessionKey_inj {db db' : Store} {u u' : UserId} :
    db.sessionKey u = db'.sessionKey u' ↔
      u = u' ∧ db.messages.sessionEpoch u = db'.messages.sessionEpoch u' := by
  have hchars (db : Store) (u : UserId) : (db.sessionKey u).toList = Json.renderInt u ++
      ':' :: Nat.toDigits 10 (db.messages.sessionEpoch u) := by
    rw [Store.sessionKey, String.toList_append, String.toList_append, toList_toString_int,
      Nat.toString_eq_ofList_toDigits, List.append_assoc]
    simp only [String.toList_ofList]
    rfl
  have hstops (n : ℕ) : Json.Stops (':' :: Nat.toDigits 10 n) := by
    rintro c ⟨⟩
    rfl
  rw [← String.toList_inj, hchars, hchars]
  constructor
  · intro h
    obtain ⟨hu, hepoch⟩ := Json.renderInt_reads (hstops _) (hstops _) h
    have hvalue := congrArg (Nat.ofDigitChars 10 · 0) (List.cons.inj hepoch).2
    exact ⟨hu, by simpa only [Nat.ofDigitChars_ten_toDigits] using hvalue⟩
  · rintro ⟨rfl, hepoch⟩
    rw [hepoch]

end Chic.AppDb

namespace Chic.Dialog
open AppDb Trace

def Spoken (w : World) : Prop := ∀ i t pending, w.turns i = some t → t.pc = .persisting pending →
  ∀ p ∈ pending, p.1 ≠ .reset

section
variable {w w' : World} {u : UserId}

theorem Spoken.setTurn (hw : Spoken w) {i : ℕ} {t : Turn}
    (ht : ∀ pending, t.pc = .persisting pending → ∀ p ∈ pending, p.1 ≠ .reset) :
    Spoken (w.setTurn i t) := by
  intro j t' pending ht' hpc
  rw [setTurn_turns] at ht'
  split_ifs at ht' with hji
  · cases ht'
    exact ht pending hpc
  · exact hw j t' pending ht' hpc

theorem persist_pending {t : Turn} {pending pending' : List (Role × String)}
    (h : (t.persist pending).pc = .persisting pending') : pending' = pending := by
  unfold Turn.persist at h
  split_ifs at h
  exact (TurnPc.persisting.inj h).symm

/-- A step that stores no boundary leaves every session as it is. -/
theorem spoken_step (hw : Spoken w) {e : Event} (h : step w e = some w') :
    Spoken w' ∧ ((∃ v, e = .reset v ∧ w' = w.reset v) ∨
      ∀ u, e ≠ .reset u ∧ w'.db.messages.sessionEpoch u = w.db.messages.sessionEpoch u) := by
  have hkeep {i : ℕ} {t : Turn} {pending : List (Role × String)}
      (hroles : ∀ p ∈ pending, p.1 ≠ .reset) : Spoken (w.setTurn i (t.persist pending)) :=
    hw.setTurn fun pending' hpc => persist_pending hpc ▸ hroles
  have hquiet {i : ℕ} {t : Turn} (hpc : ∀ pending, t.pc ≠ .persisting pending) :
      Spoken (w.setTurn i t) := hw.setTurn fun pending h => absurd h (hpc pending)
  have hsame {e : Event} (he : ∀ u, e ≠ .reset u) : ∀ u, e ≠ .reset u ∧
      w.db.messages.sessionEpoch u = w.db.messages.sessionEpoch u := fun u => ⟨he u, rfl⟩
  cases step_moves h with
  | reset v =>
    refine ⟨?_, .inl ⟨v, rfl, rfl⟩⟩
    intro i t pending ht hpc
    obtain ⟨t₀, ht₀, -, -, hpc₀, -⟩ := reset_turns ht
    exact hw i t₀ pending ht₀ (hpc₀ ▸ hpc)
  | persisted ht hpc =>
    rename_i i t role content rest
    have hroles := hw i t _ ht hpc
    refine ⟨hkeep fun p hp => hroles p (List.mem_cons_of_mem _ hp), .inr fun u => ⟨nofun, ?_⟩⟩
    exact Messages.sessionEpoch_append_of_ne fun h => hroles _ List.mem_cons_self h.2
  | answered ht hpc hout =>
    obtain ⟨answer, -, rfl⟩ := hout
    exact ⟨hkeep (pending_roles _ _), .inr (hsame nofun)⟩
  | skipped ht hpc =>
    have hroles := hw _ _ _ ht hpc
    exact ⟨hkeep fun p hp => hroles p (List.mem_cons_of_mem _ hp), .inr (hsame nofun)⟩
  | _ => exact ⟨hquiet nofun, .inr (hsame nofun)⟩

theorem epoch_step (hw : Spoken w) {e : Event} (h : step w e = some w') :
    Spoken w' ∧ w.db.messages.sessionEpoch u ≤ w'.db.messages.sessionEpoch u ∧
      (w.db.messages.sessionEpoch u = w'.db.messages.sessionEpoch u ↔ e ≠ .reset u) := by
  obtain ⟨hw', ⟨v, rfl, rfl⟩ | hsame⟩ := spoken_step hw h
  · refine ⟨hw', ?_⟩
    rcases eq_or_ne v u with rfl | hne
    · have hlater : (w.reset v).db.messages.sessionEpoch v = w.db.messages.lastId + 1 :=
        Messages.sessionEpoch_append_reset
      have hle := Messages.sessionEpoch_le_lastId w.db.messages v
      refine ⟨by omega, iff_of_false (by omega) (not_not.mpr rfl)⟩
    · have hequal : (w.reset v).db.messages.sessionEpoch u = w.db.messages.sessionEpoch u :=
        Messages.sessionEpoch_append_of_ne fun h => hne h.1
      exact ⟨hequal.ge, iff_of_true hequal.symm fun h => hne (Event.reset.inj h)⟩
  · exact ⟨hw', (hsame u).2.ge, iff_of_true (hsame u).2.symm (hsame u).1⟩

theorem epoch_run (hw : Spoken w) {es : List Event} (h : run step w es = some w') :
    Spoken w' ∧ w.db.messages.sessionEpoch u ≤ w'.db.messages.sessionEpoch u ∧
      (w.db.messages.sessionEpoch u = w'.db.messages.sessionEpoch u ↔ .reset u ∉ es) := by
  induction es generalizing w with
  | nil =>
    cases h
    exact ⟨hw, le_rfl, iff_of_true rfl List.not_mem_nil⟩
  | cons e es ih =>
    obtain ⟨v, he, hes⟩ := run_cons_some.mp h
    obtain ⟨hv, hle, hiff⟩ := epoch_step (u := u) hw he
    obtain ⟨hw', hle', hiff'⟩ := ih hv hes
    refine ⟨hw', hle.trans hle', ?_⟩
    have hne : ¬ Event.reset u = e ↔ e ≠ .reset u := ne_comm
    rw [List.mem_cons, not_or, ← hiff', hne, ← hiff]
    omega

end

/-- The key of a conversation in the traces: at two moments of a run two users have one key exactly when
they are one user with no `/new` in between, so a key is never used again. -/
theorem sessionKey_rolls_over {w w' : World} {es es' : List Event}
    (h : run step World.init es = some w) (h' : run step w es' = some w') (u u' : UserId) :
    w.db.sessionKey u = w'.db.sessionKey u' ↔ u = u' ∧ .reset u ∉ es' := by
  have hinit : Spoken World.init := fun i t pending ht => by cases ht
  have hw := (epoch_run (u := u) hinit h).1
  rw [sessionKey_inj]
  constructor
  · rintro ⟨rfl, hepoch⟩
    exact ⟨rfl, (epoch_run hw h').2.2.mp hepoch⟩
  · rintro ⟨rfl, hnew⟩
    exact ⟨rfl, (epoch_run hw h').2.2.mpr hnew⟩

/-- One of two users starts over. -/
theorem sevenStartsOver_keys : ∃ w w', run step World.init [.reset 8] = some w ∧
    run step w [.reset 7] = some w' ∧ w.db.sessionKey 7 ≠ w'.db.sessionKey 7 ∧
      w.db.sessionKey 8 = w'.db.sessionKey 8 := by
  have h8 : run step World.init [.reset 8] = some (World.init.reset 8) := rfl
  have h7 : run step (World.init.reset 8) [.reset 7] =
      some ((World.init.reset 8).reset 7) := rfl
  have hkeys (u : UserId) := sessionKey_rolls_over h8 h7 u u
  refine ⟨_, _, rfl, rfl, ?_, ?_⟩
  · rw [ne_eq, hkeys]
    simp
  · rw [hkeys]
    simp

end Chic.Dialog
