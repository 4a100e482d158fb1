import Chic.AppRuns

namespace Chic.App
open AppDb (UserId Store sessionKey_inj)
open Chic.Bot Effects Telegram

/-- Every session key that has been read names the session of its user then; it is still the session of
that user when no `/new` has come since. -/
def KeysKept (s : State) : Prop :=
  ∀ l i u k l', s.server.log = l ++ (i, ⟨.sessionKey u, some k⟩) :: l' →
    ∃ db : Store, k = db.sessionKey u ∧
      db.messages.sessionEpoch u ≤ s.dialog.db.messages.sessionEpoch u ∧
      (db.messages.sessionEpoch u = s.dialog.db.messages.sessionEpoch u ↔
        ∀ j, (j, ⟨.reset u, some ()⟩) ∉ l')

/-- Two keys are one exactly when they are of one user with no `/new` in between. -/
def KeysApart (s : State) : Prop :=
  ∀ l i u k l' j u' k' l'',
    s.server.log = l ++ (i, ⟨.sessionKey u, some k⟩) :: l' ++ (j, ⟨.sessionKey u', some k'⟩) :: l'' →
      (k = k' ↔ u = u' ∧ ∀ n, (n, ⟨.reset u, some ()⟩) ∉ l')

section
variable {app : Settings} {s s' : State} {m : Move} {u : UserId}

/-- The conversations take no step or one, and a boundary is one that the server has asked for. -/
theorem dialog_move (h : app.step s m = some s') (u : UserId) :
    (s'.dialog = s.dialog ∧ ∀ i, m ≠ .act i ⟨.reset u, some ()⟩) ∨
      ∃ e, Dialog.step s.dialog e = some s'.dialog ∧
        (e ≠ .reset u ↔ ∀ i, m ≠ .act i ⟨.reset u, some ()⟩) := by
  cases Settings.step_moves h with
  | input hserver => exact .inl ⟨rfl, by simp⟩
  | act hanswers hserver =>
    rename_i i d server
    by_cases hnew : ∃ v, d = ⟨.reset v, some ()⟩
    · obtain ⟨v, rfl⟩ := hnew
      exact .inr ⟨.reset v, rfl, by simp⟩
    · refine .inl ⟨?_, ?_⟩
      · dsimp only
        unfold State.conversations
        split
        · exact absurd ⟨_, rfl⟩ hnew
        · rfl
      · intro j hj
        cases hj
        exact hnew ⟨u, rfl⟩
  | refused => exact .inl ⟨rfl, by simp⟩
  | begun htask houtput hdialog => exact .inr ⟨_, hdialog, by simp⟩
  | advance hdialog => exact .inr ⟨_, hdialog, by simp⟩
  | summarised hdialog => exact .inr ⟨_, hdialog, by simp⟩
  | ran houtcome hdialog => exact .inr ⟨_, hdialog, by simp⟩
  | raises hdialog => exact .inr ⟨_, hdialog, by simp⟩

theorem epoch_move (hs : Dialog.Spoken s.dialog) (h : app.step s m = some s') (u : UserId) :
    s.dialog.db.messages.sessionEpoch u ≤ s'.dialog.db.messages.sessionEpoch u ∧
      (s.dialog.db.messages.sessionEpoch u = s'.dialog.db.messages.sessionEpoch u ↔
        ∀ i, m ≠ .act i ⟨.reset u, some ()⟩) := by
  rcases dialog_move h u with ⟨hdialog, hm⟩ | ⟨e, hdialog, hm⟩
  · rw [hdialog]
    exact ⟨le_rfl, iff_of_true rfl hm⟩
  · rw [← hm]
    exact (Dialog.epoch_step hs hdialog).2

theorem spoken_move (hs : Dialog.Spoken s.dialog) (h : app.step s m = some s') :
    Dialog.Spoken s'.dialog := by
  rcases dialog_move h 0 with ⟨hdialog, -⟩ | ⟨e, hdialog, -⟩
  · rw [hdialog]
    exact hs
  · exact (Dialog.spoken_step hs hdialog).1

theorem log_move (h : app.step s m = some s') :
    (s'.server.log = s.server.log ∧ ∀ i d, m ≠ .act i d) ∨
      ∃ i d, m = .act i d ∧ s.answers i d = true ∧ s'.server.log = s.server.log ++ [(i, d)] := by
  cases Settings.step_moves h with
  | input hserver =>
    cases hserver
    exact .inl ⟨rfl, by simp⟩
  | act hanswers hserver =>
    refine .inr ⟨_, _, rfl, hanswers, ?_⟩
    obtain ⟨task, -, htask⟩ := Option.bind_eq_some_iff.mp hserver
    obtain ⟨task', -, rfl⟩ := Option.map_eq_some_iff.mp htask
    rfl
  | _ => exact .inl ⟨rfl, by simp⟩

theorem KeysKept.step (hk : KeysKept s) (hs : Dialog.Spoken s.dialog) (h : app.step s m = some s') :
    KeysKept s' := by
  intro l i u k l' hlog
  obtain ⟨hle, hsame⟩ := epoch_move hs h u
  rcases log_move h with ⟨hsamelog, hm⟩ | ⟨j, d, rfl, hanswers, hgrown⟩
  · rw [hsamelog] at hlog
    rw [← hsame.mpr fun i => hm i _]
    exact hk l i u k l' hlog
  · rw [hgrown] at hlog
    rcases List.eq_nil_or_concat' l' with rfl | ⟨l', x, rfl⟩
    · -- the key has just been read
      obtain ⟨-, hlast⟩ := List.append_inj' hlog rfl
      cases hlast
      have hkey : k = s.dialog.db.sessionKey u := by simpa [State.answers] using hanswers
      have hquiet : ∀ n, Move.act i ⟨.sessionKey u, some k⟩ ≠ .act n ⟨.reset u, some ()⟩ := by
        intro n hn
        cases hn
      exact ⟨s.dialog.db, hkey, hle, iff_of_true (hsame.mpr hquiet) fun _ => List.not_mem_nil⟩
    · rw [← List.cons_append, ← List.append_assoc] at hlog
      obtain ⟨hbefore, hx⟩ := List.append_inj' hlog rfl
      cases hx
      obtain ⟨db, hkey, hle', hiff⟩ := hk l i u k l' hbefore
      refine ⟨db, hkey, hle'.trans hle, ?_⟩
      have hsplit : (∀ n, (n, ⟨.reset u, some ()⟩) ∉ l' ++ [(j, d)]) ↔
          (∀ n, (n, ⟨.reset u, some ()⟩) ∉ l') ∧ ∀ n, Move.act j d ≠ .act n ⟨.reset u, some ()⟩ := by
        simp only [List.mem_append, List.mem_singleton, not_or, forall_and, Prod.mk.injEq, ne_eq,
          Move.act.injEq, eq_comm]
      rw [hsplit, ← hiff, ← hsame]
      omega

theorem KeysApart.step (ha : KeysApart s) (hk : KeysKept s) (h : app.step s m = some s') :
    KeysApart s' := by
  intro l i u k l' j u' k' l'' hlog
  rcases log_move h with ⟨hsamelog, -⟩ | ⟨n, d, rfl, hanswers, hgrown⟩
  · rw [hsamelog] at hlog
    exact ha l i u k l' j u' k' l'' hlog
  · rw [hgrown] at hlog
    rcases List.eq_nil_or_concat' l'' with rfl | ⟨l'', x, rfl⟩
    · obtain ⟨hbefore, hlast⟩ := List.append_inj' hlog rfl
      cases hlast
      have hkey : k' = s.dialog.db.sessionKey u' := by simpa [State.answers] using hanswers
      obtain ⟨db, rfl, -, hiff⟩ := hk l i u k l' hbefore
      rw [hkey, sessionKey_inj, ← hiff]
      constructor
      · rintro ⟨rfl, hepoch⟩
        exact ⟨rfl, hepoch⟩
      · rintro ⟨rfl, hepoch⟩
        exact ⟨rfl, hepoch⟩
    · rw [← List.cons_append, ← List.append_assoc] at hlog
      exact ha l i u k l' j u' k' l'' (List.append_inj' hlog rfl).1

end

/-- The sessions of the traces: the span of a turn carries the key that its task has read for the user,
and two keys that were read, for whatever users and tasks, are one exactly when the user is
one and no `/new` of that user was carried out between the two reads. -/
theorem spans_by_session {app : Settings} {s : State} {ms : List Move}
    (h : Trace.run app.step app.start ms = some s) :
    (∀ l i value k u hasImage r l',
      s.server.log = l ++ (i, ⟨.startSpan value k u hasImage, r⟩) :: l' →
        (i, ⟨.sessionKey u, some k⟩) ∈ l) ∧
      ∀ l i u k l' j u' k' l'',
        s.server.log = l ++ (i, ⟨.sessionKey u, some k⟩) :: l' ++
            (j, ⟨.sessionKey u', some k'⟩) :: l'' →
          (k = k' ↔ u = u' ∧ ∀ n, (n, ⟨.reset u, some ()⟩) ∉ l') := by
  refine ⟨fun l i value k u hasImage r l' hlog => ?_, ?_⟩
  · obtain ⟨es, hserver⟩ := Settings.server_run h
    obtain ⟨update, event, -, hkeeps⟩ := ChicBot.run_keeps hserver hlog
    rcases hkeeps.allowed_or with ⟨v, -, -, hpermitted⟩ | ⟨-, hrefused⟩
    · cases hpermitted with
      | startSpan hsession => exact ChicBot.mem_past hsession
    · cases hrefused
  · have hinv : ∀ s m s', (Dialog.Spoken s.dialog ∧ KeysKept s ∧ KeysApart s) →
        app.step s m = some s' → Dialog.Spoken s'.dialog ∧ KeysKept s' ∧ KeysApart s' := by
      rintro s m s' ⟨hs, hk, ha⟩ h
      exact ⟨spoken_move hs h, hk.step hs h, ha.step hk h⟩
    have hstart : Dialog.Spoken app.start.dialog ∧ KeysKept app.start ∧ KeysApart app.start := by
      refine ⟨fun i t pending ht => (by cases ht), ?_, ?_⟩
      · intro l i u k l' hlog
        simp [Settings.start, Server.start] at hlog
      · intro l i u k l' j u' k' l'' hlog
        simp [Settings.start, Server.start] at hlog
    exact (Trace.run_invariant hinv hstart h).2.2

def tracedApp : Settings := ⟨{ shopBot with traced := true }, {}, 30, false⟩

def salesSpan : Effect := .startSpan "продажи" "1:0" 1 false

/-- Two questions with a `/new` between them. -/
def tracedMoves : List Move :=
  [.input (delivered 7 (.message (textMessage 1 "продажи"))),
    .act 0 ⟨.sessionKey 1, some "1:0"⟩,
    .input (delivered 8 (.message (textMessage 1 "/new"))),
    .act 1 ⟨.reset 1, some ()⟩,
    .input (delivered 9 (.message (textMessage 1 "остатки"))),
    .act 2 ⟨.sessionKey 1, some "1:1"⟩,
    .act 0 ⟨salesSpan, some "s1"⟩]

/-- The span that starts after the `/new` belongs to the session before it. -/
theorem tracedMoves_sessions : ∃ s, Trace.run tracedApp.step tracedApp.start tracedMoves = some s ∧
    (0, ⟨.sessionKey 1, some "1:0"⟩) ∈ s.server.log.take 3 ∧
      ∃ n, (n, ⟨.reset 1, some ()⟩) ∈ (s.server.log.drop 1).take 1 := by
  have hrun : (Trace.run tracedApp.step tracedApp.start tracedMoves).map (·.server.log) = some
      [(0, ⟨.sessionKey 1, some "1:0"⟩), (1, ⟨.reset 1, some ()⟩), (2, ⟨.sessionKey 1, some "1:1"⟩),
        (0, ⟨salesSpan, some "s1"⟩)] := by decide +kernel
  obtain ⟨s, h, hlog⟩ := Option.map_eq_some_iff.mp hrun
  obtain ⟨hspans, hkeys⟩ := spans_by_session h
  have hspan := hspans [_, _, _] 0 "продажи" "1:0" 1 false (some "s1") [] hlog
  have hnew := hkeys [] 0 1 "1:0" [_] 2 1 "1:1" [_] hlog
  refine ⟨s, h, hlog ▸ hspan, ?_⟩
  by_contra hnone
  have heq : "1:0" = "1:1" := hnew.mpr ⟨rfl, fun n hn => hnone ⟨n, by rw [hlog]; exact hn⟩⟩
  exact absurd heq (by decide)

end Chic.App
