import Chic.AppRuns
import Chic.TurnProgress

namespace Chic.App
open AppDb (UserId Message MessageRow Role)
open Chic.Bot Effects Telegram

/-- The task of an update has come to this call of `handle`, and may have returned from it. -/
def Calls (w : Effects.World Effect Answer Dedupe Request) (i : ℕ) (userId : UserId)
    (text image : String) : Prop :=
  (∃ next, w.tasks i = some (.act (.handle userId text image) next)) ∨
    ∃ r, (i, ⟨.handle userId text image, r⟩) ∈ w.log

def Told (s : State) (r : MessageRow) : Prop :=
  (r.role = .reset → ∃ i, (i, ⟨.reset r.userId, some ()⟩) ∈ s.server.log) ∧
  (r.role = .user → ∃ i t, s.dialog.turns i = some t ∧ t.userId = r.userId ∧ r.content = t.stored) ∧
  (r.role = .assistant → ∃ i t output result, s.dialog.turns i = some t ∧ t.userId = r.userId ∧
    s.outputs i = some output ∧ output.result = some result ∧ r.content = result.text)

def Due (s : State) (i : ℕ) (t : Dialog.Turn) (p : Role × String) : Prop :=
  (p.1 = .user ∧ p.2 = t.stored) ∨
    p.1 = .assistant ∧ ∃ output result, s.outputs i = some output ∧ output.result = some result ∧
      p.2 = result.text

/-- Turns are calls of `handle`; what is stored is the question of a turn or what it returns. -/
structure Sound (s : State) : Prop where
  idle : ∀ i, s.server.inputs.length ≤ i → s.server.tasks i = none
  calls : ∀ i t, s.dialog.turns i = some t →
    ∃ image, t.image = decide (image ≠ "") ∧ Calls s.server i t.userId t.text image
  decided : ∀ i output t, s.outputs i = some output → s.dialog.turns i = some t →
    t.pc.decided = true
  due : ∀ i t pending, s.dialog.turns i = some t → t.pc = .persisting pending →
    ∀ p ∈ pending, Due s i t p
  returned : ∀ i userId text image r, (i, ⟨.handle userId text image, r⟩) ∈ s.server.log →
    s.returned i = some r
  rows : ∀ r ∈ s.dialog.db.messages.rows, Told s r

section Server
variable {bot : ChicBot} {w w' : Effects.World Effect Answer Dedupe Request}
  {e : Effects.Event Effect Answer Request} {i : ℕ} {userId : UserId} {text image : String}

theorem idle_step (hidle : ∀ i, w.inputs.length ≤ i → w.tasks i = none)
    (h : bot.server.step w e = some w') (i : ℕ) (hi : w'.inputs.length ≤ i) : w'.tasks i = none := by
  cases e with
  | input r =>
    cases h
    dsimp only at hi ⊢
    rw [List.length_append, List.length_singleton] at hi
    rw [Function.update_of_ne (by omega)]
    exact hidle i (by omega)
  | act j d =>
    obtain ⟨m, hm, h⟩ := Option.bind_eq_some_iff.mp h
    obtain ⟨m', -, rfl⟩ := Option.map_eq_some_iff.mp h
    dsimp only at hi ⊢
    have hne : i ≠ j := by
      rintro rfl
      rw [hidle i hi] at hm
      cases hm
    rw [Function.update_of_ne hne]
    exact hidle i hi

theorem Calls.step (hidle : ∀ i, w.inputs.length ≤ i → w.tasks i = none)
    (hcalls : Calls w i userId text image) (h : bot.server.step w e = some w') :
    Calls w' i userId text image := by
  rcases hcalls with ⟨next, htask⟩ | ⟨r, hlog⟩
  · cases e with
    | input r =>
      cases h
      have hne : i ≠ w.inputs.length := by
        rintro rfl
        rw [hidle _ le_rfl] at htask
        cases htask
      exact .inl ⟨next, by dsimp only; rw [Function.update_of_ne hne, htask]⟩
    | act j d =>
      obtain ⟨m, hm, h⟩ := Option.bind_eq_some_iff.mp h
      obtain ⟨m', hm', rfl⟩ := Option.map_eq_some_iff.mp h
      by_cases hij : i = j
      · subst hij
        rw [hm] at htask
        cases htask
        obtain ⟨next', hact, -⟩ := Prog.perform_eq_some.mp hm'
        obtain ⟨e, r⟩ := d
        cases hact
        exact .inr ⟨r, List.mem_append_right _ (List.mem_singleton_self _)⟩
      · exact .inl ⟨next, by dsimp only; rw [Function.update_of_ne hij, htask]⟩
  · refine .inr ⟨r, ?_⟩
    cases e with
    | input r' =>
      cases h
      exact hlog
    | act j d =>
      obtain ⟨m, hm, h⟩ := Option.bind_eq_some_iff.mp h
      obtain ⟨m', -, rfl⟩ := Option.map_eq_some_iff.mp h
      exact List.mem_append_left _ hlog

theorem log_act {j : ℕ} {d : Done Effect Answer} (h : bot.server.step w (.act j d) = some w') :
    w'.log = w.log ++ [(j, d)] := by
  obtain ⟨m, -, h⟩ := Option.bind_eq_some_iff.mp h
  obtain ⟨m', -, rfl⟩ := Option.map_eq_some_iff.mp h
  rfl

theorem log_input {r : Request} (h : bot.server.step w (.input r) = some w') : w'.log = w.log := by
  cases h
  rfl

end Server

section Run
variable {app : Settings} {s s' : State} {m : Move} {e : Dialog.Event} {i : ℕ} {t t' : Dialog.Turn}

theorem Due.next {p : Role × String} (h : Due s i t p) (hkept : t.Kept t')
    (houtputs : ∀ output, s.outputs i = some output → s'.outputs i = some output) :
    Due s' i t' p := by
  rcases h with ⟨hrole, hstored⟩ | ⟨hrole, output, result, houtput, hresult⟩
  · exact .inl ⟨hrole, hstored.trans hkept.stored.symm⟩
  · exact .inr ⟨hrole, output, result, houtputs output houtput, hresult⟩

theorem Told.next {r : MessageRow} (h : Told s r)
    (hlog : ∀ x ∈ s.server.log, x ∈ s'.server.log)
    (hturns : ∀ i t, s.dialog.turns i = some t → ∃ t', s'.dialog.turns i = some t' ∧ t.Kept t')
    (houtputs : ∀ i output, s.outputs i = some output → s'.outputs i = some output) : Told s' r := by
  obtain ⟨hreset, huser, hassistant⟩ := h
  refine ⟨fun hrole => ?_, fun hrole => ?_, fun hrole => ?_⟩
  · obtain ⟨i, hi⟩ := hreset hrole
    exact ⟨i, hlog _ hi⟩
  · obtain ⟨i, t, ht, hu, hcontent⟩ := huser hrole
    obtain ⟨t', ht', hkept⟩ := hturns i t ht
    exact ⟨i, t', ht', hkept.userId.trans hu, hcontent.trans hkept.stored.symm⟩
  · obtain ⟨i, t, output, result, ht, hu, houtput, hresult⟩ := hassistant hrole
    obtain ⟨t', ht', hkept⟩ := hturns i t ht
    exact ⟨i, t', output, result, ht', hkept.userId.trans hu, houtputs i output houtput, hresult⟩

theorem Due.told {p : Role × String} (h : Due s i t p) (ht : s.dialog.turns i = some t) (id : ℕ) :
    Told s ⟨id, t.userId, p.1, p.2⟩ := by
  rcases h with ⟨hrole, hstored⟩ | ⟨hrole, output, result, houtput, hresult, htext⟩
  · refine ⟨fun h => ?_, fun _ => ⟨i, t, ht, rfl, hstored⟩, fun h => ?_⟩
    · rw [hrole] at h
      cases h
    · rw [hrole] at h
      cases h
  · refine ⟨fun h => ?_, fun h => ?_, fun _ => ⟨i, t, output, result, ht, rfl, houtput, hresult, htext⟩⟩
    · rw [hrole] at h
      cases h
    · rw [hrole] at h
      cases h

theorem result_of_outcome {output : Output} {outcome : Dialog.RunOutcome} {answer : String}
    (houtput : output.outcome = some outcome)
    (houtcome : outcome = .answer answer ∨ outcome = .clarify answer) :
    ∃ result, output.result = some result ∧ result.text = PyText.strip answer := by
  cases output with
  | refused => cases houtput
  | answer text =>
    cases houtput
    rcases houtcome with h | h
    · cases h
      exact ⟨_, rfl, rfl⟩
    · cases h
  | clarify question options allowCustom =>
    cases houtput
    rcases houtcome with h | h
    · cases h
    · cases h
      refine ⟨_, rfl, ?_⟩
      unfold clarifyResult
      dsimp only
      split_ifs <;> rfl
  | usageLimit =>
    cases houtput
    rcases houtcome with h | h <;> cases h
  | raised =>
    cases houtput
    rcases houtcome with h | h <;> cases h

structure Respects (e : Dialog.Event) (s s' : State) : Prop where
  dialog : Dialog.Advances e s.dialog s'.dialog
  idle : ∀ i, s'.server.inputs.length ≤ i → s'.server.tasks i = none
  calls : ∀ i userId text image, Calls s.server i userId text image →
    Calls s'.server i userId text image
  log : ∀ x ∈ s.server.log, x ∈ s'.server.log
  handle : ∀ i userId text image r, (i, ⟨.handle userId text image, r⟩) ∈ s'.server.log →
    (i, ⟨.handle userId text image, r⟩) ∈ s.server.log ∨ s.returned i = some r
  reset : ∀ u, e = .reset u → ∃ i, (i, ⟨.reset u, some ()⟩) ∈ s'.server.log
  begin : ∀ i userId cfg text image, e = .begin i userId cfg text image →
    s.outputs i = none ∧ ∃ uri, image = decide (uri ≠ "") ∧ Calls s.server i userId text uri
  outputs : ∀ i, s'.outputs i = s.outputs i ∨ s.outputs i = none ∧
    ((s.dialog.turns i = none ∧ s'.dialog.turns i = none) ∨
      ∃ t t', s.dialog.turns i = some t ∧ t.pc.decided = false ∧ s'.dialog.turns i = some t' ∧
        t'.pc.decided = true)
  ran : ∀ i outcome, e = .ran i outcome →
    ∃ output, output.outcome = some outcome ∧ s'.outputs i = some output

theorem Respects.outputs_mono (h : Respects e s s') {output : Output} (houtput : s.outputs i = some output) :
    s'.outputs i = some output := by
  rcases h.outputs i with hsame | ⟨hnone, -⟩
  · exact hsame.trans houtput
  · rw [houtput] at hnone
    cases hnone

/-- A turn is an old one that has moved on, or a call of `handle` that begins. -/
theorem Respects.turn (h : Respects e s s') (ht' : s'.dialog.turns i = some t') :
    (∃ t, s.dialog.turns i = some t ∧ t.Kept t' ∧ Dialog.Progress e i t t'.pc) ∨
      s.outputs i = none ∧ s.dialog.turns i = none ∧ t'.pc = .start ∧
        ∃ uri, t'.image = decide (uri ≠ "") ∧ Calls s.server i t'.userId t'.text uri := by
  cases ht : s.dialog.turns i with
  | none =>
    obtain ⟨userId, cfg, text, image, he, rfl⟩ := h.dialog.new i t' ht ht'
    obtain ⟨hnone, uri, himage, hcalls⟩ := h.begin i userId cfg text image he
    exact .inr ⟨hnone, rfl, rfl, uri, himage, hcalls⟩
  | some t =>
    obtain ⟨t'', ht'', hkept, hprogress⟩ := h.dialog.turn i t ht
    cases ht''.symm.trans ht'
    exact .inl ⟨t, rfl, hkept, hprogress⟩

theorem Respects.returned_mono (h : Respects e s s') {r : Option Result} (hr : s.returned i = some r) :
    s'.returned i = some r := by
  unfold State.returned at hr ⊢
  -- a refused call never becomes a turn, and a turn that has ended stays as it is
  cases ht : s.dialog.turns i with
  | none =>
    rw [ht] at hr
    obtain ⟨output, houtput, rfl⟩ := Option.map_eq_some_iff.mp hr
    cases ht' : s'.dialog.turns i with
    | none =>
      dsimp only
      rw [h.outputs_mono houtput]
      rfl
    | some t' =>
      rcases h.turn ht' with ⟨t, htold, -⟩ | ⟨hnone, -⟩
      · rw [ht] at htold
        cases htold
      · rw [hnone] at houtput
        cases houtput
  | some t =>
    rw [ht] at hr
    dsimp only at hr
    split at hr
    · rename_i hpc
      obtain ⟨t', ht', -, hprogress⟩ := h.dialog.turn i t ht
      have hpc' := hprogress.of_finished hpc
      have houtputs : s'.outputs i = s.outputs i := by
        rcases h.outputs i with hsame | ⟨-, ⟨hnone, -⟩ | ⟨t₁, t₁', ht₁, hundecided, -⟩⟩
        · exact hsame
        · rw [ht] at hnone
          cases hnone
        · rw [ht] at ht₁
          cases ht₁
          rw [hpc] at hundecided
          cases hundecided
      rw [ht']
      dsimp only
      rw [hpc', houtputs]
      exact hr
    · cases hr

theorem Respects.due (h : Respects e s s') (hs : Sound s) {pending : List (Role × String)}
    (ht : s.dialog.turns i = some t) (hkept : t.Kept t')
    (hprogress : Dialog.Progress e i t (.persisting pending)) : ∀ p ∈ pending, Due s' i t' p := by
  intro p hp
  generalize hpc' : Dialog.TurnPc.persisting pending = pc at hprogress
  cases hprogress with
  | same => exact (hs.due i t pending ht hpc'.symm p hp).next hkept fun _ => h.outputs_mono
  | reading hnot hnot' =>
    rw [← hpc'] at hnot'
    cases hnot'
  | raised | failed => cases hpc'
  | answered he hnot hout =>
    have hpending := Dialog.persist_pending hpc'.symm
    rw [hpending] at hp
    obtain ⟨output, houtcome, houtput⟩ := h.ran i _ he
    obtain ⟨result, hresult, htext⟩ := result_of_outcome houtcome hout
    rcases List.mem_pair.mp (List.mem_filter.mp hp).1 with rfl | rfl
    · exact .inl ⟨rfl, hkept.stored.symm⟩
    · exact .inr ⟨rfl, output, result, houtput, hresult, htext.symm⟩
  | wrote hpc =>
    have hpending := Dialog.persist_pending hpc'.symm
    rw [hpending] at hp
    exact (hs.due i t _ ht hpc p (List.mem_cons_of_mem _ hp)).next hkept fun _ => h.outputs_mono

theorem Respects.sound (h : Respects e s s') (hs : Sound s) : Sound s' where
  idle := h.idle
  calls i t' ht' := by
    rcases h.turn ht' with ⟨t, ht, hkept, -⟩ | ⟨-, -, -, uri, himage, hcalls⟩
    · obtain ⟨uri, himage, hcalls⟩ := hs.calls i t ht
      refine ⟨uri, hkept.image.trans himage, ?_⟩
      rw [hkept.userId, hkept.text]
      exact h.calls i _ _ _ hcalls
    · exact ⟨uri, himage, h.calls i _ _ _ hcalls⟩
  decided i output t' houtput ht' := by
    rcases h.outputs i with hsame | ⟨-, ⟨-, hnone⟩ | ⟨t, t'', -, -, ht'', hdecided⟩⟩
    · rcases h.turn ht' with ⟨t, ht, -, hprogress⟩ | ⟨hnone, -⟩
      · exact hprogress.of_decided (hs.decided i output t (hsame.symm.trans houtput) ht)
      · rw [hsame, hnone] at houtput
        cases houtput
    · rw [hnone] at ht'
      cases ht'
    · cases ht''.symm.trans ht'
      exact hdecided
  due i t' pending ht' hpc := by
    rcases h.turn ht' with ⟨t, ht, hkept, hprogress⟩ | ⟨-, -, hstart, -⟩
    · rw [hpc] at hprogress
      exact h.due hs ht hkept hprogress
    · rw [hstart] at hpc
      cases hpc
  returned i userId text image r hlog := by
    rcases h.handle i userId text image r hlog with hold | hnew
    · exact h.returned_mono (hs.returned i userId text image r hold)
    · exact h.returned_mono hnew
  rows r hr := by
    have hturns : ∀ i t, s.dialog.turns i = some t →
        ∃ t', s'.dialog.turns i = some t' ∧ t.Kept t' := by
      intro i t ht
      obtain ⟨t', ht', hkept, -⟩ := h.dialog.turn i t ht
      exact ⟨t', ht', hkept⟩
    have hold : r ∈ s.dialog.db.messages.rows → Told s' r := fun hr =>
      (hs.rows r hr).next h.log hturns fun _ _ => h.outputs_mono
    -- no new row, a boundary, or the next text that a turn is about to store
    rcases h.dialog.messages with hsame | ⟨u, he, happend⟩ |
        ⟨i, t, role, content, rest, ht, hpc, happend⟩
    · rw [hsame] at hr
      exact hold hr
    · rw [happend] at hr
      rcases List.mem_append.mp hr with hr | hr
      · exact hold hr
      · obtain rfl := List.mem_singleton.mp hr
        refine ⟨fun _ => h.reset u he, ?_, ?_⟩
        · intro hrole
          cases hrole
        · intro hrole
          cases hrole
    · rw [happend] at hr
      rcases List.mem_append.mp hr with hr | hr
      · exact hold hr
      · obtain rfl := List.mem_singleton.mp hr
        have hdue := hs.due i t _ ht hpc (role, content) List.mem_cons_self
        exact (hdue.told ht _).next h.log hturns fun _ _ => h.outputs_mono

theorem respects_of_dialog (hs : Sound s) (hserver : s'.server = s.server)
    (hdialog : Dialog.Advances e s.dialog s'.dialog) (hreset : ∀ u, e ≠ .reset u)
    (hbegin : ∀ i userId cfg text image, e = .begin i userId cfg text image →
      s.outputs i = none ∧ ∃ uri, image = decide (uri ≠ "") ∧ Calls s.server i userId text uri)
    (houtputs : ∀ i, s'.outputs i = s.outputs i ∨ s.outputs i = none ∧
      ((s.dialog.turns i = none ∧ s'.dialog.turns i = none) ∨
        ∃ t t', s.dialog.turns i = some t ∧ t.pc.decided = false ∧ s'.dialog.turns i = some t' ∧
          t'.pc.decided = true))
    (hran : ∀ i outcome, e = .ran i outcome →
      ∃ output, output.outcome = some outcome ∧ s'.outputs i = some output) : Respects e s s' where
  dialog := hdialog
  idle := hserver ▸ hs.idle
  calls _ _ _ _ h := hserver ▸ h
  log _ h := hserver ▸ h
  handle _ _ _ _ _ h := .inl (hserver ▸ h)
  reset u he := absurd he (hreset u)
  begin := hbegin
  outputs := houtputs
  ran := hran

theorem respects_of_server (hs : Sound s) {x : Effects.Event Effect Answer Request}
    (hserver : app.bot.server.step s.server x = some s'.server) (houtputs : s'.outputs = s.outputs)
    (hdialog : Dialog.Advances e s.dialog s'.dialog)
    (hbegin : ∀ i userId cfg text image, e ≠ .begin i userId cfg text image)
    (hran : ∀ i outcome, e ≠ .ran i outcome)
    (hreset : ∀ u, e = .reset u → ∃ i, x = .act i ⟨.reset u, some ()⟩)
    (hhandle : ∀ i userId text image r, x = .act i ⟨.handle userId text image, r⟩ →
      s.returned i = some r) : Respects e s s' where
  dialog := hdialog
  idle := idle_step hs.idle hserver
  calls _ _ _ _ hcalls := hcalls.step hs.idle hserver
  log y hy := by
    cases x with
    | input r =>
      rw [log_input hserver]
      exact hy
    | act j d =>
      rw [log_act hserver]
      exact List.mem_append_left _ hy
  handle i userId text image r hlog := by
    cases x with
    | input r' =>
      rw [log_input hserver] at hlog
      exact .inl hlog
    | act j d =>
      rw [log_act hserver] at hlog
      rcases List.mem_append.mp hlog with hlog | hlog
      · exact .inl hlog
      · cases List.mem_singleton.mp hlog
        exact .inr (hhandle i userId text image r rfl)
  reset u he := by
    obtain ⟨i, rfl⟩ := hreset u he
    rw [log_act hserver]
    exact ⟨i, List.mem_append_right _ (List.mem_singleton_self _)⟩
  begin i userId cfg text image he := absurd he (hbegin i userId cfg text image)
  outputs i := .inl (congrFun houtputs i)
  ran i outcome he := absurd he (hran i outcome)

/-- Steps of a turn that neither begin it nor end its agent run. -/
def Quiet : Dialog.Event → Prop
  | .begin _ _ _ _ _ | .reset _ | .ran _ _ => False
  | _ => True

theorem respects_of_quiet (hs : Sound s) {dialog : Dialog.World}
    (hdialog : Dialog.step s.dialog e = some dialog) (hquiet : Quiet e) : Respects e s { s with dialog } := by
  refine respects_of_dialog hs rfl (Dialog.advances_of_step hdialog) ?_ ?_ (fun j => .inl rfl) ?_
  · intro u he
    rw [he] at hquiet
    exact hquiet
  · intro i userId cfg text image he
    rw [he] at hquiet
    exact hquiet.elim
  · intro i outcome he
    rw [he] at hquiet
    exact hquiet.elim

theorem respects_of_step (hs : Sound s) (h : app.step s m = some s') : ∃ e, Respects e s s' := by
  cases Settings.step_moves h with
  | input hserver =>
    refine ⟨.advance 0, respects_of_server hs hserver rfl (Dialog.advances_refl _ _) ?_ ?_ ?_ ?_⟩
    · intro i userId cfg text image he
      cases he
    · intro i outcome he
      cases he
    · intro u he
      cases he
    · intro i userId text image r hx
      cases hx
  | act hanswers hserver =>
    rename_i i d server
    -- of the effects only a reset concerns the conversations
    by_cases hnew : ∃ u, d = ⟨.reset u, some ()⟩
    · obtain ⟨u, rfl⟩ := hnew
      refine ⟨.reset u, respects_of_server hs hserver rfl (Dialog.advances_of_step rfl) ?_ ?_ ?_ ?_⟩
      · intro i userId cfg text image he
        cases he
      · intro i outcome he
        cases he
      · intro v hv
        cases hv
        exact ⟨i, rfl⟩
      · intro i userId text image r hx
        cases hx
    · have hsame : s.conversations d = s.dialog := by
        unfold State.conversations
        split
        · exact absurd ⟨_, rfl⟩ hnew
        · rfl
      refine ⟨.advance 0, respects_of_server hs hserver rfl ?_ ?_ ?_ ?_ ?_⟩
      · dsimp only
        rw [hsame]
        exact Dialog.advances_refl _ _
      · intro i userId cfg text image he
        cases he
      · intro i outcome he
        cases he
      · intro u he
        cases he
      · intro j userId text image r hx
        cases hx
        exact of_decide_eq_true hanswers
  | refused htask hturn houtput =>
    rename_i i now userId text image next buckets notice
    refine ⟨.advance 0, respects_of_dialog hs rfl (Dialog.advances_refl _ _) ?_ ?_ (fun j => ?_) ?_⟩
    · intro u he
      cases he
    · intro i userId cfg text image he
      cases he
    · rcases eq_or_ne j i with rfl | hne
      · exact .inr ⟨houtput, .inl ⟨hturn, hturn⟩⟩
      · exact .inl (Function.update_of_ne hne _ _)
    · intro i outcome he
      cases he
  | begun htask houtput hdialog =>
    rename_i i now userId text image next buckets dialog
    refine ⟨_, respects_of_dialog hs rfl (Dialog.advances_of_step hdialog) ?_ ?_ (fun j => .inl rfl) ?_⟩
    · intro u he
      cases he
    · intro j userId' cfg text' image' he
      cases he
      exact ⟨houtput, image, rfl, .inl ⟨next, htask⟩⟩
    · intro i outcome he
      cases he
  | ran houtcome hdialog =>
    rename_i i output outcome dialog
    obtain ⟨t, t', ht, hundecided, ht', hdecided⟩ := Dialog.ran_decides hdialog
    refine ⟨_, respects_of_dialog hs rfl (Dialog.advances_of_step hdialog) ?_ ?_ (fun j => ?_) ?_⟩
    · intro u he
      cases he
    · intro i userId cfg text image he
      cases he
    · rcases eq_or_ne j i with rfl | hne
      · refine .inr ⟨?_, .inr ⟨t, t', ht, hundecided, ht', hdecided⟩⟩
        -- a turn whose run has not ended has no output yet
        cases houtput : s.outputs j with
        | none => rfl
        | some output' =>
          have := hs.decided j output' t houtput ht
          rw [hundecided] at this
          cases this
      · exact .inl (Function.update_of_ne hne _ _)
    · intro j outcome' he
      cases he
      exact ⟨output, houtcome, Function.update_self _ _ _⟩
  | advance hdialog => exact ⟨_, respects_of_quiet hs hdialog trivial⟩
  | summarised hdialog => exact ⟨_, respects_of_quiet hs hdialog trivial⟩
  | raises hdialog => exact ⟨_, respects_of_quiet hs hdialog trivial⟩

theorem sound_start : Sound app.start where
  idle _ _ := rfl
  calls i t ht := by cases ht
  decided i output t houtput := by cases houtput
  due i t pending ht := by cases ht
  returned i userId text image r hlog := by cases hlog
  rows r hr := by cases hr

theorem sound_run {ms : List Move} (h : Trace.run app.step app.start ms = some s) : Sound s := by
  refine Trace.run_invariant (fun s m s' hs h => ?_) sound_start h
  obtain ⟨e, he⟩ := respects_of_step hs h
  exact he.sound hs

end Run
section Provenance
variable {bot : ChicBot} {w : Effects.World Effect Answer Dedupe Request} {i : ℕ} {userId : UserId}
  {text image : String}

theorem past_append (l l' : List (ℕ × Done Effect Answer)) (i : ℕ) :
    past i (l ++ l') = past i l ++ past i l' := by
  rw [past, List.filter_append, List.map_append, ← past, ← past]

theorem question_append {past : Past} {event : Bot.Event}
    (h : bot.Question past event text image) (ds : List (Done Effect Answer)) :
    bot.Question (past ++ ds) event text image := by
  induction ds generalizing past with
  | nil =>
    rw [List.append_nil]
    exact h
  | cons d ds ih =>
    rw [← List.singleton_append, ← List.append_assoc]
    exact ih (h.append d)

/-- A call of `handle` is one for the update of its task, from an allowed user. -/
theorem Calls.provenance {es : List (Effects.Event Effect Answer Request)}
    (h : Trace.run bot.server.step bot.server.start es = some w) (hcalls : Calls w i userId text image) :
    ∃ u event, bot.Admitted w.inputs i u event ∧ event.fromUser = some userId ∧
      userId ∈ bot.allowed ∧ bot.Question (past i w.log) event text image := by
  -- what the policy says of the effect
  have hkept : ∀ u event l, bot.Admitted w.inputs i u event →
      bot.Keeps event (past i l) (.handle userId text image) → l <+: w.log →
      ∃ u event, bot.Admitted w.inputs i u event ∧ event.fromUser = some userId ∧
        userId ∈ bot.allowed ∧ bot.Question (past i w.log) event text image := by
    rintro u event l hadmitted hkeeps ⟨l', hlog⟩
    rcases hkeeps.allowed_or with ⟨v, hallowed, huser, hpermitted⟩ | ⟨-, hrefused⟩
    · cases hpermitted with
      | handle hquestion =>
        refine ⟨u, event, hadmitted, huser, hallowed, ?_⟩
        rw [← hlog, past_append]
        exact question_append hquestion _
    · cases hrefused
  rcases hcalls with ⟨next, htask⟩ | ⟨r, hlog⟩
  · -- the call could be the next step of the run
    have hstep : bot.server.step w (.act i ⟨.handle userId text image, none⟩) = some
        { w with
          tasks := Function.update w.tasks i (some (next none))
          log := w.log ++ [(i, ⟨.handle userId text image, none⟩)] } := by
      refine Option.bind_eq_some_iff.mpr ⟨_, htask, Option.map_eq_some_iff.mpr ⟨next none, ?_, rfl⟩⟩
      exact Prog.perform_eq_some.mpr ⟨next, rfl, rfl⟩
    have hrun := Trace.run_concat_some.mpr ⟨w, h, hstep⟩
    have hlast : w.log ++ [(i, ⟨.handle userId text image, none⟩)] =
        w.log ++ (i, ⟨.handle userId text image, none⟩) :: [] := rfl
    obtain ⟨u, event, hadmitted, hkeeps⟩ := ChicBot.run_keeps hrun hlast
    exact hkept u event w.log hadmitted hkeeps (List.prefix_refl _)
  · obtain ⟨l, l', hsplit⟩ := List.append_of_mem hlog
    obtain ⟨u, event, hadmitted, hkeeps⟩ := ChicBot.run_keeps h hsplit
    exact hkept u event l hadmitted hkeeps ⟨_, hsplit.symm⟩

/-- A reset is one for a `/new` of an allowed user. -/
theorem reset_provenance {es : List (Effects.Event Effect Answer Request)}
    (h : Trace.run bot.server.step bot.server.start es = some w) {r : Option Unit}
    (hlog : (i, ⟨.reset userId, r⟩) ∈ w.log) :
    ∃ u m, bot.Admitted w.inputs i u (.message m) ∧ m.fromUser = some userId ∧
      userId ∈ bot.allowed ∧ bot.commandOf m = some "new" := by
  obtain ⟨l, l', hsplit⟩ := List.append_of_mem hlog
  obtain ⟨u, event, hadmitted, hkeeps⟩ := ChicBot.run_keeps h hsplit
  rcases hkeeps.allowed_or with ⟨v, hallowed, huser, hpermitted⟩ | ⟨-, hrefused⟩
  · cases hpermitted with
    | reset hevent hcommand =>
      subst hevent
      exact ⟨u, _, hadmitted, huser, hallowed, hcommand⟩
  · cases hrefused

end Provenance

section Run
variable {app : Settings} {s : State} {ms : List Move} {i : ℕ} {t : Dialog.Turn}

/-- A turn belongs to the update of the task of its number. -/
theorem turn_provenance (h : Trace.run app.step app.start ms = some s)
    (ht : s.dialog.turns i = some t) :
    ∃ u event uri, app.bot.Admitted s.server.inputs i u event ∧
      event.fromUser = some t.userId ∧ t.userId ∈ app.bot.allowed ∧
      app.bot.Question (past i s.server.log) event t.text uri ∧ t.image = decide (uri ≠ "") ∧
      Calls s.server i t.userId t.text uri := by
  obtain ⟨es, hserver⟩ := Settings.server_run h
  obtain ⟨uri, himage, hcalls⟩ := (sound_run h).calls i t ht
  obtain ⟨u, event, hadmitted, huser, hallowed, hquestion⟩ := hcalls.provenance hserver
  exact ⟨u, event, uri, hadmitted, huser, hallowed, hquestion, himage, hcalls⟩

theorem reads_run (h : Trace.run app.step app.start ms = some s) : Dialog.Reads s.dialog := by
  obtain ⟨es, hdialog⟩ := Settings.dialog_run h
  refine Trace.run_invariant (fun _ _ _ hw h => Dialog.Reads.step hw h) ?_ hdialog
  intro i t ht
  cases ht

theorem returned_output {output : Output} {result : Result} {userId : UserId} {text image : String}
    (hs : Sound s) (ht : s.dialog.turns i = some t) (houtput : s.outputs i = some output)
    (hresult : output.result = some result) {r : Option Result}
    (hlog : (i, ⟨.handle userId text image, r⟩) ∈ s.server.log) : r = some result := by
  have hreturned := hs.returned i userId text image r hlog
  unfold State.returned at hreturned
  rw [ht] at hreturned
  dsimp only at hreturned
  split at hreturned
  · rw [houtput, Option.bind_some, hresult] at hreturned
    exact (Option.some.inj hreturned).symm
  · cases hreturned

/-- From the webhook to app.db: every row of the conversations belongs to an admitted update of the
allowed user whose row it is. A boundary is a `/new`; a question is what the user has put, the text
of a photo marked; an answer is what the agent run of this turn has given and what the bot has got.
The history that the model is shown are rows of the user who asks. -/
theorem conversation_provenance (h : Trace.run app.step app.start ms = some s) :
    (∀ r ∈ s.dialog.db.messages.rows, ∃ i u event,
      app.bot.Admitted s.server.inputs i u event ∧ event.fromUser = some r.userId ∧
        r.userId ∈ app.bot.allowed ∧
        (r.role = .reset → (i, ⟨.reset r.userId, some ()⟩) ∈ s.server.log ∧
          ∃ m, event = .message m ∧ app.bot.commandOf m = some "new") ∧
        (r.role ≠ .reset → ∃ text image,
          app.bot.Question (past i s.server.log) event text image ∧
            (r.role = .user →
              r.content = if image ≠ "" then PyText.strip ("[фото] " ++ text) else text) ∧
            (r.role = .assistant → ∃ output result, s.outputs i = some output ∧
              output.result = some result ∧ r.content = result.text ∧
              ∀ userId text image res,
                (i, ⟨.handle userId text image, res⟩) ∈ s.server.log → res = some result))) ∧
    ∀ i t summary history, s.dialog.turns i = some t → t.pc = .running summary history →
      ∀ x ∈ history, ∃ r ∈ s.dialog.db.messages.rows, r.userId = t.userId ∧ r.message = x := by
  have hs := sound_run h
  refine ⟨fun r hr => ?_, fun i t summary history ht hpc x hx => ?_⟩
  · obtain ⟨hreset, huser, hassistant⟩ := hs.rows r hr
    -- a boundary goes back to a reset in the log, the other rows to the turn that wrote them
    cases hrole : r.role with
    | reset =>
      obtain ⟨i, hi⟩ := hreset hrole
      obtain ⟨es, hserver⟩ := Settings.server_run h
      obtain ⟨u, m, hadmitted, hfrom, hallowed, hcommand⟩ := reset_provenance hserver hi
      refine ⟨i, u, _, hadmitted, hfrom, hallowed, fun _ => ⟨hi, m, rfl, hcommand⟩, ?_⟩
      intro hne
      exact absurd rfl hne
    | user =>
      obtain ⟨i, t, ht, hown, hcontent⟩ := huser hrole
      obtain ⟨u, event, uri, hadmitted, hfrom, hallowed, hquestion, himage, -⟩ := turn_provenance h ht
      rw [hown] at hfrom hallowed
      refine ⟨i, u, event, hadmitted, hfrom, hallowed, ?_, fun _ => ⟨t.text, uri, hquestion, ?_, ?_⟩⟩
      · intro hreset
        cases hreset
      · intro _
        rw [hcontent, Dialog.Turn.stored, himage]
        simp only [decide_eq_true_eq]
      · intro hassistant
        cases hassistant
    | assistant =>
      obtain ⟨i, t, output, result, ht, hown, houtput, hresult, hcontent⟩ := hassistant hrole
      obtain ⟨u, event, uri, hadmitted, hfrom, hallowed, hquestion, -⟩ := turn_provenance h ht
      rw [hown] at hfrom hallowed
      refine ⟨i, u, event, hadmitted, hfrom, hallowed, ?_, fun _ => ⟨t.text, uri, hquestion, ?_, ?_⟩⟩
      · intro hreset
        cases hreset
      · intro huser
        cases huser
      · intro _
        exact ⟨output, result, houtput, hresult, hcontent, fun userId text image res hlog =>
          returned_output hs ht houtput hresult hlog⟩
  · refine reads_run h i t ht x ?_
    rw [hpc]
    exact hx

end Run

def shopApp : Settings := ⟨shopBot, {}, 30, false⟩

def newMessage : Bot.Message := textMessage 1 "/new"

/-- A question is answered while a stranger writes, and the user starts over. -/
def shopMoves : List Move :=
  [.input (delivered 7 (.message (textMessage 1 "продажи"))),
    .enter 0 0,
    .input (delivered 8 (.message (textMessage 9 "привет"))),
    .advance 0, .advance 0, .advance 0,
    .act 1 ⟨.telegram (.sendMessage 9 msgPrivate none none), some .ok⟩,
    .ran 0 (.answer " 12 шт. "),
    .advance 0, .advance 0,
    .act 0 ⟨.handle 1 "продажи" "", some ⟨"12 шт.", [], false⟩⟩,
    .input (delivered 9 (.message newMessage)),
    .act 2 ⟨.reset 1, some ()⟩]

theorem shopMoves_provenance : ∃ s, Trace.run shopApp.step shopApp.start shopMoves = some s ∧
    s.dialog.db.messages.rows =
      [⟨1, 1, .user, "продажи"⟩, ⟨2, 1, .assistant, "12 шт."⟩, ⟨3, 1, .reset, ""⟩] ∧
    ∃ m u i, shopBot.Admitted s.server.inputs i u (.message m) ∧ m.fromUser = some 1 ∧
      shopBot.commandOf m = some "new" := by
  have hrun : (Trace.run shopApp.step shopApp.start shopMoves).map
      (fun s => s.dialog.db.messages.rows) =
        some [⟨1, 1, .user, "продажи"⟩, ⟨2, 1, .assistant, "12 шт."⟩, ⟨3, 1, .reset, ""⟩] := by
    decide +kernel
  obtain ⟨s, h, hrows⟩ := Option.map_eq_some_iff.mp hrun
  have hlast : (⟨3, 1, .reset, ""⟩ : MessageRow) ∈ s.dialog.db.messages.rows := by
    rw [hrows]
    decide
  obtain ⟨i, u, event, hadmitted, hfrom, -, hnew, -⟩ := (conversation_provenance h).1 _ hlast
  obtain ⟨-, m, rfl, hcommand⟩ := hnew rfl
  exact ⟨s, h, hrows, m, u, i, hadmitted, hfrom, hcommand⟩

end Chic.App
