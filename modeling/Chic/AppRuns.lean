import Chic.DialogMoves
import Chic.Presses
import Chic.RateLimiter
import Chic.SessionKey
import Chic.WebhookRuns

namespace Chic.App
open AppDb (UserId)
open Chic.Bot Effects Telegram

def msgRateLimited : String := "Слишком много запросов — сделайте паузу и попробуйте позже."

def msgBudgetSpent : String :=
  "Запрос вышел слишком дорогим, я остановил обработку. Попробуйте сузить вопрос."

def msgNoVision : String :=
  "Обработка фото не настроена (нет vision-провайдера). Пришлите вопрос текстом."

structure Settings where
  bot : ChicBot
  agent : Dialog.AgentConfig
  perHour : ℤ := 30
  hasVision : Bool

/-- How a call of `handle` is decided: it is refused at the start, or the agent run ends. -/
inductive Output
  | refused (notice : String)
  | answer (text : String)
  | clarify (question : String) (options : List String) (allowCustom : Bool)
  | usageLimit
  | raised
  deriving DecidableEq

/-- What `handle` returns then, `none` when it raises. -/
def Output.result : Output → Option Result
  | .refused notice => some { text := notice }
  | .answer text => some { text := PyText.strip text }
  | .clarify question options allowCustom => some (clarifyResult question options allowCustom)
  | .usageLimit => some { text := msgBudgetSpent }
  | .raised => none

def Output.outcome : Output → Option Dialog.RunOutcome
  | .refused _ => none
  | .answer text => some (.answer text)
  | .clarify question _ _ => some (.clarify question)
  | .usageLimit => some .usageLimit
  | .raised => some .raised

/-- The server of the webhook with its agent on one app.db. The call of `handle` by a task is the turn
of the same number. -/
structure State where
  server : Effects.World Effect Answer Dedupe Request
  buckets : RateLimiter.Buckets ℚ
  dialog : Dialog.World
  outputs : ℕ → Option Output

/-- A request comes, a task performs an effect, a task enters `handle`, or its turn moves on. -/
inductive Move
  | input (r : Request)
  | act (i : ℕ) (d : Done Effect Answer)
  | enter (i : ℕ) (now : ℚ)
  | advance (i : ℕ)
  | summarised (i : ℕ) (reply : Option String)
  | ran (i : ℕ) (output : Output)
  | raises (i : ℕ)

namespace State

/-- What the call of `handle` ends with, when it has ended. A turn that raised before its agent run
has no output. -/
def returned (s : State) (i : ℕ) : Option (Option Result) :=
  match s.dialog.turns i with
  | none => (s.outputs i).map Output.result
  | some t =>
    match t.pc with
    | .finished => some ((s.outputs i).bind Output.result)
    | _ => none

def answers (s : State) (i : ℕ) : Done Effect Answer → Bool
  | ⟨.handle _ _ _, r⟩ => s.returned i = some r
  | ⟨.sessionKey userId, r⟩ => r.all (· = s.dialog.db.sessionKey userId)
  | _ => true

def conversations (s : State) : Done Effect Answer → Dialog.World
  | ⟨.reset userId, some _⟩ => s.dialog.reset userId
  | _ => s.dialog

end State

namespace Settings
variable (app : Settings)

def enter (s : State) (i : ℕ) (now : ℚ) (userId : UserId) (text image : String) : Option State :=
  let (allowed, buckets) := RateLimiter.allow app.perHour s.buckets userId now
  if ¬ allowed then
    some { s with buckets, outputs := Function.update s.outputs i (some (.refused msgRateLimited)) }
  else if image ≠ "" ∧ ¬ app.hasVision then
    some { s with buckets, outputs := Function.update s.outputs i (some (.refused msgNoVision)) }
  else
    (Dialog.step s.dialog (.begin i userId app.agent text (image ≠ ""))).map fun dialog =>
      { s with buckets, dialog }

def step (s : State) : Move → Option State
  | .input r => (app.bot.server.step s.server (.input r)).map fun server => { s with server }
  | .act i d =>
    if s.answers i d then
      (app.bot.server.step s.server (.act i d)).map fun server =>
        { s with server, dialog := s.conversations d }
    else none
  | .enter i now =>
    match s.server.tasks i with
    | some (.act (.handle userId text image) _) =>
      if (s.dialog.turns i).isSome ∨ (s.outputs i).isSome then none
      else app.enter s i now userId text image
    | _ => none
  | .advance i => (Dialog.step s.dialog (.advance i)).map fun dialog => { s with dialog }
  | .summarised i reply =>
    (Dialog.step s.dialog (.summarised i reply)).map fun dialog => { s with dialog }
  | .ran i output =>
    output.outcome.bind fun outcome =>
      (Dialog.step s.dialog (.ran i outcome)).map fun dialog =>
        { s with dialog, outputs := Function.update s.outputs i (some output) }
  | .raises i => (Dialog.step s.dialog (.raises i)).map fun dialog => { s with dialog }

def start : State := ⟨app.bot.server.start, Dict.empty, Dialog.World.init, fun _ => none⟩

end Settings

namespace Settings
variable {app : Settings} {s s' : State} {m : Move} {ms : List Move}

inductive Moves (app : Settings) (s : State) : Move → State → Prop
  | input {r server} (h : app.bot.server.step s.server (.input r) = some server) :
    Moves app s (.input r) { s with server }
  | act {i d server} (hanswers : s.answers i d = true)
    (h : app.bot.server.step s.server (.act i d) = some server) :
    Moves app s (.act i d) { s with server, dialog := s.conversations d }
  | refused {i now userId text image next buckets notice}
    (htask : s.server.tasks i = some (.act (.handle userId text image) next))
    (hturn : s.dialog.turns i = none) (houtput : s.outputs i = none) :
    Moves app s (.enter i now)
      { s with buckets, outputs := Function.update s.outputs i (some (.refused notice)) }
  | begun {i now userId text image next buckets dialog}
    (htask : s.server.tasks i = some (.act (.handle userId text image) next))
    (houtput : s.outputs i = none)
    (h : Dialog.step s.dialog (.begin i userId app.agent text (image ≠ "")) = some dialog) :
    Moves app s (.enter i now) { s with buckets, dialog }
  | advance {i dialog} (h : Dialog.step s.dialog (.advance i) = some dialog) :
    Moves app s (.advance i) { s with dialog }
  | summarised {i reply dialog} (h : Dialog.step s.dialog (.summarised i reply) = some dialog) :
    Moves app s (.summarised i reply) { s with dialog }
  | ran {i output outcome dialog} (houtcome : output.outcome = some outcome)
    (h : Dialog.step s.dialog (.ran i outcome) = some dialog) :
    Moves app s (.ran i output)
      { s with dialog, outputs := Function.update s.outputs i (some output) }
  | raises {i dialog} (h : Dialog.step s.dialog (.raises i) = some dialog) :
    Moves app s (.raises i) { s with dialog }

theorem step_moves (h : app.step s m = some s') : Moves app s m s' := by
  cases m with
  | input r =>
    dsimp only [step] at h
    obtain ⟨server, hserver, rfl⟩ := Option.map_eq_some_iff.mp h
    exact .input hserver
  | act i d =>
    dsimp only [step] at h
    split_ifs at h with hanswers
    obtain ⟨server, hserver, rfl⟩ := Option.map_eq_some_iff.mp h
    exact .act hanswers hserver
  | enter i now =>
    dsimp only [step] at h
    split at h
    · rename_i userId text image next htask
      split_ifs at h with hentered
      obtain ⟨hturn, houtput⟩ := not_or.mp hentered
      rw [Option.not_isSome_iff_eq_none] at hturn houtput
      -- refused by the rate limit, refused for want of a vision model, or begun as a turn
      unfold enter at h
      dsimp only at h
      split at h
      · cases h
        exact .refused htask hturn houtput
      split at h
      · cases h
        exact .refused htask hturn houtput
      · obtain ⟨dialog, hdialog, rfl⟩ := Option.map_eq_some_iff.mp h
        exact .begun htask houtput hdialog
    · cases h
  | advance i =>
    dsimp only [step] at h
    obtain ⟨dialog, hdialog, rfl⟩ := Option.map_eq_some_iff.mp h
    exact .advance hdialog
  | summarised i reply =>
    dsimp only [step] at h
    obtain ⟨dialog, hdialog, rfl⟩ := Option.map_eq_some_iff.mp h
    exact .summarised hdialog
  | ran i output =>
    dsimp only [step] at h
    obtain ⟨outcome, houtcome, h⟩ := Option.bind_eq_some_iff.mp h
    obtain ⟨dialog, hdialog, rfl⟩ := Option.map_eq_some_iff.mp h
    exact .ran houtcome hdialog
  | raises i =>
    dsimp only [step] at h
    obtain ⟨dialog, hdialog, rfl⟩ := Option.map_eq_some_iff.mp h
    exact .raises hdialog

theorem run_one {σ ε : Type*} {step : σ → ε → Option σ} {s t : σ} {e : ε} (h : step s e = some t) :
    Trace.run step s [e] = some t := Trace.run_cons_some.mpr ⟨t, h, rfl⟩

/-- The server takes part in a run as if it were alone. -/
theorem server_run (h : Trace.run app.step s ms = some s') :
    ∃ es, Trace.run app.bot.server.step s.server es = some s'.server := by
  refine Trace.run_simulates (f := State.server) (fun s m s' h => ?_) h
  cases step_moves h with
  | input hserver => exact ⟨_, run_one hserver⟩
  | act hanswers hserver => exact ⟨_, run_one hserver⟩
  | _ => exact ⟨[], rfl⟩

theorem conversations_run (s : State) (d : Done Effect Answer) :
    ∃ es, Trace.run Dialog.step s.dialog es = some (s.conversations d) := by
  unfold State.conversations
  split
  · exact ⟨[.reset _], rfl⟩
  · exact ⟨[], rfl⟩

/-- What app.db goes through are turns and resets in some order. -/
theorem dialog_run (h : Trace.run app.step s ms = some s') :
    ∃ es, Trace.run Dialog.step s.dialog es = some s'.dialog := by
  refine Trace.run_simulates (f := State.dialog) (fun s m s' h => ?_) h
  cases step_moves h with
  | input hserver => exact ⟨[], rfl⟩
  | act hanswers hserver => exact conversations_run s _
  | refused => exact ⟨[], rfl⟩
  | begun htask houtput hdialog => exact ⟨_, run_one hdialog⟩
  | advance hdialog => exact ⟨_, run_one hdialog⟩
  | summarised hdialog => exact ⟨_, run_one hdialog⟩
  | ran houtcome hdialog => exact ⟨_, run_one hdialog⟩
  | raises hdialog => exact ⟨_, run_one hdialog⟩

end Settings

end Chic.App
