import Chic.AppDb
import Chic.PyText
import Chic.Trace

namespace Chic.Dialog
open AppDb

def summaryKeepRecent : ℕ := 6
def summaryMaxChars : ℕ := 1200
def maxUnsummarizedScan : ℤ := 400

structure AgentConfig where
  summaryCharBudget : ℤ := 300000
  historyDepth : ℤ := 20

def speaker (role : Role) : String := if role = .assistant then "Ассистент" else "Пользователь"

/-- What `_summarize_into` hands to the summariser. -/
def summaryPrompt (prev : String) (msgs : List Message) : String :=
  let head :=
    if prev ≠ "" then
      "Предыдущее краткое содержание:\n" ++ prev ++ "\n\nНовые сообщения диалога:\n"
    else ""
  msgs.foldl (fun buf m => buf ++ speaker m.role ++ ": " ++ m.content ++ "\n") head

/-- `_aux_run`: a completion that raises counts as empty text. -/
def auxText (reply : Option String) : String := (reply.map PyText.strip).getD ""

/-- The new summary, empty when the summariser failed. -/
def summaryText (reply : Option String) : String := PyText.take summaryMaxChars (auxText reply)

/-- The budget and keep-recent decision of `_condense_history`: `none` keeps the whole tail,
otherwise it is cut into the foldable part and the recent one. -/
def condensePlan (budget : ℤ) (tail : List Message) : Option (List Message × List Message) :=
  let total := (tail.map (·.content.length)).sum
  if total ≤ budget ∨ tail.length ≤ summaryKeepRecent then none
  else
    some (tail.take (tail.length - summaryKeepRecent), tail.drop (tail.length - summaryKeepRecent))

/-- The summary row and the watermark that a turn goes by. -/
def watermark (db : Store) (userId : UserId) (epoch : ℕ) : String × ℕ :=
  let (summary, upTo) := db.getSessionSummary userId epoch
  (summary, max upTo epoch)

/-- `_condense_history` run without interruption. -/
def condenseHistory (cfg : AgentConfig) (db : Store) (userId : UserId) (epoch : ℕ)
    (summarise : String → Option String) : (String × List Message) × Store :=
  if cfg.summaryCharBudget < 0 then
    (("", db.messages.recentMessages userId cfg.historyDepth), db)
  else
    let (summary, upTo) := watermark db userId epoch
    let tail := db.messages.messagesSince userId upTo maxUnsummarizedScan
    match condensePlan cfg.summaryCharBudget tail with
    | none => ((summary, tail), db)
    | some (foldable, recent) =>
      let nxt := summaryText (summarise (summaryPrompt summary foldable))
      if nxt = "" then ((summary, recent), db)
      else
        ((nxt, recent),
          db.putSessionSummary userId epoch nxt ((foldable.getLast?.map (·.id)).getD 0))

inductive RunOutcome
  | answer (output : String)
  | clarify (question : String)
  | usageLimit
  | raised

/-- The await that a turn of `handle` stands before. -/
inductive TurnPc
  | start
  | condensing
  | scanning (summary : String) (upTo : ℕ)
  | summarising (prev : String) (foldable recent : List Message)
  | storing (next : String) (upTo : ℕ) (recent : List Message)
  | running (summary : String) (history : List Message)
  | persisting (pending : List (Role × String))
  | finished

/-- A call of `handle` past its rate limit. `overtaken` is an observer's mark: a `/new` of the
same user came after the turn read its epoch. -/
structure Turn where
  userId : UserId
  cfg : AgentConfig
  text : String
  image : Bool
  epoch : ℕ := 0
  overtaken : Bool := false
  pc : TurnPc := .start

def Turn.stored (t : Turn) : String :=
  if t.image then PyText.strip ("[фото] " ++ t.text) else t.text

/-- What `_persist` writes: both texts, the empty ones left out. -/
def Turn.pending (t : Turn) (answer : String) : List (Role × String) :=
  [(Role.user, t.stored), (Role.assistant, answer)].filter fun p => p.2 ≠ ""

/-- app.db with the turns in flight. `asked` and `author` are observations: every summariser
call with its reply, and the turn that wrote a row. -/
structure World where
  db : Store
  turns : ℕ → Option Turn
  asked : List (String × Option String)
  author : ℕ → Option ℕ

def World.init : World := ⟨Store.empty, fun _ => none, [], fun _ => none⟩

/-- Between two awaits nothing interferes: `advance` is the next store access of a turn,
`raises` that access failing, and the two model calls end as they like. -/
inductive Event
  | begin (i : ℕ) (userId : UserId) (cfg : AgentConfig) (text : String) (image : Bool)
  | reset (userId : UserId)
  | advance (i : ℕ)
  | summarised (i : ℕ) (reply : Option String)
  | ran (i : ℕ) (outcome : RunOutcome)
  | raises (i : ℕ)

def World.setTurn (w : World) (i : ℕ) (t : Turn) : World :=
  { w with turns := Function.update w.turns i (some t) }

def World.reset (w : World) (userId : UserId) : World :=
  { w with
    db := w.db.startSession userId
    turns := fun i => (w.turns i).map fun t =>
      match t.pc with
      | .start => t
      | _ => if t.userId = userId then { t with overtaken := true } else t }

def Turn.persist (t : Turn) (pending : List (Role × String)) : Turn :=
  { t with pc := if pending = [] then .finished else .persisting pending }

/-- The turn's next store access. The preferences that `handle` reads after the epoch go into
the prompt only. -/
def World.advance (w : World) (i : ℕ) (t : Turn) : Option World :=
  match t.pc with
  | .start =>
    some (w.setTurn i { t with epoch := w.db.messages.sessionEpoch t.userId, pc := .condensing })
  | .condensing =>
    -- a negative budget turns summaries off
    if t.cfg.summaryCharBudget < 0 then
      let history := w.db.messages.recentMessages t.userId t.cfg.historyDepth
      some (w.setTurn i { t with pc := .running "" history })
    else
      let (summary, upTo) := watermark w.db t.userId t.epoch
      some (w.setTurn i { t with pc := .scanning summary upTo })
  | .scanning summary upTo =>
    -- the oldest turns after the watermark, as many as one scan reads
    let tail := w.db.messages.messagesSince t.userId upTo maxUnsummarizedScan
    match condensePlan t.cfg.summaryCharBudget tail with
    | none => some (w.setTurn i { t with pc := .running summary tail })
    | some (foldable, recent) =>
      some (w.setTurn i { t with pc := .summarising summary foldable recent })
  | .storing next upTo recent =>
    let w' := w.setTurn i { t with pc := .running next recent }
    some { w' with db := w.db.putSessionSummary t.userId t.epoch next upTo }
  | .persisting ((role, content) :: rest) =>
    let w' := w.setTurn i (t.persist rest)
    some
      { w' with
        db := w.db.appendMessage t.userId role content
        author := Function.update w.author (w.db.messages.lastId + 1) (some i) }
  | _ => none

/-- The summariser's reply: a failed one leaves the previous summary standing. -/
def World.summarised (w : World) (i : ℕ) (t : Turn) (reply : Option String) : Option World :=
  match t.pc with
  | .summarising prev foldable recent =>
    let nxt := summaryText reply
    let pc : TurnPc :=
      if nxt = "" then .running prev recent
      else .storing nxt ((foldable.getLast?.map (·.id)).getD 0) recent
    let w' := w.setTurn i { t with pc }
    some { w' with asked := w.asked ++ [(summaryPrompt prev foldable, reply)] }
  | _ => none

def World.ran (w : World) (i : ℕ) (t : Turn) (outcome : RunOutcome) : Option World :=
  match t.pc, outcome with
  | .running _ _, .answer output =>
    some (w.setTurn i (t.persist (t.pending (PyText.strip output))))
  | .running _ _, .clarify question =>
    some (w.setTurn i (t.persist (t.pending (PyText.strip question))))
  | .running _ _, _ => some (w.setTurn i { t with pc := .finished })
  | _, _ => none

/-- A store access that raises ends the turn, but `_persist` goes on to its next text. -/
def World.raises (w : World) (i : ℕ) (t : Turn) : Option World :=
  match t.pc with
  | .start | .condensing | .scanning _ _ | .storing _ _ _ =>
    some (w.setTurn i { t with pc := .finished })
  | .persisting (_ :: rest) => some (w.setTurn i (t.persist rest))
  | _ => none

def step (w : World) : Event → Option World
  | .begin i userId cfg text image =>
    if (w.turns i).isSome then none else some (w.setTurn i { userId, cfg, text, image })
  | .reset userId => some (w.reset userId)
  | .advance i => (w.turns i).bind (w.advance i)
  | .summarised i reply => (w.turns i).bind (w.summarised i · reply)
  | .ran i outcome => (w.turns i).bind (w.ran i · outcome)
  | .raises i => (w.turns i).bind (w.raises i)

end Chic.Dialog
