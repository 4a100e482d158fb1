import Mathlib.Data.List.MinMax
import Chic.Base64
import Chic.Dedupe
import Chic.Effects
import Chic.Keyboards
import Chic.SourceChunks

namespace Chic.Bot
open AppDb (UserId Preference)
open Effects Keyboards Telegram

def msgSessionReset : String := "🆕 Начали заново — прошлый диалог больше не учитывается."
def msgPrivate : String := "Извините, этот бот приватный."
def msgError : String := "Что-то пошло не так, попробуйте ещё раз."

def msgPhotoTooLarge : String :=
  "Фото слишком большое (более 20 МБ). Пришлите файл поменьше или задайте вопрос текстом."

def msgNoText : String := "Я понимаю текст и фотографии."

structure PhotoSize where
  fileId : String
  width : ℕ
  height : ℕ
  fileSize : Option ℕ
  deriving DecidableEq

structure Message where
  chatId : ℤ
  messageId : ℤ
  fromUser : Option UserId
  text : Option String
  caption : Option String
  photo : List PhotoSize
  replyMarkup : Option Markup
  deriving DecidableEq

/-- The message under a pressed button: it may be missing or too old to be shown. -/
inductive Pressed
  | missing
  | inaccessible (chatId : ℤ)
  | message (m : Message)
  deriving DecidableEq

def Pressed.chatId? : Pressed → Option ℤ
  | .missing => none
  | .inaccessible chatId => some chatId
  | .message m => some m.chatId

structure CallbackQuery where
  id : String
  fromUser : UserId
  data : Option String
  message : Pressed
  deriving DecidableEq

inductive Event
  | message (m : Message)
  | callbackQuery (cb : CallbackQuery)
  deriving DecidableEq

def Event.fromUser : Event → Option UserId
  | .message m => m.fromUser
  | .callbackQuery cb => some cb.fromUser

/-- An update of another kind has no event. -/
structure Update where
  updateId : ℤ
  event : Option Event
  deriving DecidableEq

inductive ParseMode
  | html
  | markdownV2
  deriving DecidableEq

/-- The Bot API methods that show something; Telegram accepts such a call or answers a bad
request. -/
inductive Call
  | sendMessage (chatId : ℤ) (text : String) (parseMode : Option ParseMode) (markup : Option Markup)
  | answerCallbackQuery (id : String) (text : Option String)
  | dropReplyMarkup (chatId messageId : ℤ)
  | editText (chatId messageId : ℤ) (text : String) (parseMode : Option ParseMode)
      (markup : Option Markup)
  deriving DecidableEq

inductive Reply
  | ok
  | badRequest
  deriving DecidableEq

structure Result where
  text : String
  options : List String := []
  allowCustom : Bool := false
  deriving DecidableEq

structure File where
  fileSize : Option ℕ
  filePath : Option String
  deriving DecidableEq

/-- What the handlers ask of Telegram, of the agent, of the tracer and of the feedback hook. The typing
indicator that runs beside the agent is left out: it shows no message. -/
inductive Effect
  | telegram (c : Call)
  | getFile (fileId : String)
  | downloadFile (path : String)
  | reset (userId : UserId)
  | sessionKey (userId : UserId)
  | preferences (userId : UserId)
  | forgetPreference (userId : UserId) (key : String)
  | handle (userId : UserId) (text image : String)
  | startSpan (value sessionId : String) (userId : UserId) (hasImage : Bool)
  | onFeedback (spanId rating : String) (userId : UserId) (chatId : ℤ)
  deriving DecidableEq

abbrev Answer : Effect → Type
  | .telegram _ => Reply
  | .getFile _ => File
  | .downloadFile _ => List (Fin 256)
  | .preferences _ => List Preference
  | .handle _ _ _ => Result
  | .sessionKey _ | .startSpan _ _ _ _ => String
  | .reset _ | .forgetPreference _ _ | .onFeedback _ _ _ _ => Unit

instance : (e : Effect) → DecidableEq (Answer e)
  | .telegram _ => inferInstanceAs (DecidableEq Reply)
  | .getFile _ => inferInstanceAs (DecidableEq File)
  | .downloadFile _ => inferInstanceAs (DecidableEq (List (Fin 256)))
  | .preferences _ => inferInstanceAs (DecidableEq (List Preference))
  | .handle _ _ _ => inferInstanceAs (DecidableEq Result)
  | .sessionKey _ | .startSpan _ _ _ _ => inferInstanceAs (DecidableEq String)
  | .reset _ | .forgetPreference _ _ | .onFeedback _ _ _ _ => inferInstanceAs (DecidableEq Unit)

abbrev Task (α : Type) := Prog Effect Answer α

abbrev call (e : Effect) : Task (Answer e) := Prog.call e

def suppressed (c : Call) : Task PUnit := do
  let _ ← call (.telegram c)
  return

def checked (c : Call) : Task PUnit := do
  match ← call (.telegram c) with
  | .ok => return
  | .badRequest => .raised

def maxPhotoBytes : ℕ := 20 * 2 ^ 20

def tooLarge (size : Option ℕ) : Bool := size.any (maxPhotoBytes < ·)

/-- `photo_data_uri`; `none` is `PhotoTooLargeError`. -/
def photoDataUri (m : Message) : Task (Option String) :=
  match m.photo.argmax fun p => p.width * p.height with
  | none => .raised
  | some largest =>
    if tooLarge largest.fileSize then return none
    else do
      let file ← call (.getFile largest.fileId)
      if tooLarge file.fileSize then return none
      else
        match file.filePath with
        | none | some "" => .raised
        | some path => do
          let data ← call (.downloadFile path)
          if maxPhotoBytes < data.length then return none
          else return some ("data:image/jpeg;base64," ++ String.ofList (Base64.encode data))

/-- The settings of the bot and what it takes from its libraries: the command that a message is for
the command filters, and the conversion to MarkdownV2. -/
structure ChicBot where
  webhookSecret : String
  allowed : Finset UserId
  traced : Bool
  feedbackHook : Bool
  commandOf : Message → Option String
  toMarkdownV2 : String → Option String

namespace ChicBot
variable (bot : ChicBot)

/-- A chunk that is rejected is sent once more as it is. -/
def sendChunk (chatId : ℤ) (chunk : String) (markup : Option Markup) : Task PUnit :=
  match bot.toMarkdownV2 chunk with
  | none => .raised
  | some rendered => do
    match ← call (.telegram (.sendMessage chatId rendered (some .markdownV2) markup)) with
    | .ok => return
    | .badRequest => suppressed (.sendMessage chatId chunk none markup)

def sendChunks (chatId : ℤ) (text : String) (markup : Option Markup) : Task PUnit :=
  let chunks := sourceChunks text
  chunks.zipIdx.forM fun (chunk, i) =>
    bot.sendChunk chatId chunk (if i = chunks.length - 1 then markup else none)

def deliver (chatId : ℤ) (result : Result) (spanId : String) : Task PUnit :=
  if result.options ≠ [] then
    bot.sendChunks chatId result.text (some (clarifyKeyboard result.options result.allowCustom))
  else if result.text = "" then return
  else bot.sendChunks chatId result.text (feedbackKeyboard spanId)

/-- The span of a turn, with what `mark_input` puts on it. -/
def openSpan (userId : UserId) (text image : String) : Task String :=
  if bot.traced then do
    let sessionId ← call (.sessionKey userId)
    let value := if text ≠ "" then text else if image ≠ "" then "[фото]" else ""
    call (.startSpan value sessionId userId (image ≠ ""))
  else return ""

def runAndDeliver (userId : UserId) (chatId : ℤ) (text image : String) : Task PUnit := do
  let spanId ← bot.openSpan userId text image
  match ← (call (.handle userId text image)).attempt with
  | none => checked (.sendMessage chatId msgError none none)
  | some result => bot.deliver chatId result spanId

def showMemory (userId : UserId) (chatId : ℤ) : Task PUnit := do
  let prefs ← call (.preferences userId)
  let (text, markup) := renderMemory prefs
  checked (.sendMessage chatId text (some .html) markup)

def cmdMenu (m : Message) : Task PUnit :=
  checked (.sendMessage m.chatId msgMenuPrompt none (some menuKeyboard))

def cmdMemory (m : Message) : Task PUnit :=
  match m.fromUser with
  | none => return
  | some userId => showMemory userId m.chatId

def cmdNew (m : Message) : Task PUnit :=
  match m.fromUser with
  | none => return
  | some userId => do
    call (.reset userId)
    checked (.sendMessage m.chatId msgSessionReset none none)

def ask (userId : UserId) (chatId : ℤ) (text image : String) : Task PUnit :=
  if text = "" ∧ image = "" then checked (.sendMessage chatId msgNoText none none)
  else bot.runAndDeliver userId chatId text image

def onMessage (m : Message) : Task PUnit :=
  match m.fromUser with
  | none => return
  | some userId =>
    if m.photo = [] then bot.ask userId m.chatId (m.text.getD "") ""
    else do
      match ← (photoDataUri m).attempt with
      | none => checked (.sendMessage m.chatId msgError none none)
      | some none => checked (.sendMessage m.chatId msgPhotoTooLarge none none)
      | some (some image) => bot.ask userId m.chatId (m.caption.getD "") image

/-- A hook that fails is not noticed. -/
def recordFeedback (cb : CallbackQuery) (spanId rating : String) : Task PUnit :=
  if bot.feedbackHook then do
    let chatId := cb.message.chatId?.getD 0
    let _ ← (call (.onFeedback spanId rating cb.fromUser chatId)).attempt
    return
  else return

def cbFeedback (cb : CallbackQuery) : Task PUnit :=
  match parseFeedback (cb.data.getD "") with
  | none => checked (.answerCallbackQuery cb.id none)
  | some (rating, spanId) => do
    checked (.answerCallbackQuery cb.id (some msgFeedbackThanks))
    bot.recordFeedback cb spanId rating
    match cb.message with
    | .message m => suppressed (.dropReplyMarkup m.chatId m.messageId)
    | _ => return

def cbQuick (cb : CallbackQuery) : Task PUnit := do
  checked (.answerCallbackQuery cb.id none)
  match templateByCallback (cb.data.getD ""), cb.message with
  | some question, .message m => do
    checked (.sendMessage m.chatId ("❓ " ++ question) none none)
    bot.runAndDeliver cb.fromUser m.chatId question ""
  | _, _ => return

/-- The question of a clarifying message with the choice under it. -/
def answeredText (m : Message) (choice : String) : String :=
  let question := PyText.strip (m.text.getD "")
  (if question ≠ "" then question ++ "\n\n" else "") ++ "✅ " ++ choice

/-- Without markup the keyboard goes. -/
def markAnswered (m : Message) (choice : String) : Task PUnit :=
  suppressed (.editText m.chatId m.messageId (answeredText m choice) none none)

def cbClarify (cb : CallbackQuery) : Task PUnit := do
  checked (.answerCallbackQuery cb.id none)
  match cb.message with
  | .message m =>
    let data := cb.data.getD ""
    let label := buttonLabel m.replyMarkup data
    if data = clarifyCustom then do
      suppressed (.dropReplyMarkup m.chatId m.messageId)
      checked (.sendMessage m.chatId msgAskCustom none none)
    else if label = "" then suppressed (.dropReplyMarkup m.chatId m.messageId)
    else do
      markAnswered m label
      bot.runAndDeliver cb.fromUser m.chatId label ""
  | _ => return

def forgetAt (userId : UserId) (prefs : List Preference) (idx : ℕ) : Task (List Preference) :=
  match prefs[idx]? with
  | none => return prefs
  | some p => do
    call (.forgetPreference userId p.key)
    call (.preferences userId)

def cbMemoryForget (cb : CallbackQuery) : Task PUnit := do
  checked (.answerCallbackQuery cb.id none)
  match cb.message, indexFromCallback (cb.data.getD "") memForgetPrefix with
  | .message m, some idx => do
    let prefs ← forgetAt cb.fromUser (← call (.preferences cb.fromUser)) idx
    let (text, markup) := renderMemory prefs
    suppressed (.editText m.chatId m.messageId text (some .html) markup)
  | _, _ => return

def startsWith (cb : CallbackQuery) (pre : String) : Bool :=
  cb.data.any fun data => pre.toList.isPrefixOf data.toList

def handler : Event → Option (Task PUnit)
  | .message m =>
    some
      (match bot.commandOf m with
      | some "menu" | some "start" | some "help" => cmdMenu m
      | some "memory" => cmdMemory m
      | some "new" => cmdNew m
      | _ => bot.onMessage m)
  | .callbackQuery cb =>
    if startsWith cb feedbackPrefix then some (bot.cbFeedback cb)
    else if startsWith cb quickPrefix then some (bot.cbQuick cb)
    else if startsWith cb clarifyPrefix then some (bot.cbClarify cb)
    else if startsWith cb memForgetPrefix then some (cbMemoryForget cb)
    else none

def refusal : Event → Call
  | .message m => .sendMessage m.chatId msgPrivate none none
  | .callbackQuery cb => .answerCallbackQuery cb.id none

/-- The inner middleware: it stands between the filters and the handler. -/
def allowlist (event : Event) (handler : Task PUnit) : Task PUnit :=
  match event.fromUser with
  | none => suppressed (refusal event)
  | some userId => if userId ∈ bot.allowed then handler else suppressed (refusal event)

/-- What the dispatcher does with an event; nothing when no filter matches. -/
def dispatch (event : Event) : Option (Task PUnit) :=
  (bot.handler event).map (bot.allowlist event)

end ChicBot

/-- A call of the webhook endpoint. A body that is no update raises, which is `none`. -/
structure Request where
  pathSecret : String
  header : Option String
  body : Option Update
  deriving DecidableEq

namespace ChicBot
variable (bot : ChicBot)

/-- `telegram_webhook` and `feed_update` up to the handler. -/
def webhook (d : Dedupe) (r : Request) : Dedupe × Option (Task PUnit) :=
  if r.pathSecret ≠ bot.webhookSecret ∨ r.header.getD "" ≠ bot.webhookSecret then (d, none)
  else
    match r.body with
    | none => (d, none)
    | some u =>
      match d.firstSeen u.updateId with
      | some (true, d') => (d', u.event.bind bot.dispatch)
      | some (false, d') => (d', none)
      | none => (d, none)

def server : Server Effect Answer Dedupe Request := ⟨Dedupe.init 1024, bot.webhook⟩

end ChicBot

end Chic.Bot
