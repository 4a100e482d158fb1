import Chic.Bot

namespace Chic.Bot
open AppDb (UserId Preference)
open Effects Keyboards Telegram

def Event.chatId? : Event → Option ℤ
  | .message m => some m.chatId
  | .callbackQuery cb => cb.message.chatId?

abbrev Past := List (Done Effect Answer)

namespace ChicBot
variable (bot : ChicBot)

def commands : List String := ["menu", "start", "help", "memory", "new"]

/-- The photo of a message that is downloaded: a largest one, not announced as too large. -/
structure Chosen (m : Message) (p : PhotoSize) : Prop where
  largest : (m.photo.argmax fun p => p.width * p.height) = some p
  size : tooLarge p.fileSize = false

def Located (past : Past) (m : Message) (path : String) : Prop :=
  ∃ p file, Chosen m p ∧ ⟨.getFile p.fileId, some file⟩ ∈ past ∧ tooLarge file.fileSize = false ∧
    file.filePath = some path

/-- What an event may put to the agent, text and image. -/
inductive Question (past : Past) : Event → String → String → Prop
  | typed (m : Message) (hcommand : ∀ c ∈ commands, bot.commandOf m ≠ some c)
    (hphoto : m.photo = []) (hne : m.text.getD "" ≠ "") :
    Question past (.message m) (m.text.getD "") ""
  | photo (m : Message) (path : String) (data : List (Fin 256))
    (hcommand : ∀ c ∈ commands, bot.commandOf m ≠ some c) (hpath : Located past m path)
    (hdata : ⟨.downloadFile path, some data⟩ ∈ past) (hsize : data.length ≤ maxPhotoBytes) :
    Question past (.message m) (m.caption.getD "")
      ("data:image/jpeg;base64," ++ String.ofList (Base64.encode data))
  | menu (cb : CallbackQuery) (m : Message) (question : String) (hm : cb.message = .message m)
    (hquestion : templateByCallback (cb.data.getD "") = some question) :
    Question past (.callbackQuery cb) question ""
  | option (cb : CallbackQuery) (m : Message) (hm : cb.message = .message m)
    (hpre : startsWith cb clarifyPrefix) (hcustom : cb.data.getD "" ≠ clarifyCustom)
    (hne : buttonLabel m.replyMarkup (cb.data.getD "") ≠ "") :
    Question past (.callbackQuery cb) (buttonLabel m.replyMarkup (cb.data.getD "")) ""

def notices : List String :=
  [msgSessionReset, msgError, msgPhotoTooLarge, msgNoText, msgAskCustom]

def keyboardOf (result : Result) (spanId : String) : Option Markup :=
  if result.options ≠ [] then some (clarifyKeyboard result.options result.allowCustom)
  else feedbackKeyboard spanId

/-- A chunk of a result as it is, or as MarkdownV2. -/
def Renders (chunk : String) : String → Option ParseMode → Prop
  | text, none => text = chunk
  | text, some .markdownV2 => bot.toMarkdownV2 chunk = some text
  | _, some .html => False

def SpanOf (past : Past) (spanId : String) : Prop :=
  spanId = "" ∨ ∃ value sessionId userId hasImage,
    ⟨.startSpan value sessionId userId hasImage, some spanId⟩ ∈ past

/-- What the task of a known user may do after what it has done. -/
inductive Permitted (event : Event) (userId : UserId) (past : Past) : Effect → Prop
  | menu {chatId : ℤ} (hchat : event.chatId? = some chatId) :
    Permitted event userId past
      (.telegram (.sendMessage chatId msgMenuPrompt none (some menuKeyboard)))
  | notice {chatId : ℤ} {text : String} (hchat : event.chatId? = some chatId)
    (htext : text ∈ notices) :
    Permitted event userId past (.telegram (.sendMessage chatId text none none))
  | echo {chatId : ℤ} {question : String} (hchat : event.chatId? = some chatId)
    (hquestion : bot.Question past event question "") :
    Permitted event userId past (.telegram (.sendMessage chatId ("❓ " ++ question) none none))
  | memory {chatId : ℤ} {prefs : List Preference} (hchat : event.chatId? = some chatId)
    (hprefs : ⟨.preferences userId, some prefs⟩ ∈ past) :
    Permitted event userId past (.telegram
      (.sendMessage chatId (renderMemory prefs).1 (some .html) (renderMemory prefs).2))
  | chunk {chatId : ℤ} {text image chunk shown spanId : String} {mode : Option ParseMode}
    {markup : Option Markup} {result : Result} (hchat : event.chatId? = some chatId)
    (hresult : ⟨.handle userId text image, some result⟩ ∈ past)
    (hchunk : chunk ∈ sourceChunks result.text) (hshown : bot.Renders chunk shown mode)
    (hspan : SpanOf past spanId) (hmarkup : markup = none ∨ markup = keyboardOf result spanId) :
    Permitted event userId past (.telegram (.sendMessage chatId shown mode markup))
  | answer {cb : CallbackQuery} {text : Option String} (hevent : event = .callbackQuery cb)
    (htext : text = none ∨ text = some msgFeedbackThanks) :
    Permitted event userId past (.telegram (.answerCallbackQuery cb.id text))
  | drop {cb : CallbackQuery} {m : Message} (hevent : event = .callbackQuery cb)
    (hm : cb.message = .message m) :
    Permitted event userId past (.telegram (.dropReplyMarkup m.chatId m.messageId))
  | answered {cb : CallbackQuery} {m : Message} {choice : String}
    (hevent : event = .callbackQuery cb) (hm : cb.message = .message m)
    (hchoice : bot.Question past event choice "") :
    Permitted event userId past
      (.telegram (.editText m.chatId m.messageId (answeredText m choice) none none))
  | memoryPage {cb : CallbackQuery} {m : Message} {prefs : List Preference}
    (hevent : event = .callbackQuery cb) (hm : cb.message = .message m)
    (hprefs : ⟨.preferences userId, some prefs⟩ ∈ past) :
    Permitted event userId past (.telegram (.editText m.chatId m.messageId
      (renderMemory prefs).1 (some .html) (renderMemory prefs).2))
  | getFile {m : Message} {p : PhotoSize} (hevent : event = .message m) (hp : Chosen m p) :
    Permitted event userId past (.getFile p.fileId)
  | downloadFile {m : Message} {path : String} (hevent : event = .message m)
    (hpath : Located past m path) : Permitted event userId past (.downloadFile path)
  | reset {m : Message} (hevent : event = .message m) (hcommand : bot.commandOf m = some "new") :
    Permitted event userId past (.reset userId)
  | sessionKey : Permitted event userId past (.sessionKey userId)
  | preferences : Permitted event userId past (.preferences userId)
  | forget {cb : CallbackQuery} {prefs : List Preference} {idx : ℕ} {p : Preference}
    (hevent : event = .callbackQuery cb)
    (hidx : indexFromCallback (cb.data.getD "") memForgetPrefix = some idx)
    (hprefs : ⟨.preferences userId, some prefs⟩ ∈ past) (hp : prefs[idx]? = some p) :
    Permitted event userId past (.forgetPreference userId p.key)
  | handle {text image : String} (h : bot.Question past event text image) :
    Permitted event userId past (.handle userId text image)
  | startSpan {value sessionId : String} {hasImage : Bool}
    (hsession : ⟨.sessionKey userId, some sessionId⟩ ∈ past) :
    Permitted event userId past (.startSpan value sessionId userId hasImage)
  | onFeedback {cb : CallbackQuery} {spanId rating : String} {chatId : ℤ}
    (hevent : event = .callbackQuery cb)
    (hparsed : parseFeedback (cb.data.getD "") = some (rating, spanId)) :
    Permitted event userId past (.onFeedback spanId rating userId chatId)

/-- What the task of an event may do: strangers are refused. -/
def Keeps (event : Event) (past : Past) (e : Effect) : Prop :=
  match event.fromUser with
  | some userId =>
    if userId ∈ bot.allowed then bot.Permitted event userId past e
    else e = .telegram (refusal event)
  | none => e = .telegram (refusal event)

omit bot in
theorem Located.append {past : Past} {m : Message} {path : String} (h : Located past m path)
    (d : Done Effect Answer) : Located (past ++ [d]) m path := by
  obtain ⟨p, file, hp, hfile, hsize, hpath⟩ := h
  exact ⟨p, file, hp, List.mem_append_left _ hfile, hsize, hpath⟩

omit bot in
theorem Question.append {bot : ChicBot} {past : Past} {event : Event} {text image : String}
    (h : bot.Question past event text image) (d : Done Effect Answer) :
    bot.Question (past ++ [d]) event text image := by
  cases h with
  | typed m hcommand hphoto hne => exact .typed m hcommand hphoto hne
  | photo m path data hcommand hpath hdata hsize =>
    exact .photo m path data hcommand (hpath.append d) (List.mem_append_left _ hdata) hsize
  | menu cb m _ hm hquestion => exact .menu cb m _ hm hquestion
  | option cb m hm hpre hcustom hne => exact .option cb m hm hpre hcustom hne

omit bot in
theorem SpanOf.append {past : Past} {spanId : String} (h : SpanOf past spanId)
    (d : Done Effect Answer) : SpanOf (past ++ [d]) spanId := by
  refine h.imp_right ?_
  rintro ⟨value, sessionId, userId, hasImage, h⟩
  exact ⟨value, sessionId, userId, hasImage, List.mem_append_left _ h⟩

section Handlers
variable {P : Past → Effect → Prop} {past : Past} {event : Event} {userId : UserId} {chatId : ℤ}
  {m : Message} {cb : CallbackQuery} {c : Call} {text image : String}

/-- Nothing is asked of the end of a task. -/
abbrev Ends {α : Type} : Past → Option α → Prop := fun _ _ => True

omit bot in
theorem only_suppressed {Q : Past → Option PUnit → Prop} (h : P past (.telegram c))
    (hQ : ∀ r o, Q (past ++ [⟨.telegram c, r⟩]) o) : (suppressed c).Only P Q past := by
  refine ⟨h, fun r => ?_⟩
  cases r with
  | none => exact hQ none none
  | some r => exact hQ (some r) (some ())

omit bot in
theorem only_checked {Q : Past → Option PUnit → Prop} (h : P past (.telegram c))
    (hQ : ∀ r o, Q (past ++ [⟨.telegram c, r⟩]) o) : (checked c).Only P Q past := by
  refine ⟨h, fun r => ?_⟩
  cases r with
  | none => exact hQ none none
  | some r =>
    cases r with
    | ok => exact hQ (some .ok) (some ())
    | badRequest => exact hQ (some .badRequest) none

theorem sendChunks_only {result : Result} {spanId : String} {markup : Option Markup}
    (hchat : event.chatId? = some chatId) (hspan : SpanOf past spanId)
    (hresult : ⟨.handle userId text image, some result⟩ ∈ past)
    (hmarkup : markup = keyboardOf result spanId) :
    (bot.sendChunks chatId result.text markup).Only (bot.Permitted event userId) Ends past := by
  let I : Past → Prop := fun past =>
    SpanOf past spanId ∧ ⟨.handle userId text image, some result⟩ ∈ past
  have hgrow : ∀ past d, I past → I (past ++ [d]) := by
    intro past d h
    exact ⟨h.1.append d, List.mem_append_left _ h.2⟩
  refine (Prog.only_forM (I := I) _ ⟨hspan, hresult⟩ ?_).mono (fun _ _ h => h) fun _ _ _ => trivial
  rintro ⟨chunk, i⟩ hmem past hI
  have hchunk : chunk ∈ sourceChunks result.text := (List.mem_zipIdx hmem).2.2 ▸ List.getElem_mem _
  have hkeyboard : (if i = (sourceChunks result.text).length - 1 then markup else none) = none ∨
      (if i = (sourceChunks result.text).length - 1 then markup else none) =
        keyboardOf result spanId := by
    split_ifs
    · exact .inr hmarkup
    · exact .inl rfl
  dsimp only
  rw [sendChunk]
  cases hrendered : bot.toMarkdownV2 chunk with
  | none => exact hI
  | some rendered =>
    refine Prog.only_bind.mpr (Prog.only_call.mpr ⟨?_, ?_⟩)
    · exact .chunk hchat hI.2 hchunk hrendered hI.1 hkeyboard
    · intro r
      have hI' := hgrow past ⟨.telegram _, r⟩ hI
      rcases r with - | - | -
      · exact hI'
      · exact hI'
      · exact only_suppressed (.chunk hchat hI'.2 hchunk rfl hI'.1 hkeyboard) fun _ _ => hgrow _ _ hI'

theorem deliver_only {result : Result} {spanId : String} (hchat : event.chatId? = some chatId)
    (hspan : SpanOf past spanId) (hresult : ⟨.handle userId text image, some result⟩ ∈ past) :
    (bot.deliver chatId result spanId).Only (bot.Permitted event userId) Ends past := by
  rw [deliver]
  split_ifs with hoptions hempty
  · exact bot.sendChunks_only hchat hspan hresult (by rw [keyboardOf, if_pos hoptions])
  · trivial
  · exact bot.sendChunks_only hchat hspan hresult (by rw [keyboardOf, if_neg hoptions])

theorem openSpan_only :
    (bot.openSpan userId text image).Only (bot.Permitted event userId)
      (fun past o => ∀ spanId, o = some spanId → SpanOf past spanId) past := by
  rw [openSpan]
  by_cases htraced : bot.traced
  · rw [if_pos htraced]
    refine Prog.only_bind.mpr (Prog.only_call.mpr ⟨.sessionKey, fun sessionId => ?_⟩)
    cases sessionId with
    | none => rintro spanId ⟨⟩
    | some sessionId =>
      have hsession := List.mem_append_right past
        (List.mem_singleton_self (⟨.sessionKey userId, some sessionId⟩ : Done Effect Answer))
      refine Prog.only_call.mpr ⟨.startSpan hsession, ?_⟩
      rintro _ spanId rfl
      exact .inr ⟨_, _, _, _, List.mem_append_right _ (List.mem_singleton_self _)⟩
  · rw [if_neg htraced]
    rintro spanId ⟨⟩
    exact .inl rfl

theorem runAndDeliver_only (hchat : event.chatId? = some chatId)
    (hquestion : bot.Question past event text image) :
    (bot.runAndDeliver userId chatId text image).Only (bot.Permitted event userId) Ends past := by
  have hopen : (bot.openSpan userId text image).Only (bot.Permitted event userId) _ past :=
    bot.openSpan_only
  have hspan := hopen.frame (I := fun past => bot.Question past event text image) hquestion
    fun _ d h => h.append d
  refine hspan.bind (fun _ _ => trivial) fun past spanId h => ?_
  refine Prog.only_bind.mpr (Prog.only_attempt.mpr (Prog.only_call.mpr ⟨.handle h.1, ?_⟩))
  intro r
  cases r with
  | none => exact only_checked (.notice hchat (by simp [notices])) fun _ _ => trivial
  | some result =>
    exact bot.deliver_only hchat ((h.2 spanId rfl).append _)
      (List.mem_append_right _ (List.mem_singleton_self _))

theorem ask_only (hchat : event.chatId? = some chatId)
    (hquestion : ¬ (text = "" ∧ image = "") → bot.Question past event text image) :
    (bot.ask userId chatId text image).Only (bot.Permitted event userId) Ends past := by
  rw [ask]
  split_ifs with hempty
  · exact only_checked (.notice hchat (by simp [notices])) fun _ _ => trivial
  · exact bot.runAndDeliver_only hchat (hquestion hempty)

theorem showMemory_only (hchat : event.chatId? = some chatId) :
    (showMemory userId chatId).Only (bot.Permitted event userId) Ends past := by
  refine Prog.only_bind.mpr (Prog.only_call.mpr ⟨.preferences, fun prefs => ?_⟩)
  cases prefs with
  | none => trivial
  | some prefs =>
    exact only_checked (.memory hchat (List.mem_append_right _ (List.mem_singleton_self _)))
      fun _ _ => trivial

theorem cmdMemory_only (hm : m.fromUser = some userId) :
    (cmdMemory m).Only (bot.Permitted (.message m) userId) Ends past := by
  rw [cmdMemory, hm]
  exact bot.showMemory_only rfl

theorem cmdNew_only (hm : m.fromUser = some userId) (hcommand : bot.commandOf m = some "new") :
    (cmdNew m).Only (bot.Permitted (.message m) userId) Ends past := by
  rw [cmdNew, hm]
  refine Prog.only_bind.mpr (Prog.only_call.mpr ⟨.reset rfl hcommand, fun r => ?_⟩)
  cases r with
  | none => trivial
  | some _ => exact only_checked (.notice rfl (by simp [notices])) fun _ _ => trivial

theorem photoDataUri_only (hcommand : ∀ c ∈ commands, bot.commandOf m ≠ some c) :
    (photoDataUri m).Only (bot.Permitted (.message m) userId)
      (fun past o => ∀ uri, o = some (some uri) →
        bot.Question past (.message m) (m.caption.getD "") uri) past := by
  rw [photoDataUri]
  -- every way out but the last yields no image, and no condition
  cases hlargest : m.photo.argmax fun p => p.width * p.height with
  | none => rintro uri ⟨⟩
  | some largest =>
    dsimp only
    by_cases hsize : tooLarge largest.fileSize
    · rw [if_pos hsize]
      rintro uri ⟨⟩
    have hp : Chosen m largest := ⟨hlargest, Bool.not_eq_true _ ▸ hsize⟩
    rw [if_neg hsize]
    refine Prog.only_bind.mpr (Prog.only_call.mpr ⟨.getFile rfl hp, fun file => ?_⟩)
    cases file with
    | none => rintro uri ⟨⟩
    | some file =>
      dsimp only [Option.elim_some]
      split_ifs with hfile
      · rintro uri ⟨⟩
      split
      · rintro uri ⟨⟩
      · rintro uri ⟨⟩
      rename_i path _ hpath
      have hlocated : Located (past ++ [⟨.getFile largest.fileId, some file⟩]) m path :=
        ⟨largest, file, hp, List.mem_append_right _ (List.mem_singleton_self _),
          Bool.not_eq_true _ ▸ hfile, hpath⟩
      refine Prog.only_bind.mpr (Prog.only_call.mpr ⟨.downloadFile rfl hlocated, ?_⟩)
      intro data
      cases data with
      | none => rintro uri ⟨⟩
      | some data =>
        dsimp only [Option.elim_some]
        split_ifs with hdata
        · rintro uri ⟨⟩
        · rintro uri ⟨⟩
          exact .photo m path data hcommand (hlocated.append _)
            (List.mem_append_right _ (List.mem_singleton_self _)) (not_lt.mp hdata)

theorem onMessage_only (hm : m.fromUser = some userId)
    (hcommand : ∀ c ∈ commands, bot.commandOf m ≠ some c) :
    (bot.onMessage m).Only (bot.Permitted (.message m) userId) Ends past := by
  have hsend (past : Past) {text : String} (htext : text ∈ notices) :
      (checked (.sendMessage m.chatId text none none)).Only
        (bot.Permitted (.message m) userId) Ends past :=
    only_checked (.notice rfl htext) fun _ _ => trivial
  rw [onMessage, hm]
  dsimp only
  split_ifs with hphoto
  · refine bot.ask_only rfl fun hne => .typed m hcommand hphoto ?_
    exact fun htext => hne ⟨htext, rfl⟩
  · refine Prog.only_bind.mpr (Prog.only_attempt.mpr ((bot.photoDataUri_only hcommand).mono
      (fun _ _ h => h) fun past o huri => ?_))
    rcases o with - | - | image
    · exact hsend past (by simp [notices])
    · exact hsend past (by simp [notices])
    · exact bot.ask_only rfl fun _ => huri image rfl

theorem cbFeedback_only :
    (bot.cbFeedback cb).Only (bot.Permitted (.callbackQuery cb) cb.fromUser) Ends past := by
  rw [cbFeedback]
  cases hparsed : parseFeedback (cb.data.getD "") with
  | none => exact only_checked (.answer rfl (.inl rfl)) fun _ _ => trivial
  | some parsed =>
    obtain ⟨rating, spanId⟩ := parsed
    have hrecord (past : Past) : (bot.recordFeedback cb spanId rating).Only
        (bot.Permitted (.callbackQuery cb) cb.fromUser) Ends past := by
      rw [recordFeedback]
      split_ifs
      · exact Prog.only_bind.mpr (Prog.only_attempt.mpr (Prog.only_call.mpr
          ⟨.onFeedback rfl hparsed, fun _ => trivial⟩))
      · trivial
    refine (only_checked (Q := Ends) (.answer rfl (.inr rfl)) fun _ _ => trivial).bind
      (fun _ _ => trivial) fun past _ _ => ?_
    refine (hrecord past).bind (fun _ _ => trivial) fun past _ _ => ?_
    split
    · exact only_suppressed (.drop rfl ‹_›) fun _ _ => trivial
    · trivial

theorem cbQuick_only :
    (bot.cbQuick cb).Only (bot.Permitted (.callbackQuery cb) cb.fromUser) Ends past := by
  refine (only_checked (Q := Ends) (.answer rfl (.inl rfl)) fun _ _ => trivial).bind
    (fun _ _ => trivial) fun past _ _ => ?_
  split
  · rename_i question m hquestion hm
    have hchat : Event.chatId? (.callbackQuery cb) = some m.chatId := by
      rw [Event.chatId?, hm, Pressed.chatId?]
    have hask (past : Past) : bot.Question past (.callbackQuery cb) question "" :=
      .menu cb m question hm hquestion
    exact (only_checked (Q := Ends) (.echo hchat (hask past)) fun _ _ => trivial).bind
      (fun _ _ => trivial) fun past _ _ => bot.runAndDeliver_only hchat (hask past)
  · trivial

theorem cbClarify_only (hpre : startsWith cb clarifyPrefix) :
    (bot.cbClarify cb).Only (bot.Permitted (.callbackQuery cb) cb.fromUser) Ends past := by
  refine (only_checked (Q := Ends) (.answer rfl (.inl rfl)) fun _ _ => trivial).bind
    (fun _ _ => trivial) fun past _ _ => ?_
  split
  · rename_i m hm
    have hchat : Event.chatId? (.callbackQuery cb) = some m.chatId := by
      rw [Event.chatId?, hm, Pressed.chatId?]
    have hdrop (past : Past) : (suppressed (.dropReplyMarkup m.chatId m.messageId)).Only
        (bot.Permitted (.callbackQuery cb) cb.fromUser) Ends past :=
      only_suppressed (.drop rfl hm) fun _ _ => trivial
    dsimp only
    split_ifs with hcustom hlabel
    · exact (hdrop past).bind (fun _ _ => trivial) fun past _ _ =>
        only_checked (.notice hchat (by simp [notices])) fun _ _ => trivial
    · exact hdrop past
    · have hask (past : Past) : bot.Question past (.callbackQuery cb)
          (buttonLabel m.replyMarkup (cb.data.getD "")) "" :=
        .option cb m hm hpre hcustom hlabel
      have hmark : (markAnswered m (buttonLabel m.replyMarkup (cb.data.getD ""))).Only
          (bot.Permitted (.callbackQuery cb) cb.fromUser) Ends past :=
        only_suppressed (.answered rfl hm (hask past)) fun _ _ => trivial
      exact hmark.bind (fun _ _ => trivial) fun past _ _ => bot.runAndDeliver_only hchat (hask past)
  · trivial

theorem forgetAt_only {prefs : List Preference} {idx : ℕ}
    (hidx : indexFromCallback (cb.data.getD "") memForgetPrefix = some idx)
    (hlisted : ⟨.preferences cb.fromUser, some prefs⟩ ∈ past) :
    (forgetAt cb.fromUser prefs idx).Only (bot.Permitted (.callbackQuery cb) cb.fromUser)
      (fun past o => ∀ prefs, o = some prefs → ⟨.preferences cb.fromUser, some prefs⟩ ∈ past)
      past := by
  rw [forgetAt]
  cases hp : prefs[idx]? with
  | none =>
    rintro _ ⟨⟩
    exact hlisted
  | some p =>
    refine Prog.only_bind.mpr (Prog.only_call.mpr ⟨.forget rfl hidx hlisted hp, fun r => ?_⟩)
    cases r with
    | none => rintro _ ⟨⟩
    | some _ =>
      refine Prog.only_call.mpr ⟨.preferences, ?_⟩
      rintro _ prefs rfl
      exact List.mem_append_right _ (List.mem_singleton_self _)

theorem cbMemoryForget_only :
    (cbMemoryForget cb).Only (bot.Permitted (.callbackQuery cb) cb.fromUser) Ends past := by
  refine (only_checked (Q := Ends) (.answer rfl (.inl rfl)) fun _ _ => trivial).bind
    (fun _ _ => trivial) fun past _ _ => ?_
  split
  · rename_i m idx hm hidx
    refine Prog.only_bind.mpr (Prog.only_call.mpr ⟨.preferences, fun prefs => ?_⟩)
    cases prefs with
    | none => trivial
    | some prefs =>
      have hlisted : ⟨.preferences cb.fromUser, some prefs⟩ ∈ past ++
          [(⟨.preferences cb.fromUser, some prefs⟩ : Done Effect Answer)] :=
        List.mem_append_right _ (List.mem_singleton_self _)
      refine (bot.forgetAt_only hidx hlisted).bind (fun _ _ => trivial) fun past prefs h => ?_
      exact only_suppressed (.memoryPage rfl hm (h prefs rfl)) fun _ _ => trivial
  · trivial

/-- What the filters choose for an event keeps to what the event permits its user. -/
theorem handler_only {task : Task PUnit} (huser : event.fromUser = some userId)
    (htask : bot.handler event = some task) :
    task.Only (bot.Permitted event userId) Ends past := by
  cases event with
  | message m =>
    cases htask
    split
    · exact only_checked (.menu rfl) fun _ _ => trivial
    · exact only_checked (.menu rfl) fun _ _ => trivial
    · exact only_checked (.menu rfl) fun _ _ => trivial
    · exact bot.cmdMemory_only huser
    · exact bot.cmdNew_only huser ‹_›
    · exact bot.onMessage_only huser (by simp_all [commands])
  | callbackQuery cb =>
    cases huser
    rw [handler] at htask
    split_ifs at htask with _ _ hclarify
    · exact Option.some.inj htask ▸ bot.cbFeedback_only
    · exact Option.some.inj htask ▸ bot.cbQuick_only
    · exact Option.some.inj htask ▸ bot.cbClarify_only hclarify
    · exact Option.some.inj htask ▸ bot.cbMemoryForget_only

/-- What the allowlist lets through, and how it answers the others. -/
theorem dispatch_only {task : Task PUnit} (htask : bot.dispatch event = some task) :
    task.Only (bot.Keeps event) Ends past := by
  obtain ⟨inner, hinner, rfl⟩ := Option.map_eq_some_iff.mp htask
  have hrefuse : (suppressed (refusal event)).Only (fun _ e => e = .telegram (refusal event))
      Ends past := only_suppressed rfl fun _ _ => trivial
  unfold allowlist Keeps
  cases huser : event.fromUser with
  | none => exact hrefuse
  | some userId =>
    by_cases hallowed : userId ∈ bot.allowed
    · simp only [if_pos hallowed]
      exact bot.handler_only huser hinner
    · simp only [if_neg hallowed]
      exact hrefuse

end Handlers

end ChicBot

end Chic.Bot
