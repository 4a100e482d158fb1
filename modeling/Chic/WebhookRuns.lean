import Chic.BotPolicy

namespace Chic.Bot
open AppDb (UserId Preference)
open Effects Keyboards Telegram

def Effect.userId? : Effect → Option UserId
  | .reset userId | .sessionKey userId | .preferences userId | .forgetPreference userId _
  | .handle userId _ _ | .startSpan _ _ userId _ | .onFeedback _ _ userId _ => some userId
  | .telegram _ | .getFile _ | .downloadFile _ => none

def Effect.chatId? : Effect → Option ℤ
  | .telegram (.sendMessage chatId _ _ _) | .telegram (.dropReplyMarkup chatId _)
  | .telegram (.editText chatId _ _ _ _) => some chatId
  | _ => none

/-- The keyboard that an effect puts up, with the chat. -/
def Effect.keyboard? : Effect → Option (ℤ × Markup)
  | .telegram (.sendMessage chatId _ _ markup) | .telegram (.editText chatId _ _ _ markup) =>
    markup.map (chatId, ·)
  | _ => none

def ShownIn (log : List (ℕ × Done Effect Answer)) (chatId : ℤ) (rows : Markup) : Prop :=
  ∃ j d, (j, d) ∈ log ∧ d.1.keyboard? = some (chatId, rows)

namespace ChicBot
variable {bot : ChicBot} {xs : List Request} {w : World Effect Answer Dedupe Request} {i : ℕ}
  {d : Done Effect Answer} {l l' : List (ℕ × Done Effect Answer)} {event : Event} {userId : UserId}

/-- The request at a place starts a task: it has the secret twice, it carries an update with an
event, and the id of the update is new. -/
structure Admitted (bot : ChicBot) (xs : List Request) (i : ℕ) (u : Update) (event : Event) :
    Prop where
  request : ∃ r, xs[i]? = some r ∧ r.pathSecret = bot.webhookSecret ∧
    r.header.getD "" = bot.webhookSecret ∧ r.body = some u
  event : u.event = some event
  fresh : ((bot.server.stateAfter (xs.take i)).firstSeen u.updateId).map Prod.fst = some true

theorem webhook_task {dedupe : Dedupe} {r : Request} {task : Task PUnit}
    (h : (bot.webhook dedupe r).2 = some task) :
    r.pathSecret = bot.webhookSecret ∧ r.header.getD "" = bot.webhookSecret ∧
      ∃ u event, r.body = some u ∧ u.event = some event ∧
        (dedupe.firstSeen u.updateId).map Prod.fst = some true ∧ bot.dispatch event = some task := by
  unfold webhook at h
  split_ifs at h with hsecret
  rw [not_or, not_not, not_not] at hsecret
  refine ⟨hsecret.1, hsecret.2, ?_⟩
  split at h
  · cases h
  rename_i u hbody
  split at h
  · rename_i dedupe' hfresh
    obtain ⟨event, hevent, hdispatch⟩ := Option.bind_eq_some_iff.mp h
    exact ⟨u, event, hbody, hevent, by rw [hfresh]; rfl, hdispatch⟩
  · cases h
  · cases h

theorem admitted_of_taskOf {r : Request} {task : Task PUnit}
    (h : bot.server.taskOf xs i = some (r, task)) :
    ∃ u event, bot.Admitted xs i u event ∧ r.body = some u := by
  obtain ⟨r', hr, htask⟩ := Option.bind_eq_some_iff.mp h
  obtain ⟨task', htask, heq⟩ := Option.map_eq_some_iff.mp htask
  cases heq
  obtain ⟨hpath, hheader, u, event, hbody, hevent, hfresh, -⟩ := webhook_task htask
  exact ⟨u, event, ⟨⟨r, hr, hpath, hheader, hbody⟩, hevent, hfresh⟩, hbody⟩

/-- In any run an effect belongs to an admitted request and is one that its event permits after what
its task has done before. -/
theorem run_keeps {es : List (Effects.Event Effect Answer Request)}
    (h : Trace.run bot.server.step bot.server.start es = some w) (hlog : w.log = l ++ (i, d) :: l') :
    ∃ u event, bot.Admitted w.inputs i u event ∧ bot.Keeps event (past i l) d.1 := by
  have hG : ∀ dedupe r task, (bot.server.accept dedupe r).2 = some task →
      task.Only (fun past e => ∀ u event, r.body = some u → u.event = some event →
        bot.Keeps event past e) (fun _ _ => True) [] := by
    intro dedupe r task htask
    obtain ⟨-, -, u, event, hbody, hevent, -, hdispatch⟩ := webhook_task htask
    refine (bot.dispatch_only hdispatch).mono (fun past e he u' event' hbody' hevent' => ?_)
      fun _ _ h => h
    cases hbody.symm.trans hbody'
    cases hevent.symm.trans hevent'
    exact he
  obtain ⟨r, task, htask, hkeeps⟩ := bot.server.accounted hG h l i d l' hlog
  obtain ⟨u, event, hadmitted, hbody⟩ := admitted_of_taskOf htask
  exact ⟨u, event, hadmitted, hkeeps u event hbody hadmitted.event⟩

theorem mem_past {d' : Done Effect Answer} (h : d' ∈ past i l) : (i, d') ∈ l := by
  obtain ⟨⟨j, d''⟩, hfilter, rfl⟩ := List.mem_map.mp h
  obtain ⟨hmem, hj⟩ := List.mem_filter.mp hfilter
  exact of_decide_eq_true hj ▸ hmem

theorem Permitted.userId_eq {past : Past} {e : Effect} (h : bot.Permitted event userId past e)
    {v : UserId} (hv : e.userId? = some v) : v = userId := by
  cases h <;> cases hv <;> rfl

theorem Permitted.chatId_eq {past : Past} {e : Effect} (h : bot.Permitted event userId past e) {c : ℤ}
    (hc : e.chatId? = some c) : event.chatId? = some c := by
  cases h <;> cases hc <;> first | assumption | skip
  case drop cb m hevent hm => rw [hevent, Event.chatId?, hm, Pressed.chatId?]
  case answered cb m choice hevent hm hchoice =>
    rw [hevent, Event.chatId?, hm, Pressed.chatId?]
  case memoryPage cb m prefs hevent hm hprefs => rw [hevent, Event.chatId?, hm, Pressed.chatId?]

theorem Keeps.allowed_or {past : Past} {e : Effect} (h : bot.Keeps event past e) :
    (∃ userId ∈ bot.allowed, event.fromUser = some userId ∧ bot.Permitted event userId past e) ∨
      (∀ userId, event.fromUser = some userId → userId ∉ bot.allowed) ∧
        e = .telegram (refusal event) := by
  unfold Keeps at h
  cases huser : event.fromUser with
  | none =>
    rw [huser] at h
    exact .inr ⟨fun _ hv => (Option.some_ne_none _ hv.symm).elim, h⟩
  | some userId =>
    rw [huser] at h
    by_cases hallowed : userId ∈ bot.allowed
    · exact .inl ⟨userId, hallowed, rfl, by simpa only [if_pos hallowed] using h⟩
    · refine .inr ⟨fun v hv => Option.some.inj hv ▸ hallowed, ?_⟩
      simpa only [if_neg hallowed] using h

/-- A keyboard is that of a clarifying question which the agent has put to the user, or none of its
buttons is for such a question. -/
theorem Permitted.keyboard {past : Past} {e : Effect} {c : ℤ} {rows : Markup}
    (h : bot.Permitted event userId past e) (hrows : e.keyboard? = some (c, rows)) :
    (∃ text image result, ⟨.handle userId text image, some result⟩ ∈ past ∧
        rows = clarifyKeyboard result.options result.allowCustom) ∨
      ∀ b ∈ rows.flatten, ∀ s, b.callbackData ≠ clarifyPrefix ++ s := by
  have hmemory (prefs : List Preference) (c' : ℤ)
      (hrows : (renderMemory prefs).2.map (c', ·) = some (c, rows)) :
      ∀ b ∈ rows.flatten, ∀ s, b.callbackData ≠ clarifyPrefix ++ s := by
    obtain ⟨rows', hrows', heq⟩ := Option.map_eq_some_iff.mp hrows
    cases heq
    exact fun b hb => (mem_renderMemory hrows' hb).ne (by decide) (by decide)
  cases h
  case chunk chatId text image chunk shown spanId mode markup result hchat hresult hchunk hshown
      hspan hmarkup =>
    obtain ⟨rows', hrows', heq⟩ := Option.map_eq_some_iff.mp hrows
    cases heq
    rcases hmarkup with rfl | hmarkup
    · cases hrows'
    rw [hrows', keyboardOf] at hmarkup
    split_ifs at hmarkup
    · exact .inl ⟨text, image, result, hresult, Option.some.inj hmarkup⟩
    · exact .inr fun b hb => (mem_feedbackKeyboard hmarkup.symm hb).ne (by decide) (by decide)
  case menu =>
    cases hrows
    exact .inr fun b hb => (mem_menuKeyboard hb).ne (by decide) (by decide)
  case memory => exact .inr (hmemory _ _ hrows)
  case memoryPage => exact .inr (hmemory _ _ hrows)
  all_goals cases hrows

end ChicBot

open ChicBot

def shopBot : ChicBot where
  webhookSecret := "тайна"
  allowed := {1}
  traced := false
  feedbackHook := false
  commandOf m := if m.text = some "/new" then some "new" else none
  toMarkdownV2 := some

def textMessage (chatId : ℤ) (text : String) : Message where
  chatId := chatId
  messageId := 5
  fromUser := some chatId
  text := some text
  caption := none
  photo := []
  replyMarkup := none

def delivered (updateId : ℤ) (event : Event) : Request where
  pathSecret := "тайна"
  header := some "тайна"
  body := some ⟨updateId, some event⟩

/-- The question of the agent which the user is asked, and the press of its second option. -/
def periodQuestion : Result := ⟨"За какой период?", ["день", "неделя"], false⟩

def weekPress : CallbackQuery where
  id := "c1"
  fromUser := 1
  data := some "cq:1"
  message := .message
    { textMessage 1 "За какой период?" with
      replyMarkup := some (clarifyKeyboard ["день", "неделя"] false) }

/-- A stranger writes while the user is asked back. -/
def shopEvents : List (Effects.Event Effect Answer Request) :=
  [.input (delivered 7 (.message (textMessage 1 "продажи"))),
    .input (delivered 8 (.message (textMessage 9 "привет"))),
    .act 0 ⟨.handle 1 "продажи" "", some periodQuestion⟩,
    .act 1 ⟨.telegram (.sendMessage 9 msgPrivate none none), some .ok⟩,
    .act 0 ⟨.telegram (.sendMessage 1 "За какой период?" (some .markdownV2)
      (some (clarifyKeyboard ["день", "неделя"] false))), some .ok⟩,
    .input (delivered 9 (.callbackQuery weekPress)),
    .act 2 ⟨.telegram (.answerCallbackQuery "c1" none), some .ok⟩,
    .act 2 ⟨.telegram (.editText 1 5 "За какой период?\n\n✅ неделя" none none), some .ok⟩,
    .act 2 ⟨.handle 1 "неделя" "", some ⟨"12 шт.", [], false⟩⟩]

def shopInputs : List Request :=
  shopEvents.filterMap fun
    | .input r => some r
    | .act _ _ => none

def shopLog : List (ℕ × Done Effect Answer) :=
  shopEvents.filterMap fun
    | .input _ => none
    | .act i d => some (i, d)

theorem exists_shop_run : ∃ w,
    Trace.run shopBot.server.step shopBot.server.start shopEvents = some w ∧
      w.inputs = shopInputs ∧ w.log = shopLog := by
  have h : (Trace.run shopBot.server.step shopBot.server.start shopEvents).map
      (fun w => (w.inputs, w.log)) = some (shopInputs, shopLog) := by decide +kernel
  obtain ⟨w, hrun, heq⟩ := Option.map_eq_some_iff.mp h
  exact ⟨w, hrun, congrArg Prod.fst heq, congrArg Prod.snd heq⟩

variable {bot : ChicBot} {w : World Effect Answer Dedupe Request} {i : ℕ} {d : Done Effect Answer}
  {l l' : List (ℕ × Done Effect Answer)}

/-- However deliveries and effects are interleaved and whatever is answered, all that is done is done
for a request with both secrets and a new update id. For a user on the list it is about that
user's own account and shown in the chat of the update; the session is reset on `/new` only, and
what is forgotten is the preference that stood at the pressed place. Anyone else is refused. -/
theorem webhook_access {es : List (Effects.Event Effect Answer Request)}
    (h : Trace.run bot.server.step bot.server.start es = some w)
    (hlog : w.log = l ++ (i, d) :: l') :
    ∃ u event, bot.Admitted w.inputs i u event ∧
      ((∃ userId ∈ bot.allowed, event.fromUser = some userId ∧
          (∀ v, d.1.userId? = some v → v = userId) ∧
          (∀ c, d.1.chatId? = some c → event.chatId? = some c) ∧
          (∀ v, d.1 = .reset v → ∃ m, event = .message m ∧ bot.commandOf m = some "new") ∧
          ∀ v key, d.1 = .forgetPreference v key →
            ∃ cb idx prefs p, event = .callbackQuery cb ∧
              indexFromCallback (cb.data.getD "") memForgetPrefix = some idx ∧
              (i, ⟨.preferences userId, some prefs⟩) ∈ l ∧ prefs[idx]? = some p ∧ p.key = key) ∨
        (∀ userId, event.fromUser = some userId → userId ∉ bot.allowed) ∧
          d.1 = .telegram (refusal event)) := by
  obtain ⟨u, event, hadmitted, hkeeps⟩ := run_keeps h hlog
  refine ⟨u, event, hadmitted, hkeeps.allowed_or.imp_left ?_⟩
  rintro ⟨userId, hallowed, huser, hpermitted⟩
  refine ⟨userId, hallowed, huser, fun v hv => hpermitted.userId_eq hv,
    fun c hc => hpermitted.chatId_eq hc, ?_, ?_⟩
  -- only the command resets and only the deletion of a shown preference forgets
  · intro v hv
    rw [hv] at hpermitted
    obtain ⟨⟩ := hpermitted
    exact ⟨_, ‹_›, ‹_›⟩
  · intro v key hv
    rw [hv] at hpermitted
    obtain ⟨⟩ := hpermitted
    case forget cb prefs idx p hevent hidx hprefs hp =>
      exact ⟨cb, idx, prefs, p, hevent, hidx, mem_past hprefs, hp, rfl⟩

/-- The turn that the press starts is a turn of the user who pressed. -/
theorem weekPress_access : ∃ w u event,
    Trace.run shopBot.server.step shopBot.server.start shopEvents = some w ∧
      shopBot.Admitted w.inputs 2 u event ∧ event.fromUser = some 1 := by
  obtain ⟨w, hrun, -, hlog⟩ := exists_shop_run
  have hsplit : w.log = shopLog.take 5 ++
      (2, ⟨.handle 1 "неделя" "", some ⟨"12 шт.", [], false⟩⟩) :: [] := hlog
  obtain ⟨u, event, hadmitted, ⟨userId, -, huser, hown, -⟩ | ⟨-, hrefused⟩⟩ :=
    webhook_access hrun hsplit
  · cases hown 1 rfl
    exact ⟨w, u, event, hrun, hadmitted, huser⟩
  · cases hrefused

theorem ChicBot.Permitted.keyboard_chat {event : Event} {userId : UserId} {past : Past} {e : Effect}
    {c : ℤ} {rows : Markup} (h : bot.Permitted event userId past e)
    (hrows : e.keyboard? = some (c, rows)) : event.chatId? = some c := by
  apply h.chatId_eq
  cases e with
  | telegram call =>
    cases call <;> first | cases hrows | skip
    all_goals
      obtain ⟨_, -, heq⟩ := Option.map_eq_some_iff.mp hrows
      cases heq
      rfl
  | _ => cases hrows

/-- The text is the option at the pressed place of a question that the agent asked in the chat. -/
def OptionOf (bot : ChicBot) (w : World Effect Answer Dedupe Request) (chatId : ℤ)
    (data option : String) : Prop :=
  ∃ j u event userId text image result, bot.Admitted w.inputs j u event ∧
    event.fromUser = some userId ∧ userId ∈ bot.allowed ∧ event.chatId? = some chatId ∧
    (j, ⟨.handle userId text image, some result⟩) ∈ w.log ∧
    ∃ k : ℕ, result.options[k]? = some option ∧ data = clarifyPrefix ++ toString k

theorem optionOf_of_shown {es : List (Effects.Event Effect Answer Request)}
    (h : Trace.run bot.server.step bot.server.start es = some w) {chatId : ℤ} {rows : Markup}
    (hshown : ShownIn w.log chatId rows) {b : Button} (hb : b ∈ rows.flatten) {s : String}
    (hdata : b.callbackData = clarifyPrefix ++ s) (hcustom : b.callbackData ≠ clarifyCustom) :
    OptionOf bot w chatId b.callbackData b.text := by
  obtain ⟨j, d, hlog, hkeyboard⟩ := hshown
  obtain ⟨l, l', hsplit⟩ := List.append_of_mem hlog
  obtain ⟨u, event, hadmitted, hkeeps⟩ := run_keeps h hsplit
  rcases hkeeps.allowed_or with ⟨userId, hallowed, huser, hpermitted⟩ | ⟨-, hrefused⟩
  · have hchat := hpermitted.keyboard_chat hkeyboard
    rcases hpermitted.keyboard hkeyboard with ⟨text, image, result, hresult, rfl⟩ | hother
    · have hinlog : (j, ⟨.handle userId text image, some result⟩) ∈ w.log := by
        rw [hsplit]
        exact List.mem_append_left _ (mem_past hresult)
      have hoption := (mem_clarifyKeyboard hb).resolve_right hcustom
      exact ⟨j, u, event, userId, text, image, result, hadmitted, huser, hallowed, hchat, hinlog,
        hoption⟩
    · exact absurd hdata (hother b hb s)
  · rw [hrefused] at hkeyboard
    cases event <;> cases hkeyboard

/-- Whatever is put to the agent comes from an allowed user: it is what the user typed, when it was no
command, or a photo of theirs with its caption, or a question of the menu, or the label of the button
they pressed under a clarifying question. If that keyboard was put up in the chat by the bot, the label is the
option at the pressed place of a question that the agent has asked in this chat. -/
theorem question_provenance {es : List (Effects.Event Effect Answer Request)}
    (h : Trace.run bot.server.step bot.server.start es = some w) {userId : UserId}
    {text image : String} {r : Option Result}
    (hlog : (i, ⟨.handle userId text image, r⟩) ∈ w.log) :
    ∃ u event, bot.Admitted w.inputs i u event ∧ event.fromUser = some userId ∧
      userId ∈ bot.allowed ∧
      ((∃ m, event = .message m ∧ (∀ c ∈ commands, bot.commandOf m ≠ some c) ∧
          (m.photo = [] ∧ text = m.text.getD "" ∧ text ≠ "" ∧ image = "" ∨
            text = m.caption.getD "" ∧ ∃ path data,
              (i, ⟨.downloadFile path, some data⟩) ∈ w.log ∧ data.length ≤ maxPhotoBytes ∧
              image = "data:image/jpeg;base64," ++ String.ofList (Base64.encode data))) ∨
        ∃ cb m, event = .callbackQuery cb ∧ cb.message = .message m ∧ image = "" ∧
          ((∃ label, (label, text) ∈ questionTemplates) ∨
            ∃ rows data, m.replyMarkup = some rows ∧ cb.data = some data ∧
              text = buttonLabel m.replyMarkup data ∧
              (ShownIn w.log m.chatId rows → OptionOf bot w m.chatId data text))) := by
  obtain ⟨l, l', hsplit⟩ := List.append_of_mem hlog
  obtain ⟨u, event, hadmitted, hkeeps⟩ := run_keeps h hsplit
  rcases hkeeps.allowed_or with ⟨v, hallowed, huser, hpermitted⟩ | ⟨-, hrefused⟩
  swap
  · cases hrefused
  cases hpermitted.userId_eq rfl
  refine ⟨u, event, hadmitted, huser, hallowed, ?_⟩
  obtain ⟨⟩ := hpermitted
  case handle hquestion =>
    cases hquestion with
    | typed m hcommand hphoto hne =>
      exact .inl ⟨m, rfl, hcommand, .inl ⟨hphoto, rfl, hne, rfl⟩⟩
    | photo m path data hcommand hpath hdata hsize =>
      have hinlog : (i, ⟨.downloadFile path, some data⟩) ∈ w.log := by
        rw [hsplit]
        exact List.mem_append_left _ (mem_past hdata)
      exact .inl ⟨m, rfl, hcommand, .inr ⟨rfl, path, data, hinlog, hsize, rfl⟩⟩
    | menu cb m _ hm htemplate =>
      exact .inr ⟨cb, m, rfl, hm, rfl, .inl (mem_questionTemplates htemplate)⟩
    -- the label is not empty, so it is that of a button with this data
    | option cb m hm hpre hcustom hne =>
      obtain ⟨rows, b, hrows, hb, hdata, hlabel⟩ := exists_button_of_label hne
      obtain ⟨data, hcb, hstarts⟩ := (Option.any_eq_true _ _).mp hpre
      rw [hcb, Option.getD_some] at hdata hcustom
      have htext : buttonLabel m.replyMarkup (cb.data.getD "") = buttonLabel m.replyMarkup data := by
        rw [hcb, Option.getD_some]
      obtain ⟨s, hs⟩ := List.isPrefixOf_iff_prefix.mp hstarts
      have hprefixed : b.callbackData = clarifyPrefix ++ String.ofList s := by
        rw [hdata, ← String.toList_inj, String.toList_append, String.toList_ofList, hs]
      refine .inr ⟨cb, m, rfl, hm, rfl, .inr ⟨rows, data, hrows, hcb, htext, fun hshown => ?_⟩⟩
      rw [← hlabel, ← hdata]
      exact optionOf_of_shown h hshown hb hprefixed (hdata ▸ hcustom)

/-- What the press puts to the agent is the second option of the question before it. -/
theorem weekPress_provenance : ∃ w,
    Trace.run shopBot.server.step shopBot.server.start shopEvents = some w ∧
      OptionOf shopBot w 1 "cq:1" "неделя" := by
  obtain ⟨w, hrun, hinputs, hlog⟩ := exists_shop_run
  have hmem : (2, ⟨.handle 1 "неделя" "", some ⟨"12 шт.", [], false⟩⟩) ∈ w.log := by
    rw [hlog]
    decide
  have hshown : ShownIn w.log 1 (clarifyKeyboard ["день", "неделя"] false) := by
    refine ⟨0, ⟨.telegram (.sendMessage 1 "За какой период?" (some .markdownV2)
      (some (clarifyKeyboard ["день", "неделя"] false))), some .ok⟩, ?_, rfl⟩
    rw [hlog]
    decide
  obtain ⟨u, event, hadmitted, -, -, hevent⟩ := question_provenance hrun hmem
  obtain ⟨r, hr, -, -, hbody⟩ := hadmitted.request
  rw [hinputs] at hr
  cases hr
  cases hbody
  cases hadmitted.event
  rcases hevent with ⟨m, hm, -⟩ |
    ⟨cb, m, hcb, hm, -, ⟨label, hlabel⟩ | ⟨rows, data, hrows, hdata, -, h⟩⟩
  · cases hm
  · have hnone : "неделя" ∉ questionTemplates.map Prod.snd := by decide +kernel
    exact absurd (List.mem_map_of_mem (f := Prod.snd) hlabel) hnone
  · cases hcb
    cases hm
    cases hrows
    cases hdata
    exact ⟨w, hrun, h hshown⟩

/-- What a call shows: text, its mode and the keyboard. -/
def Call.shown? : Call → Option (String × Option ParseMode × Option Markup)
  | .sendMessage _ text mode markup | .editText _ _ text mode markup => some (text, mode, markup)
  | .answerCallbackQuery _ _ | .dropReplyMarkup _ _ => none

end Chic.Bot
