import Chic.WebhookRuns

namespace Chic.Bot
open AppDb (UserId Preference)
open Effects Keyboards Telegram

/-- `_clarify_result`: fewer than two options are no choice. -/
def clarifyResult (question : String) (options : List String) (allowCustom : Bool) : Result :=
  let q := PyText.strip question
  let opts := (options.filter fun o => PyText.strip o ≠ "").map PyText.strip
  if opts.length < 2 then ⟨q, [], false⟩ else ⟨q, opts, allowCustom⟩

/-- What has been put to the agent: the user, the text and the image. -/
def asked (done : List (Done Effect Answer)) : List (UserId × String × String) :=
  done.filterMap fun
    | ⟨.handle userId text image, _⟩ => some (userId, text, image)
    | _ => none

section Labels
variable {options : List String} {custom : Bool} {k : ℕ} {option : String}

theorem mem_clarifyResult {question : String}
    (h : option ∈ (clarifyResult question options custom).options) : option ≠ "" := by
  unfold clarifyResult at h
  dsimp only at h
  split_ifs at h
  · cases h
  · obtain ⟨o, ho, rfl⟩ := List.mem_map.mp h
    exact of_decide_eq_true (List.mem_filter.mp ho).2

theorem toString_inj {m n : ℕ} (h : toString m = toString n) : m = n := by
  rw [Nat.toString_eq_ofList_toDigits, Nat.toString_eq_ofList_toDigits] at h
  have hchars := congrArg (fun s : String => Nat.ofDigitChars 10 s.toList 0) h
  simpa only [String.toList_ofList, Nat.ofDigitChars_ten_toDigits] using hchars

theorem clarifyData_inj {s s' : String} (h : clarifyPrefix ++ s = clarifyPrefix ++ s') : s = s' := by
  have hlists := congrArg String.toList h
  rw [String.toList_append, String.toList_append] at hlists
  exact String.toList_inj.mp (List.append_cancel_left hlists)

theorem clarifyData_ne_custom (k : ℕ) : clarifyPrefix ++ toString k ≠ clarifyCustom := by
  intro h
  have hcustom : clarifyCustom = clarifyPrefix ++ "custom" := by decide
  have hchars := congrArg String.toList (clarifyData_inj (h.trans hcustom))
  rw [Nat.toString_eq_ofList_toDigits, String.toList_ofList] at hchars
  have hdigit : 'c'.isDigit = true := Nat.isDigit_of_mem_toDigits (by decide) (by decide)
    (show 'c' ∈ Nat.toDigits 10 k by rw [hchars]; decide)
  cases hdigit

/-- The label of a pressed option is the option at its place. -/
theorem buttonLabel_clarify (h : options[k]? = some option) :
    buttonLabel (some (clarifyKeyboard options custom)) (clarifyPrefix ++ toString k) = option := by
  have hmem : (⟨option, clarifyPrefix ++ toString k⟩ : Button) ∈
      (clarifyKeyboard options custom).flatten := by
    have hrow : [(⟨option, clarifyPrefix ++ toString k⟩ : Button)] ∈
        options.mapIdx fun i opt => [(⟨opt, clarifyPrefix ++ toString i⟩ : Button)] := by
      obtain ⟨hk, rfl⟩ := List.getElem?_eq_some_iff.mp h
      exact List.mem_mapIdx.mpr ⟨k, hk, rfl⟩
    rw [clarifyKeyboard]
    refine List.mem_flatten.mpr ⟨_, ?_, List.mem_singleton_self _⟩
    split_ifs
    · exact List.mem_append_left _ hrow
    · exact hrow
  rw [buttonLabel_some]
  cases hfind : (clarifyKeyboard options custom).flatten.find?
      (·.callbackData = clarifyPrefix ++ toString k) with
  | none =>
    have hnone := List.find?_eq_none.mp hfind _ hmem
    exact absurd (decide_eq_true rfl) hnone
  | some b =>
    have hdecide := List.find?_some hfind
    have hdata : b.callbackData = clarifyPrefix ++ toString k := of_decide_eq_true hdecide
    rcases mem_clarifyKeyboard (List.mem_of_find?_eq_some hfind) with ⟨j, hj, hdata'⟩ | hcustom
    · have hkj : k = j := toString_inj (clarifyData_inj (hdata.symm.trans hdata'))
      subst hkj
      exact Option.some.inj (hj.symm.trans h)
    · exact absurd (hdata.symm.trans hcustom) (clarifyData_ne_custom k)

end Labels

/-- A world in which Telegram accepts what it is sent and the tracer works. The agent may fail. -/
structure Serves (world : List (Done Effect Answer) → (e : Effect) → Option (Answer e)) : Prop where
  telegram : ∀ past c, world past (.telegram c) = some .ok
  sessionKey : ∀ past userId, (world past (.sessionKey userId)).isSome
  startSpan : ∀ past value sessionId userId hasImage,
    (world past (.startSpan value sessionId userId hasImage)).isSome

namespace ChicBot
variable {bot : ChicBot} {world : List (Done Effect Answer) → (e : Effect) → Option (Answer e)}
  {past : List (Done Effect Answer)} {userId : UserId} {chatId : ℤ} {text image : String}
  {c : Call}

def Silent (e : Effect) : Prop := ∀ userId text image, e ≠ .handle userId text image

theorem silent_telegram (c : Call) : Silent (.telegram c) := by
  intro userId text image h
  cases h

theorem asked_concat {d : Done Effect Answer} (h : Silent d.1) : asked (past ++ [d]) = asked past := by
  obtain ⟨e, r⟩ := d
  rw [asked, List.filterMap_append, ← asked]
  cases e with
  | handle userId text image => exact absurd rfl (h userId text image)
  | _ => exact List.append_nil _

theorem asked_exec {α : Type} {m : Task α} {Q : List (Done Effect Answer) → Option α → Prop}
    (h : m.Only (fun _ => Silent) Q past) : asked (m.exec world past).1 = asked past := by
  induction m generalizing past with
  | ret a => rfl
  | raised => rfl
  | act e next ih => exact (ih _ (h.2 _)).trans (asked_concat h.1)

theorem silent_suppressed : (suppressed c).Only (fun _ => Silent) (fun _ _ => True) past :=
  Prog.only_bind.mpr (Prog.only_call.mpr ⟨silent_telegram _, fun r => by cases r <;> trivial⟩)

theorem silent_checked : (checked c).Only (fun _ => Silent) (fun _ _ => True) past :=
  Prog.only_bind.mpr (Prog.only_call.mpr ⟨silent_telegram _, fun r => by rcases r with - | - | - <;> trivial⟩)

theorem silent_sendChunks {markup : Option Markup} :
    (bot.sendChunks chatId text markup).Only (fun _ => Silent) (fun _ _ => True) past := by
  refine Prog.only_forM (I := fun _ => True) _ trivial fun x _ past _ => ?_
  dsimp only
  rw [sendChunk]
  cases bot.toMarkdownV2 x.1 with
  | none => trivial
  | some rendered =>
    refine Prog.only_bind.mpr (Prog.only_call.mpr ⟨silent_telegram _, fun r => ?_⟩)
    rcases r with - | - | -
    · trivial
    · trivial
    · exact silent_suppressed

theorem silent_deliver {result : Result} {spanId : String} :
    (bot.deliver chatId result spanId).Only (fun _ => Silent) (fun _ _ => True) past := by
  rw [deliver]
  split_ifs
  · exact silent_sendChunks
  · trivial
  · exact silent_sendChunks

theorem exec_checked (hworld : Serves world) :
    (checked c).exec world past = (past ++ [⟨.telegram c, some .ok⟩], some ()) := by
  rw [checked, Prog.exec_bind, Prog.exec_call, hworld.telegram]
  rfl

theorem exec_suppressed (hworld : Serves world) :
    (suppressed c).exec world past = (past ++ [⟨.telegram c, some .ok⟩], some ()) := by
  rw [suppressed, Prog.exec_bind, Prog.exec_call, hworld.telegram]
  rfl

theorem exec_openSpan (hworld : Serves world) :
    ∃ past' spanId, (bot.openSpan userId text image).exec world past = (past', some spanId) ∧
      asked past' = asked past := by
  rw [openSpan]
  by_cases htraced : bot.traced
  · rw [if_pos htraced, Prog.exec_bind, Prog.exec_call]
    obtain ⟨sessionId, hsession⟩ := Option.isSome_iff_exists.mp (hworld.sessionKey past userId)
    rw [hsession]
    dsimp only
    rw [Prog.exec_call]
    obtain ⟨spanId, hspan⟩ := Option.isSome_iff_exists.mp (hworld.startSpan
      (past ++ [⟨.sessionKey userId, some sessionId⟩]) _ sessionId userId (image ≠ ""))
    rw [hspan]
    refine ⟨_, spanId, rfl, (asked_concat ?_).trans (asked_concat ?_)⟩
    · intro userId text image h
      cases h
    · intro userId text image h
      cases h
  · rw [if_neg htraced]
    exact ⟨past, "", rfl, rfl⟩

theorem asked_runAndDeliver (hworld : Serves world) :
    asked ((bot.runAndDeliver userId chatId text image).exec world past).1 =
      asked past ++ [(userId, text, image)] := by
  obtain ⟨past', spanId, hopen, hasked⟩ : ∃ past' spanId,
      (bot.openSpan userId text image).exec world past = (past', some spanId) ∧
        asked past' = asked past := exec_openSpan hworld
  rw [runAndDeliver, Prog.exec_bind, hopen]
  dsimp only
  rw [Prog.exec_bind, Prog.exec_attempt, Prog.exec_call]
  dsimp only
  rw [← hasked]
  have hturn : asked (past' ++ [⟨.handle userId text image, world past' (.handle userId text image)⟩]) =
      asked past' ++ [(userId, text, image)] := by
    rw [asked, List.filterMap_append, ← asked]
    rfl
  rw [← hturn]
  cases world past' (.handle userId text image) with
  | none => exact asked_exec silent_checked
  | some result => exact asked_exec silent_deliver

section Routing
variable {cb : CallbackQuery} {m : Message} {pre pre' s : String}

theorem startsWith_self (h : cb.data = some (pre ++ s)) : startsWith cb pre = true := by
  rw [startsWith, h, Option.any_some, String.toList_append]
  exact List.isPrefixOf_iff_prefix.mpr (List.prefix_append _ _)

theorem not_startsWith (h : cb.data = some (pre ++ s)) (hpre : ¬ pre.toList <+: pre'.toList)
    (hpre' : ¬ pre'.toList <+: pre.toList) : ¬ startsWith cb pre' = true := by
  rw [startsWith, h, Option.any_some, String.toList_append]
  intro hstarts
  exact (List.prefix_or_prefix_of_prefix (List.prefix_append _ _)
    (List.isPrefixOf_iff_prefix.mp hstarts)).elim hpre hpre'

theorem dispatch_quick (hallowed : cb.fromUser ∈ bot.allowed) (h : cb.data = some (quickPrefix ++ s)) :
    bot.dispatch (.callbackQuery cb) = some (bot.cbQuick cb) := by
  rw [dispatch, handler, if_neg (not_startsWith h (by decide) (by decide)),
    if_pos (startsWith_self h), Option.map_some, allowlist]
  exact congrArg some (if_pos hallowed)

theorem dispatch_clarify (hallowed : cb.fromUser ∈ bot.allowed)
    (h : cb.data = some (clarifyPrefix ++ s)) :
    bot.dispatch (.callbackQuery cb) = some (bot.cbClarify cb) := by
  rw [dispatch, handler, if_neg (not_startsWith h (by decide) (by decide)),
    if_neg (not_startsWith h (by decide) (by decide)), if_pos (startsWith_self h), Option.map_some,
    allowlist]
  exact congrArg some (if_pos hallowed)

theorem asked_cbQuick (hworld : Serves world) (hm : cb.message = .message m) {question : String}
    (hquestion : templateByCallback (cb.data.getD "") = some question) :
    asked ((bot.cbQuick cb).exec world []).1 = [(cb.fromUser, question, "")] := by
  rw [cbQuick, Prog.exec_bind, exec_checked hworld, hquestion, hm]
  dsimp only
  rw [Prog.exec_bind, exec_checked hworld]
  exact asked_runAndDeliver hworld

theorem asked_cbClarify (hworld : Serves world) (hm : cb.message = .message m)
    (hcustom : cb.data.getD "" ≠ clarifyCustom)
    (hlabel : buttonLabel m.replyMarkup (cb.data.getD "") ≠ "") :
    asked ((bot.cbClarify cb).exec world []).1 =
      [(cb.fromUser, buttonLabel m.replyMarkup (cb.data.getD ""), "")] := by
  rw [cbClarify, Prog.exec_bind, exec_checked hworld, hm]
  dsimp only
  rw [if_neg hcustom, if_neg hlabel, Prog.exec_bind, markAnswered, exec_suppressed hworld]
  exact asked_runAndDeliver hworld

end Routing

end ChicBot

open ChicBot

/-- What the agent has asked back comes back to it: in a world that serves, the press of an option puts
this option to the agent, and the press of a menu button its question, once and for the user who has
pressed. -/
theorem press_asks {bot : ChicBot} {cb : CallbackQuery} {m : Message}
    {world : List (Done Effect Answer) → (e : Effect) → Option (Answer e)} (hworld : Serves world)
    (hallowed : cb.fromUser ∈ bot.allowed) (hm : cb.message = .message m) :
    (∀ (i : ℕ) (t : String × String), questionTemplates[i]? = some t →
      cb.data = some (quickPrefix ++ toString i) →
      ∃ task, bot.dispatch (.callbackQuery cb) = some task ∧
        asked (task.exec world []).1 = [(cb.fromUser, t.2, "")]) ∧
    ∀ (question : String) (options : List String) (custom : Bool) (k : ℕ) (option : String),
      (clarifyResult question options custom).options[k]? = some option →
      m.replyMarkup = some (clarifyKeyboard (clarifyResult question options custom).options
        (clarifyResult question options custom).allowCustom) →
      cb.data = some (clarifyPrefix ++ toString k) →
      ∃ task, bot.dispatch (.callbackQuery cb) = some task ∧
        asked (task.exec world []).1 = [(cb.fromUser, option, "")] := by
  constructor
  · intro i t ht hdata
    refine ⟨_, dispatch_quick hallowed hdata, asked_cbQuick hworld hm ?_⟩
    rw [hdata, Option.getD_some, templateByCallback_position ht]
  · intro question options custom k option hoption hmarkup hdata
    have hlabel : buttonLabel m.replyMarkup (cb.data.getD "") = option := by
      rw [hmarkup, hdata, Option.getD_some, buttonLabel_clarify hoption]
    have hne : option ≠ "" := mem_clarifyResult (List.mem_of_getElem? hoption)
    have hcustom : cb.data.getD "" ≠ clarifyCustom := by
      rw [hdata, Option.getD_some]
      exact clarifyData_ne_custom k
    have hasked : asked ((bot.cbClarify cb).exec world []).1 = _ :=
      asked_cbClarify hworld hm hcustom (hlabel.symm ▸ hne)
    rw [hlabel] at hasked
    exact ⟨_, dispatch_clarify hallowed hdata, hasked⟩

def calmWorld (_ : List (Done Effect Answer)) : (e : Effect) → Option (Answer e)
  | .telegram _ => some .ok
  | .getFile _ => some ⟨none, none⟩
  | .downloadFile _ => some []
  | .preferences _ => some []
  | .handle _ _ _ => some ⟨"12 шт.", [], false⟩
  | .sessionKey _ | .startSpan _ _ _ _ => some "1:0"
  | .reset _ | .forgetPreference _ _ | .onFeedback _ _ _ _ => some ()

/-- The second of two options, between blanks in what the model has written. -/
theorem weekPress_asks : ∃ task, shopBot.dispatch (.callbackQuery weekPress) = some task ∧
    asked (task.exec calmWorld []).1 = [(1, "неделя", "")] := by
  have hworld : Serves calmWorld := ⟨fun _ _ => rfl, fun _ _ => rfl, fun _ _ _ _ _ => rfl⟩
  exact (press_asks hworld (by decide) rfl).2 "За какой период? " ["день", " неделя ", " "] false 1
    "неделя" (by decide) (by decide) rfl

end Chic.Bot
