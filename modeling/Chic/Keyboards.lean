import Mathlib.Data.List.Basic
import Chic.AppDb
import Chic.PyText

namespace Chic.Keyboards
open AppDb

def quickPrefix : String := "ask:"
def memForgetPrefix : String := "mf:"
def clarifyPrefix : String := "cq:"
def clarifyCustom : String := "cq:custom"
def feedbackPrefix : String := "fb:"
def feedbackLike : String := "fb:l:"
def feedbackDislike : String := "fb:d:"

def ratingLike : String := "like"
def ratingDislike : String := "dislike"

def msgMenuPrompt : String := "Выберите готовый вопрос или напишите свой:"

def msgMemoryEmpty : String :=
  "🧠 Пока я не запомнил никаких ваших предпочтений.\n\n" ++
    "Когда вы зададите устойчивое пожелание (язык общения, формат ответов, " ++
    "основной склад…), я сохраню его и покажу здесь."

def msgMemoryHeader : String :=
  "🧠 <b>Что я о вас помню</b>\n\nНажмите 🗑, чтобы удалить пункт."

def msgAskCustom : String := "Напишите свой вариант ответом 👇"
def msgFeedbackThanks : String := "Спасибо за оценку 🙏"

/-- The label of a button and the question that is asked when it is tapped. -/
def questionTemplates : List (String × String) :=
  [("💰 Прибыль за неделю",
      "Прибыльность за последние 7 дней. Возьми итоги (totals) за весь " ++
        "период и покажи оборот (сумму продаж), себестоимость, выручку, " ++
        "прибыль и маржу в %. Ниже — 3-5 самых прибыльных товаров."),
    ("📈 Итоги месяца",
      "Сводка за текущий месяц: сумма продаж, количество заказов, деньги " ++
        "(приход, расход, остаток) и насколько каждый показатель изменился " ++
        "к прошлому месяцу. Кратко, главными цифрами."),
    ("📉 Месяц vs прошлый",
      "Сравни этот месяц с прошлым по выручке и прибыли: итоги за оба " ++
        "периода, разницу в деньгах и в %, и топ товаров — драйверов роста " ++
        "и падения."),
    ("💵 Деньги за сегодня",
      "Движение денег за сегодня: сколько поступило, сколько ушло и чистый " ++
        "итог. Если есть разбивка по счетам или кассам — покажи главное."),
    ("📊 Заявки за сегодня",
      "Заявки (заказы покупателей) за сегодня. Сколько заказов оформлено " ++
        "и на какую сумму — дай итоги за сегодня; если заказов немного, " ++
        "перечисли их коротко."),
    ("🛍 Продажи за неделю",
      "Продажи (отгрузки) за последние 7 дней: сумма и количество за " ++
        "период и динамика по дням. Дай итог и короткий вывод по тренду."),
    ("💎 Деньги в товаре",
      "Сколько денег заморожено в товаре: суммарная стоимость остатков по " ++
        "себестоимости, сколько всего позиций и единиц. Если можно — " ++
        "разбивка по складам."),
    ("🔄 Оборачиваемость",
      "Оборачиваемость товара за последний месяц: что продаётся быстро, " ++
        "а что залёживается (дни оборота). Покажи 5 самых оборачиваемых " ++
        "и 5 самых медленных.")]

structure Button where
  text : String
  callbackData : String
  deriving DecidableEq

abbrev Markup := List (List Button)

/-- `html.escape`. -/
def escape (s : String) : String :=
  String.ofList (s.toList.flatMap fun c =>
    if c = '&' then "&amp;".toList
    else if c = '<' then "&lt;".toList
    else if c = '>' then "&gt;".toList
    else if c = '"' then "&quot;".toList
    else if c = '\'' then "&#x27;".toList
    else [c])

/-- The button of a preference carries only its position. -/
def forgetButton (i : ℕ) (key : String) : Button := ⟨"🗑 " ++ key, memForgetPrefix ++ toString i⟩

def renderMemory (items : List Preference) : String × Option (List (List Button)) :=
  if items = [] then (msgMemoryEmpty, none)
  else
    let lines := items.map fun p => "• <b>" ++ escape p.key ++ "</b>: " ++ escape p.value
    (String.intercalate "\n" ([msgMemoryHeader, ""] ++ lines),
      some (items.mapIdx fun i p => [forgetButton i p.key]))

def indexFromCallback (data pre : String) : Option ℕ :=
  if pre.toList.isPrefixOf data.toList then
    (PyText.int? (String.ofList (data.toList.drop pre.length))).bind fun idx =>
      if 0 ≤ idx then some idx.toNat else none
  else none

/-- Two buttons a row. -/
def menuKeyboard : Markup :=
  let buttons := questionTemplates.mapIdx fun i t => (⟨t.1, quickPrefix ++ toString i⟩ : Button)
  (List.range' 0 ((buttons.length + 1) / 2) 2).map fun i => (buttons.drop i).take 2

def templateByCallback (data : String) : Option String :=
  (indexFromCallback data quickPrefix).bind fun idx => questionTemplates[idx]?.map Prod.snd

def clarifyKeyboard (options : List String) (allowCustom : Bool) : Markup :=
  let rows := options.mapIdx fun i opt => [(⟨opt, clarifyPrefix ++ toString i⟩ : Button)]
  if allowCustom then rows ++ [[⟨"✏️ Свой вариант", clarifyCustom⟩]] else rows

def feedbackKeyboard (spanId : String) : Option Markup :=
  if spanId = "" then none
  else some [[⟨"👍", feedbackLike ++ spanId⟩, ⟨"👎", feedbackDislike ++ spanId⟩]]

/-- The rating and the span id; `none` when it is not a feedback press or has no span id. -/
def parseFeedback (data : String) : Option (String × String) :=
  let parsed (rating pre : String) : Option (String × String) :=
    let span := String.ofList (data.toList.drop pre.length)
    if span = "" then none else some (rating, span)
  if feedbackLike.toList.isPrefixOf data.toList then parsed ratingLike feedbackLike
  else if feedbackDislike.toList.isPrefixOf data.toList then parsed ratingDislike feedbackDislike
  else none

/-- The text of the first button with the data, empty when there is none. -/
def buttonLabel (markup : Option Markup) (data : String) : String :=
  match markup with
  | none => ""
  | some rows => ((rows.flatten.find? (·.callbackData = data)).map (·.text)).getD ""

def memoryButton? (items : List Preference) (i : ℕ) : Option Button :=
  ((renderMemory items).2.bind (·[i]?)).bind (·.head?)

/-- A row of the keyboard has the key at its position as text and the position as data. -/
theorem memoryButton?_eq (items : List Preference) (i : ℕ) :
    memoryButton? items i = items[i]?.map fun p => forgetButton i p.key := by
  unfold memoryButton? renderMemory
  split_ifs with h
  · simp [h]
  · simp only [Option.bind_some, List.getElem?_mapIdx]
    cases items[i]? <;> rfl

theorem indexFromCallback_forgetButton {i : ℕ} (h : i < 10 ^ 64) (key : String) :
    indexFromCallback (forgetButton i key).callbackData memForgetPrefix = some i := by
  have hdata : (forgetButton i key).callbackData.toList =
      memForgetPrefix.toList ++ (toString i).toList := String.toList_append
  have hdrop : String.ofList ((forgetButton i key).callbackData.toList.drop
      memForgetPrefix.length) = toString i := by
    rw [hdata, ← String.length_toList, List.drop_left, String.ofList_toList]
  rw [indexFromCallback, hdrop, hdata, if_pos (by simp [List.isPrefixOf_iff_prefix]),
    PyText.int?_toString h]
  simp

theorem indexFromCallback_position (pre : String) {i : ℕ} (h : i < 10 ^ 64) :
    indexFromCallback (pre ++ toString i) pre = some i := by
  have hdrop : String.ofList ((pre ++ toString i).toList.drop pre.length) = toString i := by
    rw [String.toList_append, ← String.length_toList, List.drop_left, String.ofList_toList]
  rw [indexFromCallback, hdrop, String.toList_append,
    if_pos (List.isPrefixOf_iff_prefix.mpr (List.prefix_append _ _)), PyText.int?_toString h]
  simp

theorem templateByCallback_position {i : ℕ} {t : String × String}
    (h : questionTemplates[i]? = some t) :
    templateByCallback (quickPrefix ++ toString i) = some t.2 := by
  have hi : i < questionTemplates.length := (List.getElem?_eq_some_iff.mp h).1
  have hsmall : i < 10 ^ 64 := hi.trans (by decide)
  rw [templateByCallback, indexFromCallback_position quickPrefix hsmall, Option.bind_some, h]
  rfl

theorem mem_questionTemplates {data question : String} (h : templateByCallback data = some question) :
    ∃ label, (label, question) ∈ questionTemplates := by
  obtain ⟨idx, -, h⟩ := Option.bind_eq_some_iff.mp h
  obtain ⟨⟨label, _⟩, hget, rfl⟩ := Option.map_eq_some_iff.mp h
  exact ⟨label, List.mem_of_getElem? hget⟩

theorem buttonLabel_some (rows : Markup) (data : String) :
    buttonLabel (some rows) data =
      ((rows.flatten.find? (·.callbackData = data)).map (·.text)).getD "" := rfl

theorem exists_button_of_label {markup : Option Markup} {data : String}
    (h : buttonLabel markup data ≠ "") :
    ∃ rows b, markup = some rows ∧ b ∈ rows.flatten ∧ b.callbackData = data ∧
      b.text = buttonLabel markup data := by
  cases markup with
  | none => exact absurd rfl h
  | some rows =>
    rw [buttonLabel_some] at h ⊢
    cases hfind : rows.flatten.find? (·.callbackData = data) with
    | none =>
      rw [hfind] at h
      exact absurd rfl h
    | some b =>
      have hdata := List.find?_some hfind
      exact ⟨rows, b, rfl, List.mem_of_find?_eq_some hfind, of_decide_eq_true hdata, rfl⟩

section Buttons
variable {b : Button}

def Prefixed (pre : String) (b : Button) : Prop := ∃ s, b.callbackData = pre ++ s

theorem mem_menuKeyboard (h : b ∈ menuKeyboard.flatten) : Prefixed quickPrefix b := by
  have hbuttons : menuKeyboard.flatten =
      questionTemplates.mapIdx fun i t => (⟨t.1, quickPrefix ++ toString i⟩ : Button) := rfl
  rw [hbuttons, List.mem_mapIdx] at h
  obtain ⟨i, _, rfl⟩ := h
  exact ⟨toString i, rfl⟩

theorem mem_renderMemory {items : List Preference} {rows : Markup}
    (hrows : (renderMemory items).2 = some rows) (h : b ∈ rows.flatten) :
    Prefixed memForgetPrefix b := by
  unfold renderMemory at hrows
  split_ifs at hrows
  cases hrows
  obtain ⟨row, hrow, hb⟩ := List.mem_flatten.mp h
  obtain ⟨i, _, rfl⟩ := List.mem_mapIdx.mp hrow
  cases List.mem_singleton.mp hb
  exact ⟨toString i, rfl⟩

theorem mem_feedbackKeyboard {spanId : String} {rows : Markup}
    (hrows : feedbackKeyboard spanId = some rows) (h : b ∈ rows.flatten) :
    Prefixed feedbackPrefix b := by
  unfold feedbackKeyboard at hrows
  split_ifs at hrows
  cases hrows
  have hlike : feedbackLike = feedbackPrefix ++ "l:" := by decide
  have hdislike : feedbackDislike = feedbackPrefix ++ "d:" := by decide
  simp only [List.flatten_cons, List.flatten_nil, List.append_nil, List.mem_cons, List.not_mem_nil,
    or_false] at h
  rcases h with rfl | rfl
  · exact ⟨"l:" ++ spanId, by rw [hlike, String.append_assoc]⟩
  · exact ⟨"d:" ++ spanId, by rw [hdislike, String.append_assoc]⟩

theorem mem_clarifyKeyboard {options : List String} {custom : Bool}
    (h : b ∈ (clarifyKeyboard options custom).flatten) :
    (∃ k : ℕ, options[k]? = some b.text ∧ b.callbackData = clarifyPrefix ++ toString k) ∨
      b.callbackData = clarifyCustom := by
  obtain ⟨row, hrow, hb⟩ := List.mem_flatten.mp h
  have hoption : row ∈ options.mapIdx
      (fun i opt => [(⟨opt, clarifyPrefix ++ toString i⟩ : Button)]) →
      ∃ k : ℕ, options[k]? = some b.text ∧ b.callbackData = clarifyPrefix ++ toString k := by
    intro hrow
    obtain ⟨k, hk, rfl⟩ := List.mem_mapIdx.mp hrow
    cases List.mem_singleton.mp hb
    exact ⟨k, List.getElem?_eq_getElem hk, rfl⟩
  unfold clarifyKeyboard at hrow
  cases custom with
  | false => exact .inl (hoption hrow)
  | true =>
    rcases List.mem_append.mp hrow with hrow | hrow
    · exact .inl (hoption hrow)
    · cases List.mem_singleton.mp hrow
      cases List.mem_singleton.mp hb
      exact .inr rfl

/-- Data with the prefix of another kind of button is not its data. -/
theorem Prefixed.ne {pre pre' : String} (h : Prefixed pre b) (hpre : ¬ pre.toList <+: pre'.toList)
    (hpre' : ¬ pre'.toList <+: pre.toList) (s : String) : b.callbackData ≠ pre' ++ s := by
  obtain ⟨s', hs'⟩ := h
  intro heq
  have hlists : pre.toList ++ s'.toList = pre'.toList ++ s.toList := by
    rw [← String.toList_append, ← String.toList_append, ← hs', heq]
  exact (List.prefix_or_prefix_of_prefix ⟨_, hlists⟩ ⟨_, rfl⟩).elim hpre hpre'

end Buttons

end Chic.Keyboards
