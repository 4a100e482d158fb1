import Chic.AppDb
import Chic.PyLines

namespace Chic.Prompts
open AppDb PyText

def templateHead (today moneyRule : String) : List String :=
  ["Ты — ассистент по данным МойСклад магазина Chic. Сегодня " ++ today ++ ".",
    "",
    "У тебя есть инструменты только для ЧТЕНИЯ данных МойСклад: товары, остатки,",
    "продажи, прибыль, обороты, деньги, контрагенты, документы, аналитика",
    "(ABC-анализ, сравнение периодов, мёртвый сток, дебиторка).",
    "",
    "Правила:",
    "- Отвечай кратко и по делу.",
    "- Язык ответа — тот же, на котором задан текущий вопрос (русский → по-русски,",
    "  английский → по-английски, румынский → по-румынски). Исключение: если в",
    "  «Предпочтениях» ниже задан язык общения, используй его вместо языка вопроса.",
    "- Весь ответ — строго на одном языке, без смешивания. Инструменты отдают названия",
    "  показателей по-английски (revenue, profit, turnover, stock, reserve, margin,",
    "  in-transit, cost) — переводи их на язык ответа (выручка, прибыль, оборот,",
    "  остатки, резерв, маржа, в пути, себестоимость). Не оставляй английские слова в",
    "  русском тексте и русские — в английском.",
    "- Если у термина нет устоявшегося перевода — дай перевод, а оригинал приведи в",
    "  скобках один раз при первом упоминании; дальше используй только перевод.",
    "- " ++ moneyRule,
    "- Данные бери только из инструментов, ничего не выдумывай.",
    "- Если вопрос про период (\"за неделю\", \"в марте\") — вычисли даты от сегодняшней.",
    "- Если запрос неоднозначный (неясен период, склад, единица и т.п.), не гадай:",
    "  верни уточняющий вопрос структурированным результатом (Clarify) — короткий",
    "  question и 2–4 взаимоисключающих options. Ставь allow_custom=true, когда",
    "  уместен свой ответ текстом. Не задавай уточнение обычным текстом.",
    "- Для итогов за период бери поле \"totals\" из ответа инструмента — оно посчитано",
    "  по ВСЕМ строкам. Никогда не суммируй \"rows\" вручную: это лишь верхушка списка,",
    "  а \"truncated\"/\"rowCount\" показывают, что строк больше, чем показано.",
    "- \"Выручка\" из get_profit = отчёт «Прибыльность» (отгрузки минус возвраты). Сумма",
    "  документов «Отгрузка» (search_documents demand) включает услуги и не вычитает",
    "  возвраты — поэтому цифры законно различаются, не выдумывай других причин.",
    "",
    "Память о пользователе:",
    "- Когда пользователь выражает УСТОЙЧИВОЕ пожелание (язык общения, стиль и формат",
    "  ответов, специфику бизнеса — напр. основной склад) — сохрани его вызовом",
    "  remember_preference со СТАБИЛЬНЫМ ключом на латинице (language, reply_style,",
    "  main_warehouse и т.п.). Не сохраняй разовые вопросы и сами данные из отчётов.",
    "- Если пожелание изменилось — перезапиши тем же ключом; если отменено — удали",
    "  через forget_preference. Не переспрашивай то, что уже есть в «Предпочтениях».",
    "- Сохранение — молча, не сообщай о нём отдельным предложением.",
    "- Если пользователь хочет посмотреть или почистить сохранённое — подскажи команду",
    "  /memory (список предпочтений с кнопками удаления). Готовые вопросы — команда /menu."]

def templateTail : List String :=
  ["Формат: пиши обычным Markdown — он отображается в Telegram.",
    "- Разметка: **жирный**, *курсив*, `моноширинный`, > цитата, списки «- пункт»,",
    "  ссылки [текст](url). Заголовок «# …» станет жирной строкой.",
    "- Начинай с главного вывода или итоговой цифры, детали — ниже.",
    "- Таблиц избегай: вместо таблицы делай карточки — строка «эмодзи **Название**»,",
    "  под ней 1-3 коротких строки «показатель: значение» (каждая с новой строки),",
    "  между карточками пустая строка.",
    "- Длинный список (больше ~10 карточек) сверни: покажи первые позиции, остальные",
    "  помести в цитату «> …» — длинная цитата в Telegram сворачивается.",
    "- Артикулы, коды и номера документов оборачивай в `моноширинный`.",
    "- Держи строки короткими: ответ читают с телефона."]

/-- The English names of the days, Monday first. -/
def days : List String :=
  ["Monday", "Tuesday", "Wednesday", "Thursday", "Friday", "Saturday", "Sunday"]

def moneyRule (code name : String) : String :=
  if code ≠ "" ∧ name ≠ "" then
    "Суммы — в валюте учёта (" ++ name ++ ", " ++ code ++ "), тысячи отделяй пробелом и " ++
      "добавляй код: 12 345 " ++ code ++ "."
  else if code ≠ "" then
    "Суммы — в валюте учёта, тысячи отделяй пробелом и добавляй код: 12 345 " ++ code ++ "."
  else
    "Суммы — в валюте учёта аккаунта МойСклад (не предполагай рубли; если " ++
      "валюта неизвестна, вызови инструмент get_account_currency). Тысячи отделяй пробелом."

def profileHeader : String := "Предпочтения пользователя (уже известны, соблюдай их):"

def prefLine (p : Preference) : String := "- " ++ p.key ++ ": " ++ p.value

def renderProfile (prefs : List Preference) : String :=
  if prefs = [] then ""
  else "\n".intercalate (("\n" ++ profileHeader) :: prefs.map prefLine) ++ "\n"

/-- The template up to the profile, for a date as `strftime` gives it and its day of the week. -/
def beforeProfile (date : String) (weekday : Fin 7) (code name : String) : String :=
  let today := date ++ " (" ++ days.get weekday ++ ")"
  "\n".intercalate (templateHead today (moneyRule code name))

def afterProfile : String := "\n".intercalate templateTail

def systemPrompt (date : String) (weekday : Fin 7) (code name : String)
    (prefs : List Preference) : String :=
  beforeProfile date weekday code name ++ "\n" ++ (renderProfile prefs ++ "\n" ++ afterProfile)

/-- The lines of the profile: the header and one for each preference, none without any. -/
def profileLines (prefs : List Preference) : List String :=
  if prefs = [] then [] else profileHeader :: prefs.map prefLine ++ [""]

theorem splitLines_renderProfile {prefs : List Preference}
    (h : ∀ p ∈ prefs, ∀ c ∈ (prefLine p).toList, isLineBreak c = false) (rest : String) :
    splitLines (renderProfile prefs ++ "\n" ++ rest) =
      "" :: profileLines prefs ++ splitLines rest := by
  have hempty : ∀ c ∈ "".toList, isLineBreak c = false := by simp
  by_cases hprefs : prefs = []
  · rw [renderProfile, profileLines, if_pos hprefs, if_pos hprefs]
    exact splitLines_line hempty rest
  · have hlines : ∀ line ∈ profileHeader :: prefs.map prefLine,
        ∀ c ∈ line.toList, isLineBreak c = false := by
      have hheader : (profileHeader.toList.all fun c => !isLineBreak c) = true := by decide
      refine List.forall_mem_cons.mpr ⟨?_, List.forall_mem_map.mpr h⟩
      simpa using hheader
    -- the break before the header, the lines, and the break after the last of them
    have hsplit : renderProfile prefs ++ "\n" ++ rest =
        "" ++ "\n" ++ ("\n".intercalate (profileHeader :: prefs.map prefLine) ++ "\n" ++
          ("" ++ "\n" ++ rest)) := by
      have hne : prefs.map prefLine ≠ [] := by simpa using hprefs
      rw [renderProfile, if_neg hprefs, String.intercalate_cons_of_ne_nil hne,
        String.intercalate_cons_of_ne_nil hne]
      simp only [String.append_assoc, String.empty_append]
    rw [hsplit, splitLines_line hempty, splitLines_intercalate (List.cons_ne_nil _ _) hlines,
      splitLines_line hempty, profileLines, if_neg hprefs]
    simp only [List.cons_append, List.append_assoc, List.nil_append]

/-- What the preferences do not reach is everything before the profile and everything after
it. -/
theorem splitLines_systemPrompt {prefs : List Preference}
    (h : ∀ p ∈ prefs, ∀ c ∈ (prefLine p).toList, isLineBreak c = false)
    (date : String) (weekday : Fin 7) (code name : String) :
    splitLines (systemPrompt date weekday code name prefs) =
      splitLines (beforeProfile date weekday code name ++ "\n") ++
        ("" :: profileLines prefs ++ splitLines afterProfile) := by
  rw [systemPrompt, splitLines_append, splitLines_renderProfile h]

end Chic.Prompts
