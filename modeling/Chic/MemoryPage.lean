import Chic.Html
import Chic.WebhookRuns

namespace Chic.Bot
open AppDb (UserId Preference)
open Effects Keyboards Telegram
open ChicBot

/-- Keys in bold, each with the text up to the next: a colon and a space before the value, and a new
bullet after it if there is another key. -/
def pageEntries : List (List Char) → Option (List (String × String))
  | [] => some []
  | [_] => none
  | [key, after] => some [(String.ofList key, String.ofList (after.drop 2))]
  | key :: after :: rest =>
    (pageEntries rest).map
      ((String.ofList key, String.ofList ((after.drop 2).take (after.length - 5))) :: ·)

/-- The preferences that a `/memory` message shows, as it is read on the screen. -/
def readMemory (page : String) : Option (List (String × String)) :=
  match Html.read false page.toList with
  | some [_] => some []
  -- the title is bold and the first bullet ends the text after it
  | some (_ :: _ :: _ :: entries) => pageEntries entries
  | _ => none

def lineStretches : List Preference → List (List Char)
  | [] => []
  | [p] => [p.key.toList, ':' :: ' ' :: p.value.toList]
  | p :: q :: rest =>
    p.key.toList :: (':' :: ' ' :: (p.value.toList ++ ['\n', '•', ' '])) :: lineStretches (q :: rest)

theorem pageEntries_lines (prefs : List Preference) :
    pageEntries (lineStretches prefs) = some (prefs.map fun p => (p.key, p.value)) := by
  induction prefs with
  | nil => rfl
  | cons p prefs ih =>
    cases prefs with
    | nil => simp [lineStretches, pageEntries]
    | cons q rest =>
      obtain ⟨t, ts, hts⟩ : ∃ t ts, lineStretches (q :: rest) = t :: ts := by
        cases rest <;> exact ⟨_, _, rfl⟩
      rw [hts] at ih
      have hvalue : ((':' :: ' ' :: (p.value.toList ++ ['\n', '•', ' '])).drop 2).take
          ((':' :: ' ' :: (p.value.toList ++ ['\n', '•', ' '])).length - 5) = p.value.toList := by
        simp
      rw [lineStretches, hts, pageEntries, hvalue, ih]
      · simp
      · simp

theorem escape_eq (s : String) : (escape s).toList = Html.escape s.toList := by
  rw [escape, String.toList_ofList, Html.escape]
  congr 1
  funext c
  by_cases h₁ : c = '&'
  · subst h₁; rfl
  by_cases h₂ : c = '<'
  · subst h₂; rfl
  by_cases h₃ : c = '>'
  · subst h₃; rfl
  by_cases h₄ : c = '"'
  · subst h₄; rfl
  by_cases h₅ : c = '\''
  · subst h₅; rfl
  simp [Html.escapeChar, Html.references, h₁, h₂, h₃, h₄, h₅, Ne.symm h₁, Ne.symm h₂, Ne.symm h₃,
    Ne.symm h₄, Ne.symm h₅]

def memoryLine (p : Preference) : String := "• <b>" ++ escape p.key ++ "</b>: " ++ escape p.value

theorem read_memoryLine (p : Preference) (rest : List Char) :
    Html.read false ((memoryLine p).toList ++ rest) =
      (Html.read false rest).map fun l =>
        ['•', ' '] :: p.key.toList :: List.modifyHead (':' :: ' ' :: p.value.toList ++ ·) l := by
  have hsplit : (memoryLine p).toList ++ rest =
      ['•', ' '] ++ '<' :: (['b'] ++ '>' :: (Html.escape p.key.toList ++
        '<' :: (['/', 'b'] ++ '>' :: ([':', ' '] ++ (Html.escape p.value.toList ++ rest))))) := by
    rw [memoryLine]
    simp only [String.toList_append, escape_eq, List.append_assoc]
    rfl
  rw [hsplit, Html.read_chars (by decide), Html.read_tag (by decide) (by simp), Html.read_escape,
    Bool.not_false, Html.read_tag (by decide) (by simp), Bool.not_true, Html.read_chars (by decide),
    Html.read_escape]
  simp only [Option.map_map]
  congr 1
  funext l
  cases l <;> simp

theorem toList_intercalate_cons (s t : String) (l : List String) (hl : l ≠ []) :
    (s.intercalate (t :: l)).toList = t.toList ++ (s.toList ++ (s.intercalate l).toList) := by
  rw [String.intercalate_cons_of_ne_nil hl, String.toList_append, String.toList_append,
    List.append_assoc]

theorem read_lines {prefs : List Preference} (hne : prefs ≠ []) :
    Html.read false ("\n".intercalate (prefs.map memoryLine)).toList =
      some (['•', ' '] :: lineStretches prefs) := by
  induction prefs with
  | nil => exact absurd rfl hne
  | cons p prefs ih =>
    cases prefs with
    | nil =>
      have hread := read_memoryLine p []
      rw [List.append_nil, Html.read_nil] at hread
      rw [List.map_singleton, String.intercalate_singleton, hread]
      simp [lineStretches]
    | cons q rest =>
      rw [List.map_cons, toList_intercalate_cons _ _ _ (by simp), read_memoryLine,
        Html.read_chars (by decide), ih (List.cons_ne_nil q rest)]
      simp [lineStretches]

theorem renderMemory_of_ne {prefs : List Preference} (hne : prefs ≠ []) : (renderMemory prefs).1 =
    "\n".intercalate ([msgMemoryHeader, ""] ++ prefs.map memoryLine) := by
  have hline : memoryLine = fun p => "• <b>" ++ escape p.key ++ "</b>: " ++ escape p.value := rfl
  simp only [renderMemory, if_neg hne, hline]

/-- Whatever the preferences contain, the page shows just them, each key in bold with its value. -/
theorem readMemory_renderMemory (prefs : List Preference) :
    readMemory (renderMemory prefs).1 = some (prefs.map fun p => (p.key, p.value)) := by
  by_cases hne : prefs = []
  · rw [hne]
    decide +kernel
  · have hlines : prefs.map memoryLine ≠ [] := by simpa using hne
    have hhead : msgMemoryHeader.toList ++ ("\n".toList ++ ("".toList ++ "\n".toList)) =
        "🧠 ".toList ++ '<' :: (['b'] ++ '>' :: ("Что я о вас помню".toList ++
          '<' :: (['/', 'b'] ++ '>' :: "\n\nНажмите 🗑, чтобы удалить пункт.\n\n".toList))) := by
      decide +kernel
    have hpage : ("\n".intercalate ([msgMemoryHeader, ""] ++ prefs.map memoryLine)).toList =
        "🧠 ".toList ++ '<' :: (['b'] ++ '>' :: ("Что я о вас помню".toList ++
          '<' :: (['/', 'b'] ++ '>' :: ("\n\nНажмите 🗑, чтобы удалить пункт.\n\n".toList ++
            ("\n".intercalate (prefs.map memoryLine)).toList)))) := by
      have happend := congrArg (· ++ ("\n".intercalate (prefs.map memoryLine)).toList) hhead
      simp only [List.append_assoc, List.cons_append] at happend
      rw [List.cons_append, List.cons_append, List.nil_append,
        toList_intercalate_cons _ _ _ (List.cons_ne_nil _ _), toList_intercalate_cons _ _ _ hlines,
        happend]
      rfl
    have hread : Html.read false
        ("\n".intercalate ([msgMemoryHeader, ""] ++ prefs.map memoryLine)).toList =
          some ("🧠 ".toList :: "Что я о вас помню".toList ::
            ("\n\nНажмите 🗑, чтобы удалить пункт.\n\n".toList ++ ['•', ' ']) :: lineStretches prefs) := by
      rw [hpage, Html.read_chars (by decide +kernel), Html.read_tag (by decide) (by simp),
        Html.read_chars (by decide +kernel), Bool.not_false, Html.read_tag (by decide) (by simp),
        Bool.not_true, Html.read_chars (by decide +kernel), read_lines hne]
      simp only [Option.map_some, List.modifyHead_cons, List.append_nil]
    rw [renderMemory_of_ne hne, readMemory, hread]
    exact pageEntries_lines prefs

theorem length_buttons (prefs : List Preference) :
    ((renderMemory prefs).2.getD []).flatten.length = prefs.length := by
  rw [renderMemory]
  split_ifs with hempty
  · rw [hempty]
    rfl
  · have hone : ∀ n ∈ (prefs.mapIdx fun i p => [forgetButton i p.key]).map List.length, n = 1 := by
      simp
    rw [Option.getD_some, List.length_flatten, List.eq_replicate_of_mem hone]
    simp

variable {bot : ChicBot} {w : World Effect Answer Dedupe Request} {i : ℕ}
  {l l' : List (ℕ × Done Effect Answer)}

def warehouse : Preference := ⟨"склад", "<b>Главный</b> & Ко"⟩

def memoryBot : ChicBot :=
  { shopBot with commandOf := fun m => if m.text = some "/memory" then some "memory" else none }

def memoryEvents : List (Effects.Event Effect Answer Request) :=
  [.input (delivered 7 (.message (textMessage 1 "/memory"))),
    .act 0 ⟨.preferences 1, some [warehouse]⟩,
    .act 0 ⟨.telegram (.sendMessage 1 (renderMemory [warehouse]).1 (some .html)
      (renderMemory [warehouse]).2), some .ok⟩]

end Chic.Bot
