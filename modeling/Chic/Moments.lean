import Mathlib.Data.List.DropRight
import Chic.Aging
import Chic.DateText

namespace Chic.PyText

section Strip
variable {s : List Char}

theorem stripChars_eq (s : List Char) :
    stripChars s = (s.dropWhile isSpace).rdropWhile isSpace := rfl

theorem length_stripChars_le (s : List Char) : (stripChars s).length ≤ s.length :=
  (List.rdropWhile_prefix _ _).length_le.trans (List.dropWhile_suffix _).length_le

theorem head?_stripChars {c : Char} (h : (stripChars s).head? = some c) : isSpace c = false := by
  have hdrop := List.head?_dropWhile_not isSpace s
  obtain ⟨t, ht⟩ := List.rdropWhile_prefix isSpace (s.dropWhile isSpace)
  rw [← ht, List.head?_append, ← stripChars_eq, h] at hdrop
  exact hdrop

theorem getLast?_stripChars {c : Char} (h : (stripChars s).getLast? = some c) :
    isSpace c = false := by
  obtain ⟨l, hl⟩ := List.getLast?_eq_some_iff.mp h
  have hne : (s.dropWhile isSpace).rdropWhile isSpace ≠ [] := by
    rw [← stripChars_eq, hl]
    exact List.concat_ne_nil c l
  have hlast := List.rdropWhile_last_not _ _ hne
  simp only [← stripChars_eq, hl, List.getLast_concat, Bool.not_eq_true] at hlast
  exact hlast

/-- Nothing is stripped from what neither begins nor ends with a space. -/
theorem stripChars_eq_self_iff : stripChars s = s ↔
    (∀ c, s.head? = some c → isSpace c = false) ∧ ∀ c, s.getLast? = some c → isSpace c = false := by
  constructor
  · intro h
    rw [← h]
    exact ⟨fun _ => head?_stripChars, fun _ => getLast?_stripChars⟩
  · rintro ⟨hhead, hlast⟩
    have hdrop : s.dropWhile isSpace = s := by
      rw [List.dropWhile_eq_self_iff]
      intro hlen
      rw [hhead _ (List.head?_eq_getElem? .. ▸ List.getElem?_eq_getElem hlen)]
      exact Bool.false_ne_true
    rw [stripChars_eq, hdrop, List.rdropWhile_eq_self_iff]
    intro hne
    rw [hlast _ (List.getLast?_eq_some_getLast hne)]
    exact Bool.false_ne_true

theorem stripChars_stripChars (s : List Char) : stripChars (stripChars s) = stripChars s :=
  stripChars_eq_self_iff.mpr ⟨fun _ => head?_stripChars, fun _ => getLast?_stripChars⟩

theorem length_stripChars_lt (h : stripChars s ≠ s) : (stripChars s).length < s.length := by
  refine lt_of_le_of_ne (length_stripChars_le s) fun hlen => h ?_
  have hsuffix := List.dropWhile_suffix isSpace (l := s)
  have hprefix := List.rdropWhile_prefix isSpace (s.dropWhile isSpace)
  have hdrop : s.dropWhile isSpace = s :=
    hsuffix.eq_of_length (le_antisymm hsuffix.length_le (hlen ▸ hprefix.length_le))
  rw [stripChars_eq, hdrop] at hlen ⊢
  exact (List.rdropWhile_prefix isSpace s).eq_of_length hlen

end Strip

end Chic.PyText

namespace Chic.Moysklad
open Backtrack Calendar PyText PyTime Receivables

/-- `s.partition("T")`, without the separator. -/
def partitionT (s : List Char) : List Char × List Char :=
  (s.takeWhile (· ≠ 'T'), (s.dropWhile (· ≠ 'T')).tail)

/-- `s.removesuffix("Z")` -/
def removeSuffixZ (s : List Char) : List Char := if s.getLast? = some 'Z' then s.dropLast else s

def normalizeChars (s : List Char) : List Char :=
  let s := stripChars s
  if s = [] then []
  -- already has a time component
  else if ' ' ∈ s then s
  else if 'T' ∈ s then
    let (datePart, rest) := partitionT s
    let timePart := removeSuffixZ rest
    let timePart := if 8 ≤ timePart.length then timePart.take 8 else timePart
    datePart ++ ' ' :: timePart
  else s ++ " 00:00:00".toList

def normalizeEndChars (s : List Char) : List Char :=
  let s := stripChars s
  if s = [] then []
  else if ' ' ∈ s ∨ 'T' ∈ s then normalizeChars s
  else s ++ " 23:59:59".toList

def normalizeMoment (s : String) : String := String.ofList (normalizeChars s.toList)

def normalizeMomentEnd (s : String) : String := String.ofList (normalizeEndChars s.toList)

/-- Both functions, by the time that a bare date gets. -/
def normalizeWith (bare : List Char) (s : List Char) : List Char :=
  let s := stripChars s
  if s = [] then []
  else if ' ' ∈ s then s
  else if 'T' ∈ s then (partitionT s).1 ++ ' ' :: (removeSuffixZ (partitionT s).2).take 8
  else s ++ bare

/-- The text keeps its time: with a `T` and no blank it has a date before the first `T` and a time
after it that, without the `Z` and in its first eight characters, does not end in white space. -/
def KeepsTime (s : List Char) : Prop :=
  ' ' ∈ s ∨ 'T' ∉ s ∨ ∃ date rest c, s = date ++ 'T' :: rest ∧ 'T' ∉ date ∧ date ≠ [] ∧
    ((removeSuffixZ rest).take 8).getLast? = some c ∧ isSpace c = false

section Normalize
variable {bare s n date rest : List Char} {c : Char}

theorem normalizeChars_eq (s : List Char) :
    normalizeChars s = normalizeWith " 00:00:00".toList s := by
  have htake : ∀ l : List Char, (if 8 ≤ l.length then l.take 8 else l) = l.take 8 := by
    intro l
    split_ifs with h
    · rfl
    · rw [List.take_of_length_le (by omega)]
  unfold normalizeChars normalizeWith
  simp only [htake]

theorem normalizeEndChars_eq (s : List Char) :
    normalizeEndChars s = normalizeWith " 23:59:59".toList s := by
  unfold normalizeEndChars
  simp only [normalizeChars_eq]
  unfold normalizeWith
  simp only [stripChars_stripChars]
  split_ifs with hempty hor hspace hT hspace hT
  · rfl
  · rfl
  · rfl
  · exact absurd (hor.resolve_left hspace) hT
  · exact absurd (.inl hspace) hor
  · exact absurd (.inr hT) hor
  · rfl

theorem partitionT_append (h : 'T' ∉ date) : partitionT (date ++ 'T' :: rest) = (date, rest) := by
  have hdate : ∀ c ∈ date, decide (c ≠ 'T') = true := fun c hc =>
    decide_eq_true (ne_of_mem_of_not_mem hc h)
  rw [partitionT, List.takeWhile_append_of_pos hdate, List.dropWhile_append_of_pos hdate]
  simp

theorem length_removeSuffixZ_le (s : List Char) : (removeSuffixZ s).length ≤ s.length := by
  unfold removeSuffixZ
  split_ifs
  · exact List.length_dropLast.trans_le (Nat.sub_le _ _)
  · exact le_rfl

theorem normalizeWith_T (hs : stripChars s = date ++ 'T' :: rest) (hT : 'T' ∉ date)
    (hspace : ' ' ∉ stripChars s) :
    normalizeWith bare s = date ++ ' ' :: (removeSuffixZ rest).take 8 := by
  have hne : stripChars s ≠ [] := by
    rw [hs]
    exact List.append_ne_nil_of_right_ne_nil _ (List.cons_ne_nil _ _)
  have hmem : 'T' ∈ stripChars s := by
    rw [hs]
    exact List.mem_append_right _ List.mem_cons_self
  unfold normalizeWith
  dsimp only
  rw [if_neg hne, if_neg hspace, if_pos hmem, hs, partitionT_append hT]

theorem head?_append_stripped {l : List Char} (hempty : stripChars s ≠ [])
    (h : (stripChars s ++ l).head? = some c) : isSpace c = false := by
  obtain ⟨y, hy⟩ := Option.isSome_iff_exists.mp (List.isSome_head?.mpr hempty)
  rw [List.head?_append, hy, Option.some_or] at h
  exact head?_stripChars (h ▸ hy)

/-- What already has a time is kept just if there is nothing to strip. -/
theorem normalizeWith_eq_self_iff (hbare : ∃ l c, bare = l ++ [c] ∧ isSpace c = false)
    (hn : ' ' ∈ n) : normalizeWith bare n = n ↔ stripChars n = n := by
  constructor
  · intro h
    by_contra hstrip
    have hlt := length_stripChars_lt hstrip
    by_cases hempty : stripChars n = []
    · rw [normalizeWith, if_pos hempty] at h
      rw [← h] at hn
      cases hn
    by_cases hspace : ' ' ∈ stripChars n
    · rw [normalizeWith, if_neg hempty, if_pos hspace] at h
      exact hstrip h
    by_cases hT : 'T' ∈ stripChars n
    · -- a blank for the `T`, and nothing longer after it
      obtain ⟨date, rest, hs, hdate⟩ := List.eq_append_cons_of_mem hT
      rw [normalizeWith_T hs hdate hspace] at h
      have hlen := congrArg List.length h
      have hrest := length_removeSuffixZ_le rest
      rw [hs] at hlt
      simp only [List.length_append, List.length_cons, List.length_take] at hlen hlt
      omega
    · obtain ⟨l, c, rfl, hc⟩ := hbare
      rw [normalizeWith, if_neg hempty, if_neg hspace, if_neg hT] at h
      refine hstrip (stripChars_eq_self_iff.mpr ⟨fun x hx => ?_, fun x hx => ?_⟩)
      · exact head?_append_stripped hempty (h ▸ hx)
      · rw [← h, ← List.append_assoc, List.getLast?_concat] at hx
        exact Option.some.inj hx ▸ hc
  · intro h
    have hne : n ≠ [] := List.ne_nil_of_mem hn
    unfold normalizeWith
    simp only [h, hne, hn, if_false, if_true]

theorem keepsTime_iff (hs : stripChars s = date ++ 'T' :: rest) (hdate : 'T' ∉ date)
    (hspace : ' ' ∉ stripChars s) : KeepsTime (stripChars s) ↔
      stripChars (date ++ ' ' :: (removeSuffixZ rest).take 8) =
        date ++ ' ' :: (removeSuffixZ rest).take 8 := by
  rw [stripChars_eq_self_iff]
  constructor
  · rintro (hblank | hT | ⟨date', rest', c, heq, hdate', hne, hlast, hc⟩)
    · exact absurd hblank hspace
    · rw [hs] at hT
      exact absurd (List.mem_append_right _ List.mem_cons_self) hT
    · have hparts : partitionT (date ++ 'T' :: rest) = (date, rest) := partitionT_append hdate
      rw [← hs, heq, partitionT_append hdate', Prod.mk.injEq] at hparts
      obtain ⟨rfl, rfl⟩ := hparts
      refine ⟨fun x hx => ?_, fun x hx => ?_⟩
      · obtain ⟨y, hy⟩ := Option.isSome_iff_exists.mp (List.isSome_head?.mpr hne)
        rw [List.head?_append, hy, Option.some_or] at hx
        refine head?_stripChars (s := s) ?_
        rw [hs, List.head?_append, hy, Option.some_or, hx]
      · rw [List.getLast?_append, List.getLast?_cons, hlast] at hx
        exact Option.some.inj hx ▸ hc
  · rintro ⟨hhead, hlast⟩
    refine .inr (.inr ?_)
    have hne : date ≠ [] := by
      rintro rfl
      exact absurd (hhead ' ' rfl) (by decide)
    rcases htime : ((removeSuffixZ rest).take 8).getLast? with _ | c
    · rw [List.getLast?_eq_none_iff] at htime
      rw [htime] at hlast
      exact absurd (hlast ' ' List.getLast?_concat) (by decide)
    · refine ⟨date, rest, c, hs, hdate, hne, htime, hlast c ?_⟩
      rw [List.getLast?_append, List.getLast?_cons, htime]
      rfl

/-- Normalising again changes nothing just if the text keeps its time. -/
theorem normalizeWith_idem_iff (hbare : ∃ l c, bare = ' ' :: l ++ [c] ∧ isSpace c = false)
    (s : List Char) :
    normalizeWith bare (normalizeWith bare s) = normalizeWith bare s ↔ KeepsTime (stripChars s) := by
  have hlast : ∃ l c, bare = l ++ [c] ∧ isSpace c = false := by
    obtain ⟨l, c, hl, hc⟩ := hbare
    exact ⟨' ' :: l, c, hl, hc⟩
  -- by the branches: nothing, a time after a blank, an ISO time, a bare date
  by_cases hempty : stripChars s = []
  · have hnil : normalizeWith bare s = [] := if_pos hempty
    rw [hnil, hempty]
    exact iff_of_true rfl (.inr (.inl List.not_mem_nil))
  by_cases hspace : ' ' ∈ stripChars s
  · have hself : normalizeWith bare s = stripChars s := by
      rw [normalizeWith, if_neg hempty, if_pos hspace]
    rw [hself, normalizeWith_eq_self_iff hlast hspace]
    exact iff_of_true (stripChars_stripChars s) (.inl hspace)
  by_cases hT : 'T' ∈ stripChars s
  · obtain ⟨date, rest, hs, hdate⟩ := List.eq_append_cons_of_mem hT
    rw [normalizeWith_T hs hdate hspace,
      normalizeWith_eq_self_iff hlast (List.mem_append_right _ List.mem_cons_self),
      keepsTime_iff hs hdate hspace]
  · have hbarely : normalizeWith bare s = stripChars s ++ bare := by
      rw [normalizeWith, if_neg hempty, if_neg hspace, if_neg hT]
    have hmem : ' ' ∈ bare := by
      obtain ⟨l, c, rfl, -⟩ := hbare
      exact List.mem_cons_self
    rw [hbarely, normalizeWith_eq_self_iff hlast (List.mem_append_right _ hmem),
      stripChars_eq_self_iff]
    refine iff_of_true ⟨fun x hx => ?_, fun x hx => ?_⟩ (.inr (.inl hT))
    · exact head?_append_stripped hempty hx
    · obtain ⟨l, y, hl, hy⟩ := hlast
      rw [hl, ← List.append_assoc, List.getLast?_concat] at hx
      exact Option.some.inj hx ▸ hy

end Normalize

/-- `parse_time` -/
def parseMoment (s : String) : Option DateTime :=
  parseTime (fun s => strptimeMoment s.toList) s

/-- An ISO local date and time, with or without seconds and a fraction of them. -/
structure LocalTime where
  date : Date
  year_lt : date.year < 10 ^ 4
  hour : Fin 24
  minute : Fin 60
  seconds : Option (Fin 60 × List (Fin 10))
  zulu : Bool

namespace LocalTime

def secondsText : Option (Fin 60 × List (Fin 10)) → List Char
  | none => []
  | some (s, fraction) =>
    ':' :: decimals 2 s ++ if fraction = [] then [] else '.' :: fraction.map fun d : Fin 10 => Nat.digitChar d

def timeText (t : LocalTime) : List Char :=
  decimals 2 t.hour ++ ':' :: decimals 2 t.minute ++ secondsText t.seconds

/-- `YYYY-MM-DDTHH:MM[:SS[.fraction]][Z]` -/
def text (t : LocalTime) : List Char :=
  ymd t.date ++ 'T' :: (t.timeText ++ if t.zulu then ['Z'] else [])

/-- The time that it denotes, truncated to seconds. -/
def truncated (t : LocalTime) : DateTime :=
  instant t.date t.hour t.minute (t.seconds.elim 0 fun s => s.1)

variable {t : LocalTime} {c : Char}

theorem mem_timeText (h : c ∈ t.timeText) : c.isDigit = true ∨ c = ':' ∨ c = '.' := by
  have hseconds : ∀ s, c ∈ secondsText s → c.isDigit = true ∨ c = ':' ∨ c = '.' := by
    intro s hc
    rcases s with _ | ⟨s, fraction⟩
    · cases hc
    · rw [secondsText, List.cons_append, List.mem_cons, List.mem_append] at hc
      rcases hc with rfl | hc | hc
      · exact .inr (.inl rfl)
      · exact .inl (isDigit_of_mem_decimals hc)
      · split_ifs at hc
        · cases hc
        · rcases List.mem_cons.mp hc with rfl | hc
          · exact .inr (.inr rfl)
          · obtain ⟨d, -, rfl⟩ := List.mem_map.mp hc
            exact .inl (isDigit_digitChar d.2)
  simp only [timeText, List.mem_append, List.mem_cons] at h
  rcases h with (h | rfl | h) | h
  · exact .inl (isDigit_of_mem_decimals h)
  · exact .inr (.inl rfl)
  · exact .inl (isDigit_of_mem_decimals h)
  · exact hseconds _ h

theorem not_mem_timeText (hdigit : c.isDigit = false) (hcolon : c ≠ ':') (hdot : c ≠ '.') :
    c ∉ t.timeText := by
  intro h
  rcases mem_timeText h with h | h | h
  · rw [hdigit] at h
    cases h
  · exact hcolon h
  · exact hdot h

theorem removeSuffixZ_text (t : LocalTime) :
    removeSuffixZ (t.timeText ++ if t.zulu then ['Z'] else []) = t.timeText := by
  cases t.zulu with
  | true =>
    simp only [if_true]
    rw [removeSuffixZ, List.getLast?_concat, if_pos rfl, List.dropLast_concat]
  | false =>
    simp only [Bool.false_eq_true, if_false, List.append_nil]
    refine if_neg fun h => ?_
    exact not_mem_timeText (c := 'Z') rfl (by decide) (by decide) (List.mem_of_getLast? h)

theorem isSpace_of_mem_text (h : c ∈ t.text) : isSpace c = false := by
  have hzulu : ∀ z : Bool, c ∈ (if z then ['Z'] else []) → c = 'Z' := by
    intro z hz
    split_ifs at hz
    · exact List.mem_singleton.mp hz
    · cases hz
  simp only [text, List.mem_append, List.mem_cons] at h
  rcases h with h | rfl | h | h
  · exact isSpace_of_mem_ymd h
  · decide
  · rcases mem_timeText h with h | rfl | rfl
    · exact isSpace_of_isDigit h
    · decide
    · decide
  · rw [hzulu _ h]
    decide

theorem normalizeWith_text (bare : List Char) (t : LocalTime) :
    normalizeWith bare t.text = ymd t.date ++ ' ' :: t.timeText.take 8 := by
  have hstrip : stripChars t.text = t.text := stripChars_eq_self fun c => isSpace_of_mem_text
  have hspace : ' ' ∉ stripChars t.text := by
    rw [hstrip]
    intro h
    exact absurd (isSpace_of_mem_text h) (by decide)
  rw [normalizeWith_T (hstrip.trans rfl) (not_mem_ymd rfl (by decide)) hspace, removeSuffixZ_text]

theorem normalizeChars_text (t : LocalTime) :
    normalizeChars t.text = ymd t.date ++ ' ' :: t.timeText.take 8 :=
  (normalizeChars_eq t.text).trans (normalizeWith_text _ t)

theorem normalizeEndChars_text (t : LocalTime) :
    normalizeEndChars t.text = normalizeChars t.text := by
  rw [normalizeEndChars_eq, normalizeWith_text, normalizeChars_text]

/-- With seconds it is the moment of the service. -/
theorem normalizeChars_of_seconds {s : Fin 60 × List (Fin 10)} (h : t.seconds = some s) :
    normalizeChars t.text = momentText t.date t.hour t.minute s.1 := by
  obtain ⟨s, fraction⟩ := s
  rw [normalizeChars_text, timeText, h, momentText, clock, secondsText]
  rfl

theorem count_text (h : t.seconds = none) : (normalizeChars t.text).count ':' = 1 := by
  have hdigits : ∀ n, (decimals 2 n).count ':' = 0 := fun n => List.count_eq_zero.mpr fun hmem =>
    absurd (isDigit_of_mem_decimals hmem) (by decide)
  have htake : t.timeText.take 8 = decimals 2 t.hour ++ ':' :: decimals 2 t.minute := by
    rw [timeText, h, secondsText, List.append_nil]
    rfl
  rw [normalizeChars_text, htake, List.count_append,
    List.count_eq_zero.mpr (not_mem_ymd rfl (by decide)), List.count_cons_of_ne (by decide),
    List.count_append, List.count_cons_self, hdigits, hdigits]

/-- It is read as the same instant just if it has seconds. -/
theorem strptimeMoment_normalizeChars_iff (t : LocalTime) :
    strptimeMoment (normalizeChars t.text) = some t.truncated ↔ t.seconds.isSome := by
  rcases h : t.seconds with _ | s
  · have hnone := strptimeMoment_eq_none takes_moment (s := normalizeChars t.text) (by
      rw [count_text h]
      decide)
    rw [hnone]
    exact iff_of_false (by simp) (by simp)
  · rw [normalizeChars_of_seconds h, truncated, h,
      strptimeMoment_momentText t.year_lt t.hour.2 t.minute.2 s.1.2]
    exact iff_of_true rfl rfl

end LocalTime

section Canonical

theorem parseMoment_ofList (l : List Char) : parseMoment (String.ofList l) = strptimeMoment l := by
  unfold parseMoment parseTime
  simp only [String.toList_ofList]
  split_ifs with h
  · rw [← String.ofList_toList (s := ""), String.ofList_inj] at h
    rw [h]
    rfl
  · rfl

/-- Normalisation is idempotent just on the texts that keep their time, and an ISO time keeps its
instant just if it has seconds. -/
theorem normalizeMoment_canonical_iff (s : String) (t : LocalTime) :
    (normalizeMoment (normalizeMoment s) = normalizeMoment s ↔ KeepsTime (stripChars s.toList)) ∧
      (normalizeMomentEnd (normalizeMomentEnd s) = normalizeMomentEnd s ↔
        KeepsTime (stripChars s.toList)) ∧
      (parseMoment (normalizeMoment (String.ofList t.text)) = some t.truncated ↔
        t.seconds.isSome) := by
  refine ⟨?_, ?_, ?_⟩
  · rw [normalizeMoment, normalizeMoment, String.toList_ofList, String.ofList_inj, normalizeChars_eq,
      normalizeChars_eq]
    exact normalizeWith_idem_iff ⟨"00:00:0".toList, '0', rfl, rfl⟩ s.toList
  · rw [normalizeMomentEnd, normalizeMomentEnd, String.toList_ofList, String.ofList_inj,
      normalizeEndChars_eq, normalizeEndChars_eq]
    exact normalizeWith_idem_iff ⟨"23:59:5".toList, '9', rfl, rfl⟩ s.toList
  · rw [normalizeMoment, parseMoment_ofList, String.toList_ofList]
    exact t.strptimeMoment_normalizeChars_iff

/-- A date with an empty time becomes midnight the second time, and a time without seconds is not
read. -/
theorem normalizeMoment_not_canonical :
    normalizeMoment (normalizeMoment "2026-07-01T") ≠ normalizeMoment "2026-07-01T" ∧
      normalizeMomentEnd (normalizeMomentEnd "2026-07-01T") ≠ normalizeMomentEnd "2026-07-01T" ∧
      let t : LocalTime :=
        ⟨⟨2026, 7, 1, by decide, by decide, by decide⟩, by decide, 12, 30, none, false⟩
      String.ofList t.text = "2026-07-01T12:30" ∧
        parseMoment (normalizeMoment (String.ofList t.text)) ≠ some t.truncated := by
  decide +kernel

end Canonical

end Chic.Moysklad
