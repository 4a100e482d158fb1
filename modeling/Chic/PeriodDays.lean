import Chic.Moments

namespace Chic.Helpers
open Calendar Moysklad PyText PyTime Receivables

/-- `_normalize` -/
def normalize (s : String) : String :=
  if s = "" then "" else if s.length = 10 then s ++ " 00:00:00" else s

def microsecondsPerDay : ℚ := 24 * 3600 * 1000000

/-- `period_days`, in exact numbers. -/
def periodDays (dateFrom dateTo : String) (fallback : ℚ) : ℚ :=
  match parseMoment (normalize dateFrom), parseMoment (normalize dateTo) with
  | some f, some t =>
    -- + 1 for a range that includes both its days
    let d : ℚ := (t - f) / 1000000 / 3600 / 24 + 1
    if 0 < d then d else fallback
  | _, _ => fallback

/-- `ProfitOptions.values` -/
def profitValues (dateFrom dateTo : String) (filter : List String) : List (String × String) :=
  let momentFrom := normalizeMoment dateFrom
  let momentTo := normalizeMomentEnd dateTo
  (if momentFrom = "" then [] else [("momentFrom", momentFrom)]) ++
    (if momentTo = "" then [] else [("momentTo", momentTo)]) ++ filter.map fun f => ("filter", f)

/-- The moments that are sent, as the service reads them. -/
def window (dateFrom dateTo : String) : Option (DateTime × DateTime) := do
  let values := profitValues dateFrom dateTo []
  let f ← (values.lookup "momentFrom").bind parseMoment
  let t ← (values.lookup "momentTo").bind parseMoment
  return (f, t)

/-- An end of a period: a bare date, a moment, or an ISO time with seconds. -/
inductive Bound where
  | date (d : Date) (year_lt : d.year < 10 ^ 4)
  | moment (d : Date) (year_lt : d.year < 10 ^ 4) (h : Fin 24) (m s : Fin 60)
  | iso (t : LocalTime) (seconds : t.seconds.isSome)

namespace Bound

def text : Bound → String
  | date d _ => dateText d
  | moment d _ h m s => String.ofList (momentText d h m s)
  | iso t _ => String.ofList t.text

def isDate : Bound → Bool
  | date .. => true
  | _ => false

def isIso : Bound → Bool
  | iso .. => true
  | _ => false

def start : Bound → DateTime
  | date d _ => instant d 0 0 0
  | moment d _ h m s => instant d h m s
  | iso t _ => t.truncated

def stop : Bound → DateTime
  | date d _ => instant d 23 59 59
  | b => b.start

/-- What `parse_time` makes of a bound that `_normalize` has seen. -/
def read : Bound → Option DateTime
  | iso .. => none
  | b => some b.start

end Bound

section Text
variable {d : Date} {h m s : ℕ}

theorem parseMoment_eq (s : String) : parseMoment s = strptimeMoment s.toList := by
  rw [← parseMoment_ofList, String.ofList_toList]

theorem ymd_ne_nil (d : Date) : ymd d ≠ [] := by
  rw [← List.length_pos_iff, length_ymd]
  decide

theorem head?_ymd_append {l : List Char} {c : Char} (hc : (ymd d ++ l).head? = some c) :
    isSpace c = false := by
  obtain ⟨y, hy⟩ := Option.isSome_iff_exists.mp (List.isSome_head?.mpr (ymd_ne_nil d))
  rw [List.head?_append, hy, Option.some_or] at hc
  exact isSpace_of_mem_ymd (Option.some.inj hc ▸ List.mem_of_head? hy)

theorem stripChars_momentText (d : Date) (h m s : ℕ) :
    stripChars (momentText d h m s) = momentText d h m s := by
  refine stripChars_eq_self_iff.mpr ⟨fun c => head?_ymd_append, fun c hc => ?_⟩
  have hlast : momentText d h m s =
      (ymd d ++ ' ' :: (decimals 2 h ++ ':' :: (decimals 2 m ++ [':', Nat.digitChar (s / 10 % 10)])))
        ++ [Nat.digitChar (s % 10)] := by
    simp [momentText, clock, decimals]
  rw [hlast, List.getLast?_concat] at hc
  exact Option.some.inj hc ▸ isSpace_of_isDigit (isDigit_digitChar (Nat.mod_lt s (by decide)))

theorem normalizeWith_momentText (bare : List Char) :
    normalizeWith bare (momentText d h m s) = momentText d h m s := by
  have hspace : ' ' ∈ momentText d h m s := List.mem_append_right _ List.mem_cons_self
  unfold normalizeWith
  rw [stripChars_momentText]
  simp only [List.ne_nil_of_mem hspace, hspace, if_false, if_true]

theorem normalizeWith_ymd (bare : List Char) : normalizeWith bare (ymd d) = ymd d ++ bare := by
  have hspace : ' ' ∉ ymd d := not_mem_ymd rfl (by decide)
  have hT : 'T' ∉ ymd d := not_mem_ymd rfl (by decide)
  unfold normalizeWith
  rw [stripChars_eq_self fun c => isSpace_of_mem_ymd]
  simp only [ymd_ne_nil, hspace, hT, if_false]

end Text

section Window
variable {a b : Bound}

theorem parseMoment_normalizeMoment (b : Bound) :
    parseMoment (normalizeMoment b.text) = some b.start := by
  rw [normalizeMoment, parseMoment_ofList]
  cases b with
  | date d hd =>
    rw [Bound.text, dateText, String.toList_ofList, normalizeChars_eq, normalizeWith_ymd]
    exact strptimeMoment_momentText hd (h := 0) (m := 0) (s := 0) (by decide) (by decide) (by decide)
  | moment d hd h m s =>
    rw [Bound.text, String.toList_ofList, normalizeChars_eq, normalizeWith_momentText]
    exact strptimeMoment_momentText hd h.2 m.2 s.2
  | iso t hs =>
    rw [Bound.text, String.toList_ofList]
    exact t.strptimeMoment_normalizeChars_iff.mpr hs

theorem parseMoment_normalizeMomentEnd (b : Bound) :
    parseMoment (normalizeMomentEnd b.text) = some b.stop := by
  rw [normalizeMomentEnd, parseMoment_ofList]
  cases b with
  | date d hd =>
    rw [Bound.text, dateText, String.toList_ofList, normalizeEndChars_eq, normalizeWith_ymd]
    exact strptimeMoment_momentText hd (h := 23) (m := 59) (s := 59) (by decide) (by decide)
      (by decide)
  | moment d hd h m s =>
    rw [Bound.text, String.toList_ofList, normalizeEndChars_eq, normalizeWith_momentText]
    exact strptimeMoment_momentText hd h.2 m.2 s.2
  | iso t hs =>
    rw [Bound.text, String.toList_ofList, LocalTime.normalizeEndChars_text]
    exact t.strptimeMoment_normalizeChars_iff.mpr hs

theorem window_eq (a b : Bound) : window a.text b.text = some (a.start, b.stop) := by
  have hfrom := parseMoment_normalizeMoment a
  have hto := parseMoment_normalizeMomentEnd b
  have hne : ∀ {s x}, parseMoment s = some x → s ≠ "" := by
    rintro s x hs rfl
    cases hs
  unfold window profitValues
  simp only [hne hfrom, hne hto, if_false, List.singleton_append, List.map_nil, List.append_nil]
  rw [List.lookup_cons_self, Option.bind_some, hfrom, List.lookup_cons,
    show ("momentTo" == "momentFrom") = false from rfl, List.lookup_cons_self]
  dsimp only
  rw [Option.bind_some, hto]
  rfl

theorem normalize_of_length {s : String} (h : s.length ≠ 10) : normalize s = s := by
  unfold normalize
  split_ifs with hempty
  · exact hempty.symm
  · rfl

theorem mem_normalize {s : String} {c : Char} (h : c ∈ s.toList) : c ∈ (normalize s).toList := by
  unfold normalize
  split_ifs with hempty hlen
  · rwa [hempty] at h
  · rw [String.toList_append]
    exact List.mem_append_left _ h
  · exact h

/-- The other normalisation does not know the `T`. -/
theorem parseMoment_normalize (b : Bound) : parseMoment (normalize b.text) = b.read := by
  rw [parseMoment_eq]
  cases b with
  | date d hd =>
    have hlen : (dateText d).length = 10 := by
      rw [dateText, String.length_ofList, length_ymd]
    have hne : dateText d ≠ "" := by
      intro hempty
      rw [hempty] at hlen
      cases hlen
    rw [Bound.text, normalize, if_neg hne, if_pos hlen, String.toList_append, dateText,
      String.toList_ofList]
    exact strptimeMoment_momentText hd (h := 0) (m := 0) (s := 0) (by decide) (by decide) (by decide)
  | moment d hd h m s =>
    rw [Bound.text, normalize_of_length (by simp [momentText, clock, length_ymd, length_decimals]),
      String.toList_ofList]
    exact strptimeMoment_momentText hd h.2 m.2 s.2
  | iso t hs =>
    refine strptimeMoment_eq_none noT_moment (not_not_intro ?_)
    have hT : 'T' ∈ (Bound.iso t hs).text.toList := by
      rw [Bound.text, String.toList_ofList]
      exact List.mem_append_right _ List.mem_cons_self
    exact mem_normalize hT

end Window

section Days
variable {a b : Bound}

theorem stop_eq (b : Bound) : b.stop = if b.isDate then b.start + 86399000000 else b.start := by
  cases b with
  | date d hd =>
    simp only [Bound.stop, Bound.isDate, Bound.start, instant, if_true]
    push_cast
    ring
  | moment d hd h m s => rfl
  | iso t hs => rfl

theorem read_eq (b : Bound) : b.read = if b.isIso then none else some b.start := by
  cases b <;> rfl

/-- What `period_days` returns: the fallback with an ISO time, else a day more than is between the
two bounds. -/
theorem periodDays_eq (fallback : ℚ) : periodDays a.text b.text fallback =
    if a.isIso ∨ b.isIso then fallback
    else
      let d : ℚ := (b.start - a.start) / microsecondsPerDay + 1
      if 0 < d then d else fallback := by
  unfold periodDays
  rw [parseMoment_normalize, parseMoment_normalize, read_eq, read_eq]
  have hday : ∀ x : ℚ, x / 1000000 / 3600 / 24 = x / microsecondsPerDay := by
    intro x
    rw [div_div, div_div, microsecondsPerDay]
    norm_num
  cases ha : a.isIso <;> cases hb : b.isIso <;> simp [hday]

end Days

/-- The days of the window that is sent, its last second included. -/
def windowDays (w : DateTime × DateTime) : ℚ := (w.2 - w.1 + 1000000) / microsecondsPerDay

/-- The days are those of the window that is sent just if the period ends with a bare date and does
not begin with an ISO time, or the fallback happens to be right for an ISO time. -/
theorem periodDays_window_iff (a b : Bound) (fallback : ℚ) (w : DateTime × DateTime)
    (hw : window a.text b.text = some w) (hle : w.1 ≤ w.2) :
    periodDays a.text b.text fallback = windowDays w ↔
      (a.isIso = false ∧ b.isDate = true) ∨
        ((a.isIso = true ∨ b.isIso = true) ∧ fallback = windowDays w) := by
  rw [window_eq, Option.some.injEq] at hw
  subst hw
  have hday : microsecondsPerDay = 86400000000 := by norm_num [microsecondsPerDay]
  have hle : (a.start : ℚ) ≤ b.stop := Int.cast_le.mpr hle
  rw [periodDays_eq, windowDays]
  -- an ISO time is not parsed, and the fallback is returned
  by_cases hiso : a.isIso = true ∨ b.isIso = true
  · have hexcl : ¬(a.isIso = false ∧ b.isDate = true) := by
      rintro ⟨ha, hb⟩
      rcases hiso with h | h
      · rw [ha] at h
        cases h
      · cases b <;> simp_all [Bound.isIso, Bound.isDate]
    rw [if_pos hiso]
    exact ⟨fun h => .inr ⟨hiso, h⟩, fun h => (h.resolve_left hexcl).2⟩
  · rw [if_neg hiso]
    rw [not_or, Bool.not_eq_true] at hiso
    dsimp only
    rw [stop_eq] at hle ⊢
    cases hdate : b.isDate with
    | true =>
      rw [hdate, if_pos rfl] at hle
      push_cast at hle ⊢
      have heq : ((b.start - a.start : ℚ) / microsecondsPerDay + 1) =
          (b.start + 86399000000 - a.start + 1000000) / microsecondsPerDay := by
        rw [hday]
        ring
      have hpos : (0 : ℚ) < (b.start + 86399000000 - a.start + 1000000) / microsecondsPerDay :=
        div_pos (by linarith) (by rw [hday]; norm_num)
      rw [heq, if_pos hpos]
      exact iff_of_true rfl (.inl ⟨hiso.1, rfl⟩)
    | false =>
      rw [hdate] at hle
      simp only [Bool.false_eq_true, if_false] at hle ⊢
      have hpos : (0 : ℚ) < (b.start - a.start) / microsecondsPerDay + 1 := by
        have : (0 : ℚ) ≤ (b.start - a.start) / microsecondsPerDay :=
          div_nonneg (by linarith) (by rw [hday]; norm_num)
        linarith
      rw [if_pos hpos]
      refine iff_of_false (fun h => ?_) ?_
      · rw [hday] at h
        linarith
      · rintro (⟨-, h⟩ | ⟨h, -⟩)
        · cases h
        · exact h.elim (fun h => by simp [hiso.1] at h) hiso.2

theorem periodDays_july :
    let a : Bound := .date ⟨2026, 7, 1, by decide, by decide, by decide⟩ (by decide)
    let b : Bound := .date ⟨2026, 7, 10, by decide, by decide, by decide⟩ (by decide)
    periodDays a.text b.text 30 = windowDays (a.start, b.stop) :=
  (periodDays_window_iff _ _ 30 _ (window_eq _ _) (by decide +kernel)).mpr (.inl ⟨rfl, rfl⟩)

/-- Ten days up to their last second are not counted as ten days. -/
theorem periodDays_moment :
    let a : Bound := .date ⟨2026, 7, 1, by decide, by decide, by decide⟩ (by decide)
    let b : Bound := .moment ⟨2026, 7, 10, by decide, by decide, by decide⟩ (by decide) 23 59 59
    a.text = "2026-07-01" ∧ b.text = "2026-07-10 23:59:59" ∧
      (window a.text b.text).map windowDays = some 10 ∧ periodDays a.text b.text 30 ≠ 10 := by
  decide +kernel

end Chic.Helpers
