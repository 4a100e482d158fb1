import Chic.DateText

namespace Chic.Helpers
open Backtrack Calendar PyText PyTime

/-- `^\d{4}-\d{2}-\d{2}$`; a newline may follow what `$` ends. -/
def ymdPattern : Pattern Char Unit := do
  let _ ← .look fun p => p.before = []
  let _ ← digit.times 4
  let _ ← char '-'
  let _ ← digit.times 2
  let _ ← char '-'
  let _ ← digit.times 2
  .look fun p => p.rest = [] ∨ p.rest = ['\n']

def ensureYmd (repr : String → String) (value field : String) : Except String String :=
  if value = "" then .ok value
  else if (ymdPattern.first (.start value.toList)).isSome ∧ (strptimeDate value.toList).isSome then
    .ok value
  else .error s!"{field}: ожидается дата ГГГГ-ММ-ДД, получено {repr value}"

/-- The `where` of `daily_demand`. -/
def admits (since snapshotDate : String) : Bool := since ≤ snapshotDate

/-- A decimal digit as the one of ASCII of its value. -/
def ascii (c : Char) : Char :=
  match decimalDigit? c with
  | some n => Nat.digitChar n
  | none => c

section Ascii
variable {c : Char} {n : ℕ}

theorem decimalDigit?_spec (h : decimalDigit? c = some n) :
    n < 10 ∧ (c = Nat.digitChar n ∨ 128 ≤ c.toNat) := by
  obtain ⟨z, hz, rfl⟩ := Option.map_eq_some_iff.mp h
  have hplace := List.find?_some hz
  have hzero : ∀ z ∈ decimalZeros, z = 48 ∨ 128 ≤ z := by decide
  rw [decide_eq_true_eq] at hplace
  refine ⟨by omega, (hzero z (List.mem_of_find?_eq_some hz)).imp (fun heq => ?_) fun hle => by omega⟩
  apply Char.toNat_inj.mp
  rw [Nat.toNat_digitChar_of_lt_ten (by omega)]
  omega

theorem ascii_le (c : Char) : ascii c ≤ c := by
  unfold ascii
  split
  case h_1 n h =>
    obtain ⟨hn, heq | hle⟩ := decimalDigit?_spec h
    · exact heq.ge
    · change (Nat.digitChar n).toNat ≤ c.toNat
      rw [Nat.toNat_digitChar_of_lt_ten hn]
      omega
  case h_2 => exact le_rfl

theorem ascii_of_lt (h : c.toNat < 128) : ascii c = c := by
  unfold ascii
  split
  case h_1 n hn =>
    obtain ⟨-, heq | hle⟩ := decimalDigit?_spec hn
    · exact heq.symm
    · omega
  case h_2 => rfl

theorem map_ascii_le (l : List Char) : l.map ascii ≤ l := by
  induction l with
  | nil => exact le_rfl
  | cons c l ih =>
    rw [List.map_cons]
    rcases (ascii_le c).eq_or_lt with heq | hlt
    · rw [heq]
      exact List.cons_le_cons c ih
    · exact (List.cons_lt_cons_iff.mpr (.inl hlt)).le

/-- A text is the least of those that read as the same digits just if it is ASCII. -/
theorem map_ascii_eq_self_iff {l : List Char} (h : ∀ c ∈ l.map ascii, c.toNat < 128) :
    l.map ascii = l ↔ ∀ c ∈ l, c.toNat < 128 := by
  refine ⟨fun heq => heq ▸ h, fun hl => ?_⟩
  rw [List.map_congr_left fun c hc => ascii_of_lt (hl c hc), List.map_id']

end Ascii

def IsDigit (l : List Char) (n : ℕ) : Prop := n < 10 ∧ ∃ c, l = [c] ∧ ascii c = Nat.digitChar n

/-- One or two digits, and two of them are the number of two digits. -/
def IsField (l : List Char) (n : ℕ) : Prop :=
  l.length ≤ 2 ∧ (l.length = 2 → ' ' ∉ l → l.map ascii = decimals 2 n)

section Takes
variable {a b : ℕ} {r s : Pattern Char ℕ}

theorem takes_digit : digit.Takes IsDigit := by
  refine (Pattern.Takes.read decimalDigit?).mono ?_
  rintro l n ⟨c, rfl, hc⟩
  refine ⟨(decimalDigit?_spec hc).1, c, rfl, ?_⟩
  rw [ascii, hc]

theorem takes_range (hb : b < 10) : (range a b).Takes IsDigit := by
  refine (Pattern.Takes.read _).mono ?_
  rintro l n ⟨c, rfl, hc⟩
  split_ifs at hc with hplace
  obtain rfl := Option.some.inj hc
  refine ⟨by omega, c, rfl, ?_⟩
  rw [ascii_of_lt (by omega)]
  apply Char.toNat_inj.mp
  rw [Nat.toNat_digitChar_of_lt_ten (by omega)]
  omega

theorem takes_two (hr : r.Takes IsDigit) (hs : s.Takes IsDigit) :
    (two r s).Takes fun l n => n < 100 ∧ l.length = 2 ∧ l.map ascii = decimals 2 n := by
  refine (hr.bind fun m => hs.bind fun n => Pattern.Takes.pure (10 * m + n)).mono ?_
  rintro l k ⟨_, _, m, rfl, ⟨hm, c, rfl, hc⟩, _, _, n, rfl, ⟨hn, c', rfl, hc'⟩, rfl, rfl⟩
  refine ⟨by omega, rfl, ?_⟩
  rw [decimals_two hm hn, ← hc, ← hc']
  rfl

theorem takes_field (hr : r.Takes IsDigit) (hs : s.Takes IsDigit) : (two r s).Takes IsField :=
  (takes_two hr hs).mono fun _ _ h => ⟨h.2.1.le, fun _ _ => h.2.2⟩

theorem takes_short (hr : r.Takes IsDigit) : r.Takes IsField := by
  refine hr.mono ?_
  rintro l n ⟨-, c, rfl, -⟩
  exact ⟨Nat.le_succ 1, fun h => absurd h (by simp)⟩

theorem takes_year :
    year.Takes fun l n => n < 10 ^ 4 ∧ l.length = 4 ∧ l.map ascii = decimals 4 n := by
  have htwo := takes_two takes_digit takes_digit
  refine (htwo.bind fun m => htwo.bind fun n => Pattern.Takes.pure (100 * m + n)).mono ?_
  rintro l k ⟨l₁, _, m, rfl, ⟨hm', hlen, hm⟩, l₂, _, n, rfl, ⟨hn, hlen', hn'⟩, rfl, rfl⟩
  rw [List.append_nil, List.length_append, List.map_append, decimals_four m hn, hm, hn']
  exact ⟨by omega, by omega, rfl⟩

theorem takes_month : month.Takes IsField :=
  .or (takes_field (takes_range (by decide)) (takes_range (by decide))) <|
    .or (takes_field (takes_range (by decide)) (takes_range (by decide))) <|
      takes_short (takes_range (by decide))

theorem takes_day : day.Takes IsField := by
  refine .or (takes_field (takes_range (by decide)) (takes_range (by decide))) <|
    .or (takes_field (takes_range (by decide)) takes_digit) <|
      .or (takes_field (takes_range (by decide)) (takes_range (by decide))) <|
        .or (takes_short (takes_range (by decide))) ?_
  refine ((takes_char ' ').bind fun _ => takes_range (by decide)).mono ?_
  rintro l n ⟨_, _, _, rfl, rfl, -, c, rfl, -⟩
  exact ⟨le_rfl, fun _ hspace => absurd List.mem_cons_self hspace⟩

theorem takes_date : dateFormat.Takes fun l f => ∃ y m d, l = y ++ '-' :: (m ++ '-' :: d) ∧
    (f.1 < 10 ^ 4 ∧ y.length = 4 ∧ y.map ascii = decimals 4 f.1) ∧ IsField m f.2.1 ∧ IsField d f.2.2 := by
  refine (takes_year.bind fun y => (takes_char '-').bind fun _ => takes_month.bind fun m =>
    (takes_char '-').bind fun _ => takes_day.bind fun d => Pattern.Takes.pure (y, m, d)).mono ?_
  rintro l f ⟨y, _, _, rfl, hy, _, _, _, rfl, rfl, m, _, _, rfl, hm, _, _, _, rfl, rfl, d, _, _,
    rfl, hd, rfl, rfl⟩
  exact ⟨y, m, d, by simp, hy, hm, hd⟩

theorem IsDigit.no_space {l : List Char} {n : ℕ} (h : IsDigit l n) : ' ' ∉ l := by
  obtain ⟨hn, c, rfl, hc⟩ := h
  intro hspace
  rw [← List.mem_singleton.mp hspace, ascii_of_lt (by decide)] at hc
  exact absurd (hc ▸ isDigit_digitChar hn) (by decide)

theorem takes_times (n : ℕ) : (digit.times n).Takes fun l _ => l.length = n ∧ ' ' ∉ l := by
  induction n with
  | zero =>
    refine (Pattern.Takes.pure []).mono ?_
    rintro l _ ⟨rfl, -⟩
    exact ⟨rfl, List.not_mem_nil⟩
  | succ n ih =>
    refine (takes_digit.bind fun d => ih.bind fun ds => Pattern.Takes.pure (d :: ds)).mono ?_
    rintro l _ ⟨l₁, _, m, rfl, hdigit, l₂, _, _, rfl, ⟨hlen, hspace⟩, rfl, -⟩
    have hone : l₁.length = 1 := by
      obtain ⟨-, c, rfl, -⟩ := hdigit
      rfl
    rw [List.append_nil, List.length_append, List.mem_append, not_or]
    exact ⟨by omega, hdigit.no_space, hspace⟩

theorem takes_ymd : ymdPattern.Takes fun l _ => ∃ y m d, l = y ++ '-' :: (m ++ '-' :: d) ∧
    y.length = 4 ∧ (m.length = 2 ∧ ' ' ∉ m) ∧ d.length = 2 ∧ ' ' ∉ d := by
  refine ((Pattern.Takes.look _).bind fun _ => (takes_times 4).bind fun _ =>
    (takes_char '-').bind fun _ => (takes_times 2).bind fun _ => (takes_char '-').bind fun _ =>
      (takes_times 2).bind fun _ => Pattern.Takes.look _).mono ?_
  rintro l _ ⟨_, _, _, rfl, rfl, y, _, _, rfl, hy, _, _, _, rfl, rfl, m, _, _, rfl, hm, _, _, _,
    rfl, rfl, d, _, _, rfl, hd, rfl⟩
  exact ⟨y, m, d, by simp, hy.1, hm, hd⟩

end Takes

section
variable {s : List Char} {since : Date}

/-- What is accepted is a date written in digits of any script. -/
theorem map_ascii_of_accepted (hshape : (ymdPattern.first (.start s)).isSome)
    (h : strptimeDate s = some since) : s.map ascii = ymd since ∧ since.year < 10 ^ 4 := by
  obtain ⟨⟨y, m, d⟩, hwhole, hdate⟩ := Option.bind_eq_some_iff.mp h
  obtain ⟨ly, lm, ld, htext, ⟨hyear, hylen, hy⟩, ⟨hmlen, hm⟩, ⟨hdlen, hd⟩⟩ :=
    kind_of_whole takes_date hwhole
  obtain ⟨x, hx⟩ := Option.isSome_iff_exists.mp hshape
  obtain ⟨_, hs', -, ly', lm', ld', rfl, hylen', ⟨hmlen', hmspace⟩, hdlen', hdspace'⟩ :=
    takes_ymd _ _ _ (mem_of_first hx)
  have htext' : s = ly' ++ '-' :: (lm' ++ '-' :: (ld' ++ x.2.rest)) := by
    refine hs'.trans ?_
    simp only [List.append_assoc, List.cons_append]
  have hlen := congrArg List.length (htext.symm.trans htext')
  simp only [List.length_append, List.length_cons] at hlen
  obtain ⟨rfl, hrest⟩ := List.append_inj (htext.symm.trans htext') (hylen.trans hylen'.symm)
  obtain ⟨rfl, hrest'⟩ := List.append_inj (List.cons.inj hrest).2 (by omega)
  have hdlen : ld.length = 2 := by
    rw [(List.cons.inj hrest').2, List.length_append] at hdlen ⊢
    omega
  have hdspace : ' ' ∉ ld := by
    rw [(List.cons.inj hrest').2, List.length_append] at hdlen
    rw [(List.cons.inj hrest').2, List.length_eq_zero_iff.mp (show x.2.rest.length = 0 by omega),
      List.append_nil]
    exact hdspace'
  unfold date? at hdate
  split_ifs at hdate
  obtain rfl := Option.some.inj hdate
  refine ⟨?_, hyear⟩
  rw [htext, List.map_append, List.map_cons, List.map_append, List.map_cons, hy, hm hmlen' hmspace,
    hd hdlen hdspace]
  rfl

theorem ymd_ascii {c : Char} (h : c ∈ ymd since) : c.toNat < 128 := by
  rcases mem_ymd h with h | rfl
  · have := toNat_of_isDigit h
    omega
  · decide

end

/-- A date that is accepted orders the stored dates just if its digits are those of ASCII. -/
theorem ensureYmd_orders_iff (repr : String → String) (s field : String) (since : Date)
    (hok : ensureYmd repr s field = .ok s) (hsince : strptimeDate s.toList = some since) :
    (∀ d : Date, d.year < 10 ^ 4 → (admits s (dateText d) = true ↔ since ≤ d)) ↔
      ∀ c ∈ s.toList, c.toNat < 128 := by
  have hshape : (ymdPattern.first (.start s.toList)).isSome := by
    unfold ensureYmd at hok
    split_ifs at hok with hempty hshape
    · rw [hempty] at hsince
      cases hsince
    · exact hshape.1
  obtain ⟨htext, hyear⟩ := map_ascii_of_accepted hshape hsince
  have hascii := map_ascii_eq_self_iff (htext ▸ fun c hc => ymd_ascii hc : ∀ c ∈ s.toList.map ascii, _)
  simp only [admits, decide_eq_true_eq]
  rw [← hascii, htext]
  constructor
  · intro h
    have hle : s.toList ≤ ymd since := by
      rw [← String.toList_ofList (l := ymd since), ← String.le_iff_toList_le]
      exact (h since hyear).mpr le_rfl
    exact le_antisymm (htext ▸ map_ascii_le s.toList) hle
  · intro heq d hd
    have hs : s = dateText since := by rw [dateText, heq, String.ofList_toList]
    rw [hs]
    exact dateText_le_iff hyear hd

theorem ensureYmd_orders_july :
    ensureYmd id "2026-07-13" "since" = .ok "2026-07-13" ∧
      ∀ d : Date, d.year < 10 ^ 4 → (admits "2026-07-13" (dateText d) = true ↔
        ⟨2026, 7, 13, by decide, by decide, by decide⟩ ≤ d) := by
  have hok : ensureYmd id "2026-07-13" "since" = .ok "2026-07-13" :=
    (if_neg (by decide)).trans (if_pos (by decide +kernel))
  refine ⟨hok, (ensureYmd_orders_iff id "2026-07-13" "since" _ hok (by decide +kernel)).mpr ?_⟩
  decide +kernel

/-- An Arabic digit is accepted, and all of the next year is filtered out. -/
theorem ensureYmd_arabic_digit :
    ensureYmd id "202٤-01-01" "since" = .ok "202٤-01-01" ∧
      strptimeDate "202٤-01-01".toList = some ⟨2024, 1, 1, by decide, by decide, by decide⟩ ∧
      ¬∀ d : Date, d.year < 10 ^ 4 → (admits "202٤-01-01" (dateText d) = true ↔
        ⟨2024, 1, 1, by decide, by decide, by decide⟩ ≤ d) := by
  refine ⟨(if_neg (by decide)).trans (if_pos (by decide +kernel)), by decide +kernel, fun h => ?_⟩
  have hnext := h ⟨2025, 1, 1, by decide, by decide, by decide⟩ (by decide)
  exact absurd hnext (by decide +kernel)

end Chic.Helpers
