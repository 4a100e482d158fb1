import Mathlib.Data.String.Basic
import Chic.Backtrack
import Chic.Calendar
import Chic.PyText

namespace Chic.PyTime
open Backtrack Calendar PyText

def decimals : (w n : ℕ) → List Char
  | 0, _ => []
  | w + 1, n => decimals w (n / 10) ++ [Nat.digitChar (n % 10)]

/-- A date under `%Y-%m-%d`, for the years of four digits. -/
def ymd (d : Date) : List Char :=
  decimals 4 d.year ++ '-' :: (decimals 2 d.month ++ '-' :: decimals 2 d.day)

def dateText (d : Date) : String := String.ofList (ymd d)

/-- `\d` -/
def digit : Pattern Char ℕ := .read decimalDigit?

/-- `[a-b]`, two of the digits of ASCII. -/
def range (a b : ℕ) : Pattern Char ℕ :=
  .read fun c => if a + 48 ≤ c.toNat ∧ c.toNat ≤ b + 48 then some (c.toNat - 48) else none

def char (c : Char) : Pattern Char Unit := .read fun x => if x = c then some () else none

def two (tens ones : Pattern Char ℕ) : Pattern Char ℕ := do
  let m ← tens
  let n ← ones
  return 10 * m + n

/-- `%Y`, `\d\d\d\d` -/
def year : Pattern Char ℕ := do
  let m ← two digit digit
  let n ← two digit digit
  return 100 * m + n

/-- `%m`, `1[0-2]|0[1-9]|[1-9]` -/
def month : Pattern Char ℕ :=
  (two (range 1 1) (range 0 2)).or <| (two (range 0 0) (range 1 9)).or (range 1 9)

/-- `%d`, `3[0-1]|[1-2]\d|0[1-9]|[1-9]| [1-9]` -/
def day : Pattern Char ℕ :=
  (two (range 3 3) (range 0 1)).or <| (two (range 1 2) digit).or <|
    (two (range 0 0) (range 1 9)).or <| (range 1 9).or do
      let _ ← char ' '
      range 1 9

/-- `%Y-%m-%d` -/
def dateFormat : Pattern Char (ℕ × ℕ × ℕ) := do
  let y ← year
  let _ ← char '-'
  let m ← month
  let _ ← char '-'
  let d ← day
  return (y, m, d)

/-- What `strptime` reads: the first match, which has to take the whole text. -/
def whole {α : Type} (format : Pattern Char α) (s : List Char) : Option α :=
  match format.first (.start s) with
  | some (a, ⟨_, []⟩) => some a
  | _ => none

def date? (f : ℕ × ℕ × ℕ) : Option Date :=
  if h : 1 ≤ f.1 ∧ (1 ≤ f.2.1 ∧ f.2.1 ≤ 12) ∧ 1 ≤ f.2.2 ∧ f.2.2 ≤ daysInMonth f.1 f.2.1 then
    some ⟨f.1, f.2.1, f.2.2, h.1, h.2.1, h.2.2⟩
  else none

/-- `strptime(s, "%Y-%m-%d")`; `none` is the `ValueError`. -/
def strptimeDate (s : List Char) : Option Date := (whole dateFormat s).bind date?

/-- `%H`, `2[0-3]|[0-1]\d|\d` -/
def hour : Pattern Char ℕ := (two (range 2 2) (range 0 3)).or <| (two (range 0 1) digit).or digit

/-- `%M`, `[0-5]\d|\d` -/
def minute : Pattern Char ℕ := (two (range 0 5) digit).or digit

/-- `%S`, `6[0-1]|[0-5]\d|\d` -/
def second : Pattern Char ℕ := (two (range 6 6) (range 0 1)).or <| (two (range 0 5) digit).or digit

/-- `\s` -/
def space : Pattern Char Unit := .read fun c => if isSpace c then some () else none

def clockFormat : Pattern Char (ℕ × ℕ × ℕ) := do
  let h ← hour
  let _ ← char ':'
  let m ← minute
  let _ ← char ':'
  let s ← second
  return (h, m, s)

/-- `%Y-%m-%d %H:%M:%S`; a blank of a format stands for `\s+`. -/
def momentFormat : Pattern Char ((ℕ × ℕ × ℕ) × ℕ × ℕ × ℕ) := do
  let date ← dateFormat
  let _ ← space.many1
  let time ← clockFormat
  return (date, time)

/-- Microseconds of a naive timestamp. -/
def instant (d : Date) (h m s : ℕ) : ℤ :=
  (((d.toOrdinal * 24 + h : ℤ) * 60 + m) * 60 + s) * 1000000

/-- `strptime(s, "%Y-%m-%d %H:%M:%S")`; there are no leap seconds. -/
def strptimeMoment (s : List Char) : Option ℤ :=
  (whole momentFormat s).bind fun f =>
    if f.2.2.2 < 60 then (date? f.1).map fun d => instant d f.2.1 f.2.2.1 f.2.2.2 else none

def clock (h m s : ℕ) : List Char :=
  decimals 2 h ++ ':' :: (decimals 2 m ++ ':' :: decimals 2 s)

def momentText (d : Date) (h m s : ℕ) : List Char := ymd d ++ ' ' :: clock h m s

section Digits
variable {a b n : ℕ}

theorem digitChar_lt (h : a < b) (hb : b < 10) : Nat.digitChar a < Nat.digitChar b := by
  change (Nat.digitChar a).toNat < (Nat.digitChar b).toNat
  rw [Nat.toNat_digitChar_of_lt_ten (h.trans hb), Nat.toNat_digitChar_of_lt_ten hb]
  omega

theorem isDigit_digitChar (h : n < 10) : (Nat.digitChar n).isDigit = true := by
  rw [Nat.isDigit_digitChar, decide_eq_true h]

theorem decimalDigit?_digitChar (h : n < 10) : decimalDigit? (Nat.digitChar n) = some n := by
  rw [decimalDigit?_of_isDigit (isDigit_digitChar h), Nat.toNat_digitChar_of_lt_ten h,
    Nat.add_sub_cancel_left]

theorem length_decimals (w n : ℕ) : (decimals w n).length = w := by
  induction w generalizing n with
  | zero => rfl
  | succ w ih => rw [decimals, List.length_append, ih, List.length_singleton]

theorem isDigit_of_mem_decimals {w : ℕ} {c : Char} (h : c ∈ decimals w n) : c.isDigit = true := by
  induction w generalizing n with
  | zero => cases h
  | succ w ih =>
    rcases List.mem_append.mp h with h | h
    · exact ih h
    · rw [List.mem_singleton.mp h]
      exact isDigit_digitChar (Nat.mod_lt n (by decide))

theorem decimals_two (ha : a < 10) (hb : b < 10) :
    decimals 2 (10 * a + b) = [Nat.digitChar a, Nat.digitChar b] := by
  rw [decimals, decimals, decimals, show (10 * a + b) / 10 = a by omega,
    show (10 * a + b) % 10 = b by omega, Nat.mod_eq_of_lt ha]
  rfl

theorem decimals_four (m : ℕ) {n : ℕ} (hn : n < 100) :
    decimals 4 (100 * m + n) = decimals 2 m ++ decimals 2 n := by
  simp only [decimals, List.nil_append, List.cons_append]
  rw [show (100 * m + n) / 10 / 10 = m by omega, show (100 * m + n) / 10 % 10 = n / 10 % 10 by omega,
    show (100 * m + n) % 10 = n % 10 by omega]

/-- Numerals of one width compare as the numbers do, whatever follows. -/
theorem decimals_append_lt {w m : ℕ} (h : m < n) (hn : n < 10 ^ w) (s t : List Char) :
    decimals w m ++ s < decimals w n ++ t := by
  induction w generalizing m n s t with
  | zero => exact absurd h (by omega)
  | succ w ih =>
    rw [decimals, decimals, List.append_assoc, List.append_assoc]
    rcases Nat.lt_or_ge (m / 10) (n / 10) with hlt | hge
    · exact ih hlt (Nat.div_lt_of_lt_mul (by rwa [Nat.pow_succ'] at hn)) _ _
    · rw [show m / 10 = n / 10 by omega]
      refine List.append_left_lt (List.cons_lt_cons_iff.mpr (.inl ?_))
      exact digitChar_lt (by omega) (Nat.mod_lt n (by decide))

end Digits

section Order
variable {d d' : Date}

theorem day_le (d : Date) : d.day ≤ 31 := by
  refine d.day_mem.2.trans ?_
  unfold daysInMonth
  split_ifs <;> decide

theorem ymd_lt_ymd (hyear : d'.year < 10 ^ 4) (h : d < d') : ymd d < ymd d' := by
  have hmonth : d'.month < 10 ^ 2 := lt_of_le_of_lt d'.month_mem.2 (by decide)
  have hday : d'.day < 10 ^ 2 := lt_of_le_of_lt (day_le d') (by decide)
  unfold ymd
  rcases Date.lt_iff.mp h with hlt | ⟨heq, hlt | ⟨heq', hlt⟩⟩
  · exact decimals_append_lt hlt hyear _ _
  · rw [heq]
    refine List.append_left_lt (List.cons_lt_cons_self.mpr ?_)
    exact decimals_append_lt hlt hmonth _ _
  · rw [heq, heq']
    refine List.append_left_lt (List.cons_lt_cons_self.mpr ?_)
    refine List.append_left_lt (List.cons_lt_cons_self.mpr ?_)
    rw [← List.append_nil (decimals 2 d.day), ← List.append_nil (decimals 2 d'.day)]
    exact decimals_append_lt hlt hday _ _

/-- The texts of dates are in the order of the dates. -/
theorem ymd_le_ymd_iff (hd : d.year < 10 ^ 4) (hd' : d'.year < 10 ^ 4) :
    ymd d ≤ ymd d' ↔ d ≤ d' := by
  constructor
  · intro h
    by_contra hlt
    exact absurd h (not_le.mpr (ymd_lt_ymd hd (not_le.mp hlt)))
  · intro h
    rcases h.eq_or_lt with heq | hlt
    · rw [heq]
    · exact (ymd_lt_ymd hd' hlt).le

theorem dateText_le_iff (hd : d.year < 10 ^ 4) (hd' : d'.year < 10 ^ 4) :
    dateText d ≤ dateText d' ↔ d ≤ d' := by
  rw [String.le_iff_toList_le, dateText, dateText, String.toList_ofList, String.toList_ofList]
  exact ymd_le_ymd_iff hd hd'

theorem mem_ymd {c : Char} (h : c ∈ ymd d) : c.isDigit = true ∨ c = '-' := by
  simp only [ymd, List.mem_append, List.mem_cons] at h
  rcases h with h | h | h | h | h
  · exact .inl (isDigit_of_mem_decimals h)
  · exact .inr h
  · exact .inl (isDigit_of_mem_decimals h)
  · exact .inr h
  · exact .inl (isDigit_of_mem_decimals h)

theorem isSpace_of_mem_ymd {c : Char} (h : c ∈ ymd d) : isSpace c = false := by
  rcases mem_ymd h with h | rfl
  · exact isSpace_of_isDigit h
  · decide

theorem not_mem_ymd {c : Char} (hdigit : c.isDigit = false) (hdash : c ≠ '-') : c ∉ ymd d := by
  intro h
  rcases mem_ymd h with h | h
  · rw [hdigit] at h
    cases h
  · exact hdash h

theorem length_ymd (d : Date) : (ymd d).length = 10 := by
  simp [ymd, length_decimals]

end Order

section Read
variable {a b n : ℕ} {r s : Pattern Char ℕ} {d : Date}

theorem reads_digit (h : n < 10) : digit.Reads [Nat.digitChar n] n :=
  .read (decimalDigit?_digitChar h)

theorem reads_char (c : Char) : (char c).Reads [c] () := .read (if_pos rfl)

theorem reads_range (ha : a ≤ n) (hb : n ≤ b) (h : n < 10) :
    (range a b).Reads [Nat.digitChar n] n := by
  refine .read ?_
  rw [Nat.toNat_digitChar_of_lt_ten h, if_pos (by omega), Nat.add_sub_cancel_left]

theorem fails_range {l : List Char} (hab : n < a ∨ b < n) (h : n < 10) :
    (range a b).Fails (Nat.digitChar n :: l) := by
  refine .read ?_
  rw [Nat.toNat_digitChar_of_lt_ten h, if_neg (by omega)]

theorem reads_two {m : ℕ} {c c' : Char} (hr : r.Reads [c] m) (hs : s.Reads [c'] n) :
    (two r s).Reads [c, c'] (10 * m + n) :=
  hr.bind (hs.bind_pure fun n => 10 * m + n)

theorem exists_digits (h : n < 100) : ∃ a b, n = 10 * a + b ∧ a < 10 ∧ b < 10 ∧
    decimals 2 n = [Nat.digitChar a, Nat.digitChar b] := by
  refine ⟨n / 10, n % 10, by omega, by omega, by omega, ?_⟩
  rw [← decimals_two (by omega) (by omega), Nat.div_add_mod]

theorem reads_twoDigits (h : n < 100) : (two digit digit).Reads (decimals 2 n) n := by
  obtain ⟨a, b, rfl, ha, hb, hn⟩ := exists_digits h
  rw [hn]
  exact reads_two (reads_digit ha) (reads_digit hb)

theorem reads_year (h : n < 10 ^ 4) : year.Reads (decimals 4 n) n := by
  have hread : year.Reads (decimals 2 (n / 100) ++ decimals 2 (n % 100))
      (100 * (n / 100) + n % 100) :=
    (reads_twoDigits (by omega)).bind
      ((reads_twoDigits (by omega)).bind_pure fun k => 100 * (n / 100) + k)
  rwa [← decimals_four _ (Nat.mod_lt n (by decide)), Nat.div_add_mod] at hread

theorem reads_month (h : 1 ≤ n ∧ n ≤ 12) : month.Reads (decimals 2 n) n := by
  obtain ⟨a, b, rfl, ha, hb, hn⟩ := exists_digits (n := n) (by omega)
  rw [hn]
  rcases Nat.lt_or_ge 0 a with hpos | hzero
  · exact (reads_two (reads_range (by omega) (by omega) ha)
      (reads_range (by omega) (by omega) hb)).or_left
  · exact .or_right (Pattern.Fails.bind (fails_range (by omega) ha))
      (reads_two (reads_range (by omega) (by omega) ha)
        (reads_range (by omega) (by omega) hb)).or_left

theorem reads_day (h : 1 ≤ n ∧ n ≤ 31) : day.Reads (decimals 2 n) n := by
  obtain ⟨a, b, rfl, ha, hb, hn⟩ := exists_digits (n := n) (by omega)
  rw [hn]
  rcases Nat.lt_trichotomy a 3 with hlt | rfl | hgt
  · refine .or_right (Pattern.Fails.bind (fails_range (by omega) ha)) ?_
    rcases Nat.lt_or_ge 0 a with hpos | hzero
    · exact (reads_two (reads_range (by omega) (by omega) ha) (reads_digit hb)).or_left
    · exact .or_right (Pattern.Fails.bind (fails_range (by omega) ha))
        (reads_two (reads_range (by omega) (by omega) ha)
          (reads_range (by omega) (by omega) hb)).or_left
  · exact (reads_two (reads_range le_rfl le_rfl ha) (reads_range (by omega) (by omega) hb)).or_left
  · omega

theorem reads_date (h : d.year < 10 ^ 4) :
    dateFormat.Reads (ymd d) (d.year, d.month, d.day) :=
  (reads_year h).bind <| (reads_char '-').bind <| (reads_month d.month_mem).bind <|
    (reads_char '-').bind <|
      (reads_day ⟨d.day_mem.1, day_le d⟩).bind_pure fun n => (d.year, d.month, n)

theorem reads_below (ha : a ≤ 9) (h : n < 10 * (a + 1)) :
    (two (range 0 a) digit).Reads (decimals 2 n) n := by
  obtain ⟨t, u, rfl, ht, hu, hn⟩ := exists_digits (n := n) (by omega)
  rw [hn]
  exact reads_two (reads_range (Nat.zero_le t) (by omega) ht) (reads_digit hu)

theorem reads_hour (h : n < 24) : hour.Reads (decimals 2 n) n := by
  obtain ⟨a, b, rfl, ha, hb, hn⟩ := exists_digits (n := n) (by omega)
  rw [hn]
  rcases Nat.lt_or_ge a 2 with hlt | hge
  · exact .or_right (Pattern.Fails.bind (fails_range (by omega) ha))
      (reads_two (reads_range (by omega) (by omega) ha) (reads_digit hb)).or_left
  · exact (reads_two (reads_range hge (by omega) ha) (reads_range (by omega) (by omega) hb)).or_left

theorem reads_minute (h : n < 60) : minute.Reads (decimals 2 n) n :=
  (reads_below (by decide) h).or_left

theorem reads_second (h : n < 60) : second.Reads (decimals 2 n) n := by
  refine .or_right ?_ (reads_below (by decide) h).or_left
  obtain ⟨a, b, rfl, ha, hb, hn⟩ := exists_digits (n := n) (by omega)
  rw [hn]
  exact Pattern.Fails.bind (fails_range (by omega) ha)

theorem reads_clock {h m s : ℕ} (hh : h < 24) (hm : m < 60) (hs : s < 60) :
    clockFormat.Reads (clock h m s) (h, m, s) :=
  (reads_hour hh).bind <| (reads_char ':').bind <| (reads_minute hm).bind <|
    (reads_char ':').bind <| (reads_second hs).bind_pure fun k => (h, m, k)

theorem reads_space {α : Type} {f : List Unit → Pattern Char α} {c : Char} {l : List Char} {x : α}
    (hc : isSpace c = false) (hf : (f [()]).Reads (c :: l) x) :
    (space.many1 >>= f).Reads (' ' :: c :: l) x := by
  have hstop : ∀ b rest n, repeated space n ⟨b, c :: rest⟩ = ([], ⟨b, c :: rest⟩) := by
    intro b rest n
    cases n with
    | zero => rfl
    | succ n => simp [repeated, space, Pattern.first, hc]
  intro b rest
  refine (first_bind_some (a := [()]) (q := ⟨' ' :: b, c :: (l ++ rest)⟩) ?_ ?_)
  · refine first_bind_some (a := ()) (q := ⟨' ' :: b, c :: (l ++ rest)⟩) rfl ?_
    refine first_bind_some (a := []) (q := ⟨' ' :: b, c :: (l ++ rest)⟩) ?_ rfl
    rw [first_many, hstop]
  · refine (hf (' ' :: b) rest).trans ?_
    rw [List.reverse_cons (a := ' '), List.append_assoc]
    rfl

theorem reads_moment {h m s : ℕ} (hd : d.year < 10 ^ 4) (hh : h < 24) (hm : m < 60) (hs : s < 60) :
    momentFormat.Reads (momentText d h m s) ((d.year, d.month, d.day), h, m, s) := by
  obtain ⟨a, b, -, ha, -, hab⟩ := exists_digits (n := h) (by omega)
  have hread := (reads_clock hh hm hs).bind_pure fun t => ((d.year, d.month, d.day), t)
  refine (reads_date hd).bind ?_
  rw [clock, hab] at hread ⊢
  exact reads_space (isSpace_of_isDigit (isDigit_digitChar ha)) hread

theorem whole_of_reads {α : Type} {format : Pattern Char α} {l : List Char} {x : α}
    (h : format.Reads l x) : whole format l = some x := by
  have hread := h [] []
  rw [List.append_nil] at hread
  rw [whole, Pos.start, hread]

theorem date?_eq (d : Date) : date? (d.year, d.month, d.day) = some d :=
  dif_pos ⟨d.year_pos, d.month_mem, d.day_mem⟩

/-- `strptime` reads back what `strftime` writes. -/
theorem strptimeDate_ymd (h : d.year < 10 ^ 4) : strptimeDate (ymd d) = some d := by
  rw [strptimeDate, whole_of_reads (reads_date h), Option.bind_some, date?_eq]

theorem strptimeMoment_momentText {h m s : ℕ} (hd : d.year < 10 ^ 4) (hh : h < 24) (hm : m < 60)
    (hs : s < 60) : strptimeMoment (momentText d h m s) = some (instant d h m s) := by
  rw [strptimeMoment, whole_of_reads (reads_moment hd hh hm hs), Option.bind_some, if_pos hs, date?_eq,
    Option.map_some]

end Read

section Letters
variable {α : Type} {r s : Pattern Char ℕ}

/-- No `T` in what is taken. -/
def NoT (r : Pattern Char α) : Prop := r.Within fun l => 'T' ∉ l

theorem closed_noT : Pattern.Closed fun l : List Char => 'T' ∉ l := Pattern.closed_avoid 'T'

theorem noT_read {g : Char → Option α} (h : g 'T' = none) : NoT (.read g) := by
  refine Pattern.Within.read fun x a hx hT => ?_
  rw [← List.mem_singleton.mp hT, h] at hx
  cases hx

theorem noT_two (hr : NoT r) (hs : NoT s) : NoT (two r s) :=
  .bind closed_noT hr fun _ => .bind closed_noT hs fun _ => .pure closed_noT _

theorem noT_digit : NoT digit := noT_read (by decide +kernel)

theorem noT_range {a b : ℕ} (h : b ≤ 9) : NoT (range a b) := by
  refine noT_read (if_neg ?_)
  rw [show 'T'.toNat = 84 from rfl]
  omega

theorem noT_char {c : Char} (h : 'T' ≠ c) : NoT (char c) := noT_read (if_neg h)

theorem noT_date : NoT dateFormat := by
  have htwo : NoT (two digit digit) := noT_two noT_digit noT_digit
  have hyear : NoT year :=
    .bind closed_noT htwo fun _ => .bind closed_noT htwo fun _ => .pure closed_noT _
  have hmonth : NoT month :=
    .or (noT_two (noT_range (by decide)) (noT_range (by decide))) <|
      .or (noT_two (noT_range (by decide)) (noT_range (by decide))) <| noT_range (by decide)
  have hday : NoT day :=
    .or (noT_two (noT_range (by decide)) (noT_range (by decide))) <|
      .or (noT_two (noT_range (by decide)) noT_digit) <|
        .or (noT_two (noT_range (by decide)) (noT_range (by decide))) <|
          .or (noT_range (by decide)) <|
            .bind closed_noT (noT_char (by decide)) fun _ => noT_range (by decide)
  exact .bind closed_noT hyear fun _ => .bind closed_noT (noT_char (by decide)) fun _ =>
    .bind closed_noT hmonth fun _ => .bind closed_noT (noT_char (by decide)) fun _ =>
      .bind closed_noT hday fun _ => .pure closed_noT _

theorem noT_hour : NoT hour :=
  .or (noT_two (noT_range (by decide)) (noT_range (by decide))) <|
    .or (noT_two (noT_range (by decide)) noT_digit) noT_digit

theorem noT_minute : NoT minute := .or (noT_two (noT_range (by decide)) noT_digit) noT_digit

theorem noT_second : NoT second :=
  .or (noT_two (noT_range (by decide)) (noT_range (by decide))) noT_minute

theorem noT_clock : NoT clockFormat :=
  .bind closed_noT noT_hour fun _ => .bind closed_noT (noT_char (by decide)) fun _ =>
    .bind closed_noT noT_minute fun _ => .bind closed_noT (noT_char (by decide)) fun _ =>
      .bind closed_noT noT_second fun _ => .pure closed_noT _

theorem noT_spaces : NoT space.many1 := .many1 closed_noT (noT_read rfl)

theorem noT_moment : NoT momentFormat :=
  .bind closed_noT noT_date fun _ => .bind closed_noT noT_spaces fun _ =>
    .bind closed_noT noT_clock fun _ => .pure closed_noT _

theorem takes_char (c : Char) : (char c).Takes fun l _ => l = [c] := by
  refine (Pattern.Takes.read _).mono ?_
  rintro l _ ⟨x, rfl, hx⟩
  split_ifs at hx with heq
  rw [heq]

theorem takes_clock : clockFormat.Takes fun l _ => 2 ≤ l.count ':' := by
  refine (Pattern.Takes.bind noT_hour fun h => (takes_char ':').bind fun _ =>
    Pattern.Takes.bind noT_minute fun m => (takes_char ':').bind fun _ =>
      Pattern.Takes.bind noT_second fun s => Pattern.Takes.pure (h, m, s)).mono ?_
  rintro l _ ⟨_, _, _, rfl, -, _, _, _, rfl, rfl, _, _, _, rfl, -, _, _, _, rfl, rfl, -⟩
  simp only [List.count_append, List.count_cons_self, List.count_nil]
  omega

theorem takes_moment : momentFormat.Takes fun l _ => 2 ≤ l.count ':' := by
  refine (Pattern.Takes.bind noT_date fun d => Pattern.Takes.bind noT_spaces fun _ =>
    takes_clock.bind fun t => Pattern.Takes.pure (d, t)).mono ?_
  rintro l _ ⟨_, _, _, rfl, -, _, _, _, rfl, -, _, _, _, rfl, hcount, rfl, -⟩
  simp only [List.count_append]
  omega

theorem whole_mem {α : Type} {format : Pattern Char α} {s : List Char} {x : α}
    (h : whole format s = some x) : ∃ b, (x, ⟨b, []⟩) ∈ format (.start s) := by
  unfold whole at h
  split at h
  case h_1 b hfirst =>
    obtain rfl := Option.some.inj h
    exact ⟨b, mem_of_first hfirst⟩
  case h_2 => cases h

theorem kind_of_whole {α : Type} {format : Pattern Char α} {kind : List Char → α → Prop}
    {s : List Char} {x : α} (hformat : format.Takes kind) (h : whole format s = some x) :
    kind s x := by
  obtain ⟨b, hmem⟩ := whole_mem h
  obtain ⟨l, hl, -, hkind⟩ := hformat _ _ _ hmem
  rw [List.append_nil] at hl
  exact (show s = l from hl) ▸ hkind

theorem strptimeMoment_eq_none {kind : List Char → Prop} {s : List Char}
    (hformat : momentFormat.Takes fun l _ => kind l) (h : ¬kind s) : strptimeMoment s = none := by
  unfold strptimeMoment
  cases hwhole : whole momentFormat s with
  | none => rfl
  | some x => exact absurd (kind_of_whole hformat hwhole) h

end Letters

end Chic.PyTime
