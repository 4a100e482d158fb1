import Chic.Guardrail

namespace Chic.Guardrail
open Backtrack PyText

/-- What `_STRIP_RE` matches: code between backticks, a link, a date with dashes, a date with dots. -/
inductive Stripped : List Char → Prop
  | code {l : List Char} (hhead : l.head? = some '`') (hlast : l.getLast? = some '`') : Stripped l
  | link {l : List Char} (hhead : l.head? = some 'h') (hspace : ∀ c ∈ l, isSpace c = false) : Stripped l
  | isoTime {u v : List Char} (hne : u ≠ []) (hu : ∀ c ∈ u, isDigit c = true) (hne' : v ≠ [])
    (hv : ∀ c ∈ v, isDigit c = true ∨ c ∈ ['-', ' ', 'T', ':']) : Stripped (u ++ '-' :: v)
  | dotDate {u v t : List Char} (hne : u ≠ []) (hu : ∀ c ∈ u, isDigit c = true) (hne' : v ≠ [])
    (hv : ∀ c ∈ v, isDigit c = true) (hne'' : t ≠ []) (ht : ∀ c ∈ t, isDigit c = true) :
    Stripped (u ++ '.' :: (v ++ '.' :: t))

section
open Pattern

theorem takes_fenced : fenced.Takes fun l _ => Stripped l := by
  refine (Takes.bind (Takes.lit _) fun _ => Takes.bind (Within.manyLazy closed_true (.one fun _ _ =>
    trivial)) fun _ => Takes.lit _).mono ?_
  rintro l u ⟨l₁, l₂, a, rfl, rfl, l₃, l₄, b, rfl, -, rfl⟩
  exact .code rfl (by rw [← List.append_assoc, List.getLast?_append_of_ne_nil _ (by simp)]; rfl)

theorem takes_inlineCode : inlineCode.Takes fun l _ => Stripped l := by
  refine (Takes.bind (Takes.lit _) fun _ => Takes.bind (Within.many closed_true (.one fun _ _ =>
    trivial)) fun _ => Takes.lit _).mono ?_
  rintro l u ⟨l₁, l₂, a, rfl, rfl, l₃, l₄, b, rfl, -, rfl⟩
  exact .code rfl (by rw [← List.append_assoc, List.getLast?_append_of_ne_nil _ (by simp)]; rfl)

theorem takes_url (w : WordClass) : (url w).Takes fun l _ => Stripped l := by
  have hspace : Closed fun l : List Char => ∀ c ∈ l, isSpace c = false :=
    closed_all fun c => isSpace c = false
  have hlit : ∀ l : List Char, (∀ c ∈ l, isSpace c = false) →
      (lit l).Within fun l => ∀ c ∈ l, isSpace c = false := fun l hl =>
    (Takes.lit l).mono fun l' _ heq => heq ▸ hl
  have hnext : (Pattern.one fun c => !isSpace c).Within fun l => ∀ c ∈ l, isSpace c = false :=
    .one fun c hc => by simpa using hc
  refine (Takes.bind (Takes.look _) fun _ => Takes.bind (Takes.lit _) fun _ => Takes.bind
    (Within.opt hspace (hlit ['s'] (by decide))) fun _ => Takes.bind (Takes.lit _) fun _ =>
      Within.map _ (Within.many1 hspace hnext)).mono ?_
  rintro l u ⟨l₀, l₁, -, rfl, rfl, l₂, l₃, -, rfl, rfl, l₄, l₅, -, rfl, h₄, l₆, l₇, -, rfl, rfl, h₇⟩
  refine .link rfl fun c hc => ?_
  simp only [List.nil_append, List.mem_append] at hc
  rcases hc with hc | hc | hc | hc
  · exact (by decide : ∀ c ∈ ['h', 't', 't', 'p'], isSpace c = false) c hc
  · exact h₄ c hc
  · exact (by decide : ∀ c ∈ [':', '/', '/'], isSpace c = false) c hc
  · exact h₇ c hc

theorem closed_digits : Closed fun l : List Char => ∀ c ∈ l, isDigit c = true :=
  closed_all fun c => isDigit c = true

theorem within_digit : (Pattern.one isDigit).Within fun l => ∀ c ∈ l, isDigit c = true :=
  .one fun c hc => by simpa using hc

theorem takes_digits (n : ℕ) :
    (digits (n + 1)).Takes fun l _ => l ≠ [] ∧ ∀ c ∈ l, isDigit c = true := by
  have hne : (digits (n + 1)).Proper := by
    have htimes : ((Pattern.one isDigit).times (n + 1)).Proper :=
      .bind_left (.one _) fun _ => .bind closed_true (.times closed_true (.one fun _ _ => trivial) n)
        fun _ => .pure closed_true _
    exact .map _ htimes
  exact Takes.and hne (Within.map _ (Within.times closed_digits within_digit _))

theorem takes_oneOrTwo : oneOrTwo.Takes fun l _ => l ≠ [] ∧ ∀ c ∈ l, isDigit c = true := by
  have hne : oneOrTwo.Proper :=
    .bind_left (.one _) fun _ => .map _ (.opt closed_true (.one fun _ _ => trivial))
  exact Takes.and hne (Within.bind closed_digits within_digit fun _ =>
    Within.map _ (Within.opt closed_digits within_digit))

def timePattern : Pattern Char (Option Unit) := do
  let _ ← Pattern.one fun c => c = ' ' ∨ c = 'T'
  let _ ← digits 2
  let _ ← Pattern.lit [':']
  let _ ← digits 2
  Pattern.opt do
    let _ ← Pattern.lit [':']
    digits 2

def afterYear : Pattern Char Unit := do
  let _ ← digits 2
  let _ ← Pattern.lit ['-']
  let _ ← digits 2
  (fun _ => ()) <$> timePattern.opt

def IsTime (l : List Char) : Prop := ∀ c ∈ l, isDigit c = true ∨ c ∈ ['-', ' ', 'T', ':']

theorem closed_isTime : Closed IsTime := closed_all fun c => isDigit c = true ∨ c ∈ ['-', ' ', 'T', ':']

theorem within_digits (n : ℕ) : (digits (n + 1)).Within IsTime :=
  (takes_digits n).mono fun _ _ hl c hc => .inl (hl.2 c hc)

theorem within_lit {c : Char} (h : c ∈ ['-', ' ', 'T', ':']) : (lit [c]).Within IsTime :=
  (Takes.lit [c]).mono fun _ _ heq _ hx => .inr (List.mem_singleton.mp (heq ▸ hx) ▸ h)

theorem within_time : timePattern.Within IsTime := by
  have hblank : (Pattern.one fun c => decide (c = ' ' ∨ c = 'T')).Within IsTime := by
    refine .one fun c hc x hx => .inr ?_
    rw [List.mem_singleton.mp hx]
    rcases of_decide_eq_true hc with rfl | rfl <;> decide
  have hsecond : (do
      let _ ← Pattern.lit [':']
      digits 2 : Pattern Char Unit).Within IsTime :=
    .bind closed_isTime (within_lit (by decide)) fun _ => within_digits 1
  exact .bind closed_isTime hblank fun _ => .bind closed_isTime (within_digits 1) fun _ =>
    .bind closed_isTime (within_lit (by decide)) fun _ => .bind closed_isTime (within_digits 1) fun _ =>
      .opt closed_isTime hsecond

theorem takes_afterYear : afterYear.Takes fun l _ => l ≠ [] ∧ IsTime l := by
  have hwithin : afterYear.Within IsTime :=
    .bind closed_isTime (within_digits 1) fun _ => .bind closed_isTime (within_lit (by decide)) fun _ =>
      .bind closed_isTime (within_digits 1) fun _ => .map _ (.opt closed_isTime within_time)
  have hproper : afterYear.Proper := by
    refine Proper.bind_left ((takes_digits 1).mono fun _ _ hl => hl.1) fun _ => ?_
    exact .bind closed_true ((Takes.lit _).mono fun _ _ _ => trivial) fun _ =>
      .bind closed_true ((takes_digits 1).mono fun _ _ _ => trivial) fun _ =>
        .map _ (.opt closed_true (within_time.mono fun _ _ _ => trivial))
  exact Takes.and hproper hwithin

theorem takes_isoTime : isoTime.Takes fun l _ => Stripped l := by
  have hiso : isoTime = (do
      let _ ← digits 4
      let _ ← Pattern.lit ['-']
      afterYear) := rfl
  rw [hiso]
  refine (Takes.bind (takes_digits 3) fun _ => Takes.bind (Takes.lit ['-']) fun _ =>
    takes_afterYear).mono ?_
  rintro l u ⟨l₁, l₂, -, rfl, ⟨hne, hu⟩, l₃, l₄, -, rfl, rfl, hne', hv⟩
  exact .isoTime hne hu hne' hv

theorem takes_dotDate : dotDate.Takes fun l _ => Stripped l := by
  refine (Takes.bind takes_oneOrTwo fun _ => Takes.bind (Takes.lit ['.']) fun _ =>
    Takes.bind takes_oneOrTwo fun _ => Takes.bind (Takes.lit ['.']) fun _ => takes_digits 3).mono ?_
  rintro l u ⟨l₁, l₂, -, rfl, ⟨hne, hu⟩, l₃, l₄, -, rfl, rfl, l₅, l₆, -, rfl, ⟨hne', hv⟩, l₇, l₈, -,
    rfl, rfl, hne'', ht⟩
  exact .dotDate hne hu hne' hv hne'' ht

theorem takes_strip (w : WordClass) : (stripPattern w).Takes fun l _ => Stripped l :=
  .or takes_fenced <| .or takes_inlineCode <| .or (takes_url w) <| .or takes_isoTime takes_dotDate

end

/-- Every span has one of these characters. -/
theorem Stripped.exists_mark {l : List Char} (h : Stripped l) : ∃ c ∈ l, c ∈ ['`', 'h', '-', '.'] := by
  cases h with
  | code hhead _ => exact ⟨'`', List.mem_of_mem_head? hhead, by decide⟩
  | link hhead _ => exact ⟨'h', List.mem_of_mem_head? hhead, by decide⟩
  | isoTime _ _ _ _ => exact ⟨'-', by simp, by decide⟩
  | dotDate _ _ _ _ _ _ => exact ⟨'.', by simp, by decide⟩

theorem Stripped.ne_nil {l : List Char} (h : Stripped l) : l ≠ [] := by
  obtain ⟨c, hc, -⟩ := h.exists_mark
  exact List.ne_nil_of_mem hc

theorem proper_strip (w : WordClass) : (stripPattern w).Proper :=
  (takes_strip w).mono fun _ _ hl => hl.ne_nil

/-- Where none of them is nothing is stripped. -/
theorem cleaned_eq_self {w : WordClass} {text : List Char}
    (h : ∀ c ∈ text, c ∉ ['`', 'h', '-', '.']) : cleaned w text = text := by
  refine sub_eq_self (List.eq_nil_iff_forall_not_mem.mpr fun m hm => ?_) ' '
  obtain ⟨x, hx, hright⟩ := List.mem_filterMap.mp hm
  obtain rfl := Sum.getRight?_eq_some_iff.mp hright
  obtain ⟨⟨t, hrest, -⟩, hfirst⟩ := mem_scan (proper_strip w) hx
  obtain ⟨l, htake, -, hl⟩ := takes_strip w _ _ _ (mem_of_first hfirst)
  obtain ⟨c, hc, hmark⟩ := hl.exists_mark
  refine h c ?_ hmark
  rw [show text = t ++ m.start.rest from hrest, htake]
  exact List.mem_append_right _ (List.mem_append_left _ hc)

end Chic.Guardrail
