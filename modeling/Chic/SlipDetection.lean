import Chic.NumberFormat
import Chic.StripSpans

namespace Chic.Guardrail
open Backtrack

/-- Digits, the last one first, after one of them is changed or two adjacent ones are exchanged. -/
inductive Slip : List ℕ → List ℕ → Prop
  | change (u v : List ℕ) (a : ℕ) {b : ℕ} (hb : b < 10) : Slip (u ++ a :: v) (u ++ b :: v)
  | exchange (u v : List ℕ) (a b : ℕ) : Slip (u ++ a :: b :: v) (u ++ b :: a :: v)

/-- An amount that a slip makes of another. -/
def SlipOf (k m : ℕ) : Prop := ∃ ds, Slip (Nat.digits 10 k) ds ∧ m = Nat.ofDigits 10 ds

/-- Every answer that states the amount `m`, its thousands apart, has it among the unexplained
figures when `k` is known. -/
def Detected (k m : ℕ) : Prop :=
  ∀ (w : WordClass) (answer pre suf : List Char) (sep : Char), isSep sep = true → Opens w pre →
    Closes suf → cleaned w answer = pre ++ (grouped sep m ++ suf) →
      String.ofList (grouped sep m) ∈ (checkAnswer w answer {(k : ℚ)}).unexplained

section Slips
variable {k m : ℕ}

/-- A slip moves an amount by a few units of one decimal place. -/
theorem SlipOf.sub_eq (h : SlipOf k m) : ∃ (c : ℤ) (i : ℕ), (m : ℤ) - k = c * 10 ^ i ∧ |c| < 10 ^ 28 := by
  obtain ⟨ds, hslip, rfl⟩ := h
  have hk : (k : ℤ) = (Nat.ofDigits 10 (Nat.digits 10 k) : ℕ) := by rw [Nat.ofDigits_digits]
  have hdigits : ∀ d ∈ Nat.digits 10 k, d < 10 := fun d => Nat.digits_lt_base (by decide)
  rw [hk]
  generalize Nat.digits 10 k = l at hslip hdigits
  cases hslip with
  | @change u v a b hb =>
    have ha : a < 10 := hdigits a (by simp)
    refine ⟨b - a, u.length, ?_, by rw [abs_lt]; constructor <;> omega⟩
    simp only [Nat.ofDigits_append, Nat.ofDigits_cons]
    push_cast
    ring
  | exchange u v a b =>
    have ha : a < 10 := hdigits a (by simp)
    have hb : b < 10 := hdigits b (by simp)
    refine ⟨9 * (a - b), u.length, ?_, by rw [abs_lt]; constructor <;> omega⟩
    simp only [Nat.ofDigits_append, Nat.ofDigits_cons]
    push_cast
    ring

theorem SlipOf.exact (h : SlipOf k m) : Exact ((m : ℚ) - k) := by
  obtain ⟨c, i, heq, hc⟩ := h.sub_eq
  refine ⟨c, i, ?_, hc⟩
  rw [zpow_natCast]
  exact_mod_cast heq

end Slips

section Tolerance
variable {k m : ℚ}

theorem contextRound_thousandth (hk : 0 ≤ k) :
    contextRound (contextRound |k| * (1 / 1000)) = contextRound k / 1000 := by
  have hexact := (exact_contextRound hk).mul_zpow (-3)
  have hpow : (10 : ℚ) ^ (-3 : ℤ) = 1 / 1000 := by norm_num
  rw [abs_of_nonneg hk, ← hpow, hexact.contextRound_eq, hpow, mul_one_div]

/-- The tolerance is a thousandth of the larger amount. -/
theorem matchesKnown_iff (hk : 1000 ≤ k) (hm : 0 ≤ m) (hexact : Exact (m - k)) :
    matchesKnown m {k} (1 / 1000) 1 = true ↔ 1000 * |m - k| ≤ contextRound (max k m) := by
  have hk0 : 0 ≤ k := by linarith
  have hmax : contextRound (max k m) = max (contextRound k) (contextRound m) := by
    rcases le_total k m with h | h
    · rw [max_eq_right h, max_eq_right (contextRound_mono hk0 h)]
    · rw [max_eq_left h, max_eq_left (contextRound_mono hm h)]
  have hthousand : 1000 ≤ contextRound k := by
    have h1000 : Exact 1000 := ⟨1000, 0, by norm_num, by norm_num⟩
    rw [← h1000.contextRound_eq]
    exact contextRound_mono (by norm_num) hk
  have hone : 1 ≤ max (contextRound k) (contextRound m) / 1000 := by
    rw [le_div_iff₀ (by norm_num), one_mul]
    exact hthousand.trans (le_max_left _ _)
  rw [matchesKnown, decide_eq_true_eq]
  simp only [Finset.mem_singleton, exists_eq_left]
  rw [hexact.contextRound_eq, hexact.abs.contextRound_eq, contextRound_thousandth hk0,
    contextRound_thousandth hm, hmax, max_div_div_right (by norm_num : (0 : ℚ) ≤ 1000),
    max_eq_right hone, le_div_iff₀ (by norm_num), mul_comm]

end Tolerance

def Numeral.amount (sep : Char) (hs : isSep sep = true) (m : ℕ) : Numeral where
  sign := none
  whole := m
  sep := some sep
  fraction := none
  sign_minus := fun _ h => by cases h
  sep_group := fun _ h => Option.some.inj h ▸ hs
  fraction_point := fun _ h => by cases h

section Answers
variable {w : WordClass} {sep : Char} {hs : isSep sep = true} {k m : ℕ}

theorem chars_amount (m : ℕ) : (Numeral.amount sep hs m).chars = grouped sep m := by
  simp [Numeral.chars, Numeral.amount, Numeral.integer]

theorem value_amount (m : ℕ) : (Numeral.amount sep hs m).value = m := by
  simp [Numeral.value, Numeral.abs, Numeral.amount]

def stated (sep : Char) (m : ℕ) (isPercent : Bool) : ParsedNumber where
  value := m
  text := String.ofList (grouped sep m)
  isPercent := isPercent
  grouped := 1000 ≤ m
  fractional := false

theorem parsed_amount (hs : isSep sep = true) (m : ℕ) (b : List Char) (q : Pos Char) :
    parsed ⟨(Numeral.amount sep hs m).figure, ⟨b, (Numeral.amount sep hs m).chars ++ q.rest⟩, q⟩ =
      stated sep m ((q.rest.dropWhile isSep).head? = some '%') := by
  rw [parsed_numeral _ (fun h => by cases h), value_amount, chars_amount]
  simp [stated, Numeral.amount]

theorem isSignificant_stated (m : ℕ) (isPercent : Bool) :
    isSignificant (stated sep m isPercent) 100 = true ↔ isPercent = true ∨ 100 ≤ m := by
  rw [isSignificant]
  by_cases hpercent : isPercent = true
  · simp [stated, hpercent]
  by_cases hgroup : 1000 ≤ m
  · simp only [stated, hgroup, decide_true, or_true, if_true, true_iff]
    omega
  · have hexact : Exact m := exact_natCast (by omega)
    have hyear : ¬((1900 : ℚ) ≤ m) := by
      rw [not_le]
      exact_mod_cast (show m < 1900 by omega)
    simp only [stated, hpercent, hgroup, decide_false, Bool.false_eq_true, or_false, if_false,
      hyear, false_and, and_false]
    rw [decide_eq_true_eq, Nat.abs_cast, hexact.contextRound_eq, false_or]
    norm_cast

theorem mem_unexplained_iff {answer : List Char} {known : Finset ℚ} {t : String} :
    t ∈ (checkAnswer w answer known).unexplained ↔ ∃ pn ∈ extractNumbers w answer,
      isSignificant pn 100 = true ∧ matchesKnown pn.value known (1 / 1000) 1 = false ∧ pn.text = t := by
  have hlist : (checkAnswer w answer known).unexplained =
      (((extractNumbers w answer).filter (isSignificant · 100)).filter
        fun pn => !matchesKnown pn.value known (1 / 1000) 1).map (·.text) := by
    simp only [checkAnswer]
  simp only [hlist, List.mem_map, List.mem_filter, Bool.not_eq_true', and_assoc]

theorem matches_slip_iff (hk : 1000 ≤ k) (h : SlipOf k m) :
    matchesKnown m {(k : ℚ)} (1 / 1000) 1 = true ↔ 1000 * |(m : ℚ) - k| ≤ contextRound (max k m) :=
  matchesKnown_iff (by exact_mod_cast hk) (Nat.cast_nonneg m) h.exact

theorem cleaned_grouped (hs : isSep sep = true) (m : ℕ) : cleaned w (grouped sep m) = grouped sep m := by
  refine cleaned_eq_self fun c hc => ?_
  obtain ⟨run, groups, heq, -, -, hdigit, hgroup, -⟩ := exists_groups hs m
  have hchars : isDigit c = true ∨ isSep c = true := by
    rw [heq] at hc
    rcases List.mem_append.mp hc with hc | hc
    · exact .inl (hdigit c hc)
    · obtain ⟨g, hg, hc⟩ := List.mem_flatten.mp hc
      obtain ⟨s, ds, rfl, hs, -, hds⟩ := hgroup g hg
      rcases List.mem_cons.mp hc with rfl | hc
      · exact .inr hs
      · exact .inl (hds c hc)
  intro hmark
  have hall : ∀ c ∈ ['`', 'h', '-', '.'], isDigit c = false ∧ isSep c = false := by decide +kernel
  obtain ⟨hdigit, hsep⟩ := hall c hmark
  rw [hdigit, hsep] at hchars
  cases hchars with
  | inl h => cases h
  | inr h => cases h

theorem extractNumbers_grouped (w : WordClass) (hs : isSep sep = true) (m : ℕ) :
    extractNumbers w (grouped sep m) = [stated sep m false] := by
  have hclose : Closes ([] : List Char) := ⟨by simp, by simp, by simp⟩
  have hfirst : (numberPattern w).first (.start (grouped sep m)) =
      some ((Numeral.amount sep hs m).figure, ⟨(grouped sep m).reverse, []⟩) := by
    have hfigure := figureAt_numeral (Numeral.amount sep hs m) hclose
    rw [chars_amount, List.append_nil] at hfigure
    rw [Pos.start, first_number, hfigure, boundary]
    simp [← Numeral.chars_eq, chars_amount]
  rw [extractNumbers, cleaned_grouped hs, findIter, scan_match (proper_number w) hfirst,
    scan_nil (proper_number w)]
  have hparsed := parsed_amount hs m [] ⟨(grouped sep m).reverse, []⟩
  rw [chars_amount, List.append_nil] at hparsed
  exact congrArg (fun pn => [pn]) hparsed

end Answers

/-- A slip on an amount of at least 1000 is found in every answer just if the other amount has three
digits or more and the larger one, to 28 significant digits, is less than a thousand times the
difference. -/
theorem detected_iff {k m : ℕ} (hk : 1000 ≤ k) (h : SlipOf k m) :
    Detected k m ↔ 100 ≤ m ∧ contextRound (max k m) < 1000 * |(m : ℚ) - k| := by
  constructor
  · intro hdetected
    have hs : isSep ' ' = true := by decide
    have hmem := hdetected plainWord (grouped ' ' m) [] [] ' ' hs ⟨by simp, by simp⟩
      ⟨by simp, by simp, by simp⟩ (by rw [cleaned_grouped hs, List.append_nil]; rfl)
    obtain ⟨pn, hpn, hsig, hmatch, -⟩ := mem_unexplained_iff.mp hmem
    rw [extractNumbers_grouped plainWord hs m, List.mem_singleton] at hpn
    subst hpn
    rw [isSignificant_stated] at hsig
    rw [← Bool.not_eq_true, show (stated ' ' m false).value = m from rfl, matches_slip_iff hk h,
      not_le] at hmatch
    exact ⟨hsig.resolve_left Bool.false_ne_true, hmatch⟩
  · rintro ⟨hm, hlt⟩ w answer pre suf sep hs hpre hsuf hclean
    obtain ⟨before, after, hfind, -, -⟩ := findIter_numeral (Numeral.amount sep hs m) hpre hsuf
    rw [chars_amount] at hfind
    have hparsed := parsed_amount hs m pre.reverse ⟨(grouped sep m).reverse ++ pre.reverse, suf⟩
    rw [chars_amount] at hparsed
    refine mem_unexplained_iff.mpr ⟨stated sep m ((suf.dropWhile isSep).head? = some '%'), ?_,
      (isSignificant_stated m _).mpr (.inr hm), ?_, rfl⟩
    · rw [extractNumbers, hclean, hfind, List.map_append, List.map_cons, hparsed]
      exact List.mem_append_right _ List.mem_cons_self
    · rw [← Bool.not_eq_true, show (stated sep m _).value = m from rfl, matches_slip_iff hk h, not_le]
      exact hlt

/-- The slip of the documentation. -/
theorem revenueSlip_detected : Detected 847320 843720 := by
  have hslip : SlipOf 847320 843720 :=
    ⟨[0, 2, 7, 3, 4, 8], by norm_num; exact .exchange [0, 2] [4, 8] 3 7, by norm_num [Nat.ofDigits]⟩
  refine (detected_iff (by norm_num) hslip).mpr ⟨by norm_num, ?_⟩
  rw [← Nat.cast_max, (exact_natCast (by norm_num)).contextRound_eq]
  norm_num

/-- A slip in the last digit. -/
theorem thousandAndOne_undetected :
    (checkAnswer plainWord "1 001".toList {1000}).unexplained = [] ∧
      ¬∀ k m, 1000 ≤ k → SlipOf k m → m ≠ k → Detected k m := by
  have hslip : SlipOf 1000 1001 :=
    ⟨[1, 0, 0, 1], by norm_num; exact .change [] [0, 0, 1] 0 (by decide), by norm_num [Nat.ofDigits]⟩
  have htext : grouped ' ' 1001 = "1 001".toList := by decide +kernel
  have hs : isSep ' ' = true := by decide
  have hnone : (checkAnswer plainWord (grouped ' ' 1001) {((1000 : ℕ) : ℚ)}).unexplained = [] := by
    refine List.eq_nil_iff_forall_not_mem.mpr fun t ht => ?_
    obtain ⟨pn, hpn, -, hmatch, -⟩ := mem_unexplained_iff.mp ht
    rw [extractNumbers_grouped plainWord hs, List.mem_singleton] at hpn
    subst hpn
    rw [← Bool.not_eq_true, show (stated ' ' 1001 false).value = ((1001 : ℕ) : ℚ) from rfl,
      matches_slip_iff le_rfl hslip, ← Nat.cast_max, (exact_natCast (by norm_num)).contextRound_eq]
      at hmatch
    exact hmatch (by norm_num)
  refine ⟨by simpa [htext] using hnone, fun h => ?_⟩
  have hmem := h 1000 1001 le_rfl hslip (by decide) plainWord (grouped ' ' 1001) [] [] ' ' hs
    ⟨by simp, by simp⟩ ⟨by simp, by simp, by simp⟩ (by rw [cleaned_grouped hs, List.append_nil]; rfl)
  rw [hnone] at hmem
  cases hmem

end Chic.Guardrail
