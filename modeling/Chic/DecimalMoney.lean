import Chic.Computed
import Chic.StockValue
import Chic.ToolResult

namespace Chic.DecimalMoney
open Decimal Money
open Guardrail (Number fractionValue)

def prec : ℕ := 28

def cents : Decimal := ⟨false, 1, -2⟩

def one : Decimal := ⟨false, 1, 0⟩

def hundred : Decimal := ⟨false, 100, 0⟩

/-- A minor amount: a finite `int` or `float` by its `str`, or a `Decimal`. -/
inductive Amount
  | number (x : Number) (hfinite : x.value?.isSome)
  | decimal (d : Decimal)

def Amount.value : Amount → ℚ
  | .number x hfinite => x.value?.get hfinite
  | .decimal d => d.value

def Amount.Whole (m : Amount) : Prop := ∃ n : ℤ, m.value = n

def textDigits (whole : ℕ) (fraction : List (Fin 10)) : ℕ :=
  whole * 10 ^ fraction.length + Nat.ofDigits 10 (fraction.reverse.map Fin.val)

/-- `Decimal(str(x))` of what is not a `Decimal`. -/
def dec : Amount → Decimal
  | .number (.int n) _ => signed false n 0
  | .number (.float neg whole fraction _) _ => ⟨neg, textDigits whole fraction, -fraction.length⟩
  | .number (.exponent neg lead fraction e) _ => ⟨neg, textDigits lead fraction, e - fraction.length⟩
  | .number .nan hfinite => absurd hfinite (by decide)
  | .number (.infinity _) hfinite => absurd hfinite (by simp [Number.value?])
  | .decimal d => d

/-- `none` where `InvalidOperation` is raised. -/
def moneyRound (v : Decimal) : Option Decimal := v.quantize prec cents

def minorToMajor (minor : Amount) : Option Decimal := do
  let whole ← (dec minor).quantize prec one
  let major ← whole.divide prec hundred
  moneyRound major

/-- `sum(..., dec(0))` -/
def total (ds : List Decimal) : Decimal := ds.foldl (add prec) (signed false 0 0)

/-- The old rounding of an amount in minor units, `none` where the context has not the digits for
the rounded one. -/
def rounded (x : ℚ) : Option ℚ :=
  if |roundHalfAway x| < 10 ^ prec then some (roundHalfAway x / 100) else none

/-- An operation gives the old rounding of its amount in minor units, with what follows from that. -/
structure OldRounding {α : Type} (f : α → Option Decimal) (minor : α → ℚ) : Prop where
  value : ∀ a, (f a).map value = rounded (minor a)
  mono : ∀ {a b r s}, minor a ≤ minor b → f a = some r → f b = some s → r.value ≤ s.value
  odd : ∀ {a b}, minor b = -minor a → (f b).map Decimal.value = (f a).map fun r => -r.value
  close : ∀ {a r}, f a = some r → |r.value - minor a / 100| ≤ 1 / 200

section Dec

theorem textDigits_div (whole : ℕ) (fraction : List (Fin 10)) :
    (textDigits whole fraction : ℚ) * 10 ^ (-(fraction.length : ℤ)) = whole + fractionValue fraction := by
  have hpow : (10 : ℚ) ^ fraction.length ≠ 0 := by positivity
  rw [textDigits, fractionValue, zpow_neg, zpow_natCast, ← div_eq_mul_inv, Nat.cast_add, add_div, Nat.cast_mul,
    Nat.cast_pow, Nat.cast_ofNat, mul_div_cancel_right₀ _ hpow]

theorem value_dec (m : Amount) : (dec m).value = m.value := by
  match m with
  | .decimal d => rfl
  | .number (.int n) _ =>
    rw [dec, value_signed, zpow_zero, mul_one]
    rfl
  | .number (.float neg whole fraction hne) _ =>
    rw [dec, value_eq]
    dsimp only
    rw [textDigits_div]
    rfl
  | .number (.exponent neg lead fraction e) _ =>
    rw [dec, value_eq]
    dsimp only
    rw [sub_eq_neg_add, zpow_add₀ (by norm_num), ← mul_assoc, textDigits_div]
    rfl
  | .number .nan hfinite => exact absurd hfinite (by decide)
  | .number (.infinity _) hfinite => exact absurd hfinite (by simp [Number.value?])

end Dec

section Rounded
variable {x y r s : ℚ}

theorem rounded_eq_some : rounded x = some r ↔ |roundHalfAway x| < 10 ^ prec ∧ roundHalfAway x / 100 = r := by
  rw [rounded]
  split_ifs with h <;> simp [h]

theorem rounded_neg (x : ℚ) : rounded (-x) = (rounded x).map (- ·) := by
  simp only [rounded, roundHalfAway_neg, abs_neg]
  split_ifs
  · rw [Option.map_some, Int.cast_neg, neg_div]
  · rfl

theorem rounded_mono (h : x ≤ y) (hx : rounded x = some r) (hy : rounded y = some s) : r ≤ s := by
  obtain ⟨-, rfl⟩ := rounded_eq_some.mp hx
  obtain ⟨-, rfl⟩ := rounded_eq_some.mp hy
  have hround := roundHalfAway_mono h
  exact div_le_div_of_nonneg_right (Int.cast_le.mpr hround) (by norm_num)

theorem rounded_eq_moneyRound (hx : rounded x = some r) : r = Money.moneyRound (x / 100) := by
  obtain ⟨-, rfl⟩ := rounded_eq_some.mp hx
  rw [moneyRound_eq_round2, round2, div_mul_cancel₀ _ (by norm_num)]

theorem abs_rounded_sub_le (hx : rounded x = some r) : |r - x / 100| ≤ 1 / 200 := by
  rw [rounded_eq_moneyRound hx]
  exact StockValue.abs_moneyRound_sub_le _

theorem OldRounding.of_value {α : Type} {f : α → Option Decimal} {minor : α → ℚ}
    (h : ∀ a, (f a).map Decimal.value = rounded (minor a)) : OldRounding f minor := by
  have hsome : ∀ {a r}, f a = some r → rounded (minor a) = some r.value := by
    intro a r hr
    rw [← h, hr, Option.map_some]
  refine ⟨h, fun hle hr hs => rounded_mono hle (hsome hr) (hsome hs), fun {a b} hneg => ?_,
    fun hr => abs_rounded_sub_le (hsome hr)⟩
  rw [h, hneg, rounded_neg, ← h, Option.map_map]
  rfl

end Rounded

section MoneyRound
variable {v r : Decimal}

theorem value_moneyRound (v : Decimal) : (moneyRound v).map value = rounded (100 * v.value) := by
  have hunit : v.value / 10 ^ cents.exp = 100 * v.value := by
    rw [show cents.exp = -2 from rfl, zpow_neg, div_inv_eq_mul, mul_comm]
    norm_num
  rw [moneyRound, map_value_quantize (by decide), hunit, roundHalfUp_eq_roundHalfAway, rounded]
  have hscale : (roundHalfAway (100 * v.value) : ℚ) * 10 ^ cents.exp = roundHalfAway (100 * v.value) / 100 := by
    rw [show cents.exp = -2 from rfl, zpow_neg, div_eq_mul_inv]
    norm_num
  rw [hscale]

example : moneyRound ⟨true, 2555, -3⟩ = some ⟨true, 256, -2⟩ := by decide

theorem moneyRound_idem (h : moneyRound v = some r) : moneyRound r = some r := quantize_quantize h

end MoneyRound

section MinorToMajor
variable {m : Amount} {r : Decimal} {ms : List Amount} {rs : List Decimal}

theorem divide_hundred (whole : Decimal) (hexp : whole.exp = 0) (hfits : |whole.int| < 10 ^ prec) :
    ∃ major, whole.divide prec hundred = some major ∧ major.value = whole.int / 100 := by
  have hquotient : whole.value / hundred.value = whole.int * 10 ^ (-2 : ℤ) := by
    rw [Decimal.value, Decimal.value, hexp, show hundred.int = 100 from rfl, show hundred.exp = 0 from rfl]
    norm_num [div_eq_mul_inv]
  have hdivide := value_divide (a := whole) (p := prec) (by decide) (show hundred.coeff ≠ 0 by decide)
  rw [hquotient, roundTo_eq_self hfits] at hdivide
  obtain ⟨major, hmajor, hvalue⟩ := Option.map_eq_some_iff.mp hdivide
  refine ⟨major, hmajor, hvalue.trans ?_⟩
  norm_num [div_eq_mul_inv]

/-- Nothing is rounded after the amount is whole. -/
theorem value_minorToMajor (m : Amount) : (minorToMajor m).map value = rounded m.value := by
  have hwhole : ((dec m).rescale one.exp).int = roundHalfAway m.value := by
    rw [int_rescale, roundHalfUp_eq_roundHalfAway, value_dec, show one.exp = 0 from rfl, zpow_zero, div_one]
  have hfits := quantize_eq (p := prec) (by decide) (dec m) one
  rw [← int_rescale, hwhole] at hfits
  rw [minorToMajor, hfits, rounded]
  split_ifs with h
  · obtain ⟨major, hmajor, hvalue⟩ := divide_hundred _ (exp_rescale (dec m) one.exp) (hwhole.symm ▸ h)
    have hcents : 100 * major.value = (roundHalfAway m.value : ℤ) := by
      rw [hvalue, hwhole, mul_div_cancel₀ _ (by norm_num)]
    simp only [Option.bind_eq_bind, Option.bind_some, hmajor]
    rw [value_moneyRound, hcents, rounded, roundHalfAway_intCast, if_pos h]
  · rfl

example : minorToMajor (.number (.int 12345) rfl) = some ⟨false, 12345, -2⟩ := by decide +kernel

theorem moneyRound_minorToMajor (h : minorToMajor m = some r) : moneyRound r = some r := by
  obtain ⟨whole, -, h⟩ := Option.bind_eq_some_iff.mp h
  obtain ⟨major, -, h⟩ := Option.bind_eq_some_iff.mp h
  exact moneyRound_idem h

end MinorToMajor

section Refinement
variable {v r : Decimal} {m : Amount}

/-- The functions on exact amounts say what is computed with decimals. -/
theorem moneyRound_refines (h : moneyRound v = some r) : r.value = Money.moneyRound v.value := by
  have hvalue := value_moneyRound v
  rw [h, Option.map_some] at hvalue
  rw [rounded_eq_moneyRound hvalue.symm, mul_div_cancel_left₀ _ (by norm_num)]

theorem minorToMajor_refines (h : minorToMajor m = some r) : r.value = Money.minorToMajor m.value := by
  have hvalue := value_minorToMajor m
  rw [h, Option.map_some] at hvalue
  obtain ⟨-, hround⟩ := rounded_eq_some.mp hvalue.symm
  rw [← hround, StockValue.minorToMajor_eq, roundHalfUp_eq_roundHalfAway]

end Refinement

section Python
open Arithmetic (python)

/-- The functions on the values of decimals lose nothing: they raise where these do. -/
theorem map_value_moneyRound (v : Decimal) :
    (moneyRound v).map value = Computed.moneyRound python v.value := by
  apply Option.ext
  intro r
  rw [value_moneyRound, rounded_eq_some, Computed.moneyRound_eq_some, Money.moneyRound, mul_comm,
    roundHalfUp_eq_roundHalfAway]
  rfl

theorem map_value_minorToMajor (m : Amount) :
    (minorToMajor m).map value = Computed.minorToMajor python m.value := by
  apply Option.ext
  intro r
  rw [value_minorToMajor, rounded_eq_some, Computed.minorToMajor_eq_some, StockValue.minorToMajor_eq,
    roundHalfUp_eq_roundHalfAway]
  rfl

theorem value_total_eq (ds : List Decimal) : (total ds).value = Computed.total python (ds.map value) := by
  have hfrom : ∀ (ds : List Decimal) (d : Decimal), (ds.foldl (add prec) d).value =
      (ds.map value).foldl (fun t v => python.decimal (t + v)) d.value := by
    intro ds
    induction ds with
    | nil => exact fun d => rfl
    | cons a ds ih =>
      intro d
      rw [List.foldl_cons, List.map_cons, List.foldl_cons, ih, value_add (by decide)]
      rfl
  have hzero : (signed false 0 0).value = 0 := by rw [value_signed, Int.cast_zero, zero_mul]
  rw [total, hfrom, hzero]
  rfl

end Python

section Sums
variable {m : Amount} {r : Decimal} {ms : List Amount} {rs : List Decimal}

theorem Amount.Whole.value_minorToMajor (hm : m.Whole) (h : minorToMajor m = some r) :
    r.value = m.value / 100 := by
  obtain ⟨n, hn⟩ := hm
  rw [minorToMajor_refines h, StockValue.minorToMajor_eq, hn, roundHalfUp_intCast]

theorem whole_sum (hms : ∀ m ∈ ms, m.Whole) : ∃ n : ℤ, (ms.map Amount.value).sum = n := by
  induction ms with
  | nil => exact ⟨0, by simp⟩
  | cons m ms ih =>
    obtain ⟨hm, hms⟩ := List.forall_mem_cons.mp hms
    obtain ⟨n, hn⟩ := hm
    obtain ⟨t, ht⟩ := ih hms
    exact ⟨n + t, by rw [List.map_cons, List.sum_cons, hn, ht, Int.cast_add]⟩

theorem sum_converted (hms : ∀ m ∈ ms, m.Whole)
    (h : List.Forall₂ (fun m r => minorToMajor m = some r) ms rs) :
    (rs.map value).sum = (ms.map Amount.value).sum / 100 := by
  induction h with
  | nil => simp
  | cons hr _ ih =>
    obtain ⟨hm, hms⟩ := List.forall_mem_cons.mp hms
    rw [List.map_cons, List.sum_cons, hm.value_minorToMajor hr, ih hms, List.map_cons, List.sum_cons, add_div]

theorem value_total (hms : ∀ m ∈ ms, m.Whole)
    (h : List.Forall₂ (fun m r => minorToMajor m = some r) ms rs)
    (hfits : ∀ k, |((ms.take k).map Amount.value).sum| < 10 ^ prec) :
    (total rs).value = (ms.map Amount.value).sum / 100 := by
  have hzero : (signed false 0 0).value = 0 := by rw [value_signed, Int.cast_zero, zero_mul]
  rw [total, value_foldl_add (by decide), hzero, zero_add, sum_converted hms h]
  intro k
  have htake : ∀ m ∈ ms.take k, m.Whole := fun m hm => hms m (List.mem_of_mem_take hm)
  obtain ⟨n, hn⟩ := whole_sum htake
  have hk := hfits k
  rw [hn] at hk
  have hcents : (n : ℚ) / 100 = n * 10 ^ (-2 : ℤ) := by norm_num [div_eq_mul_inv]
  rw [hzero, zero_add, sum_converted htake (List.forall₂_take k h), hn, hcents]
  exact roundTo_eq_self (by exact_mod_cast hk) (-2)

end Sums

/-- Decimal amounts are rounded as the exact ones were, once and for good, and the totals of a report
do not depend on when minor units are converted. -/
theorem money_path_exact (v : Decimal) (m : Amount) (ms : List Amount) :
    (OldRounding moneyRound fun v => 100 * v.value) ∧ OldRounding minorToMajor Amount.value ∧
      (∀ r, moneyRound v = some r ∨ minorToMajor m = some r → moneyRound r = some r) ∧
      ((∀ m ∈ ms, m.Whole) → m.value = (ms.map Amount.value).sum →
        ∀ rs r, List.Forall₂ (fun m r => minorToMajor m = some r) ms rs → minorToMajor m = some r →
          (rs.map value).sum = r.value ∧
          ((∀ k, |((ms.take k).map Amount.value).sum| < 10 ^ prec) → (total rs).value = r.value)) := by
  refine ⟨.of_value value_moneyRound, .of_value value_minorToMajor, ?_, ?_⟩
  · rintro r (h | h)
    · exact moneyRound_idem h
    · exact moneyRound_minorToMajor h
  · intro hms hm rs r hrs hr
    have hwhole : m.Whole := by
      obtain ⟨n, hn⟩ := whole_sum hms
      exact ⟨n, hm.trans hn⟩
    have hvalue : r.value = (ms.map Amount.value).sum / 100 := by
      rw [hwhole.value_minorToMajor hr, hm]
    exact ⟨(sum_converted hms hrs).trans hvalue.symm,
      fun hfits => (value_total hms hrs hfits).trans hvalue.symm⟩

end Chic.DecimalMoney
