import Mathlib.Data.Nat.Log
import Chic.Binary64

namespace Chic

/-- A finite number of decimal floating point: a sign, a coefficient and an exponent of ten. -/
structure Decimal where
  neg : Bool
  coeff : ℕ
  exp : ℤ
  deriving DecidableEq

namespace Decimal
open Binary64

def int (d : Decimal) : ℤ := if d.neg then -d.coeff else d.coeff

def value (d : Decimal) : ℚ := d.int * 10 ^ d.exp

def digits (n : ℕ) : ℕ := Nat.log 10 n + 1

/-- A coefficient without its last digits, a half rounded up. -/
def dropHalfUp (n k : ℕ) : ℕ := if 10 ^ k ≤ 2 * (n % 10 ^ k) then n / 10 ^ k + 1 else n / 10 ^ k

def dropHalfEven (n k : ℕ) : ℕ :=
  if 2 * (n % 10 ^ k) < 10 ^ k then n / 10 ^ k
  else if 10 ^ k < 2 * (n % 10 ^ k) then n / 10 ^ k + 1
  else if n / 10 ^ k % 2 = 0 then n / 10 ^ k
  else n / 10 ^ k + 1

/-- The number with another exponent, a half rounded away from zero. -/
def rescale (d : Decimal) (e : ℤ) : Decimal :=
  if e ≤ d.exp then ⟨d.neg, d.coeff * 10 ^ (d.exp - e).toNat, e⟩
  else ⟨d.neg, dropHalfUp d.coeff (e - d.exp).toNat, e⟩

/-- `quantize` by `ROUND_HALF_UP` in a context of `p` digits, `none` where the operation is invalid
as the coefficient has more. -/
def quantize (p : ℕ) (d unit : Decimal) : Option Decimal :=
  let r := d.rescale unit.exp
  if digits r.coeff ≤ p then some r else none

/-- The number with at most `p` digits, a half rounded to the even coefficient. -/
def fix (p : ℕ) (d : Decimal) : Decimal :=
  if digits d.coeff ≤ p then d
  else
    let k := digits d.coeff - p
    let c := dropHalfEven d.coeff k
    if c = 10 ^ p then ⟨d.neg, 10 ^ (p - 1), d.exp + k + 1⟩ else ⟨d.neg, c, d.exp + k⟩

/-- The number without zeros at the end of its coefficient, `n` of them at most. -/
def dropZeros : (n : ℕ) → Decimal → Decimal
  | 0, d => d
  | n + 1, d => if d.coeff % 10 = 0 then dropZeros n ⟨d.neg, d.coeff / 10, d.exp + 1⟩ else d

/-- The quotient in a context of `p` digits, `none` where the divisor is zero. -/
def divide (p : ℕ) (a b : Decimal) : Option Decimal :=
  if b.coeff = 0 then none
  else if a.coeff = 0 then some (fix p ⟨a.neg != b.neg, 0, a.exp - b.exp⟩)
  else
    let shift : ℤ := digits b.coeff - digits a.coeff + p + 1
    let m := a.coeff * 10 ^ shift.toNat
    let n := b.coeff * 10 ^ (-shift).toNat
    let q := m / n
    let e := a.exp - b.exp - shift
    -- a quotient that is not exact must not look like a half
    if m % n ≠ 0 then some (fix p ⟨a.neg != b.neg, if q % 5 = 0 then q + 1 else q, e⟩)
    else some (fix p (dropZeros shift.toNat ⟨a.neg != b.neg, q, e⟩))

def signed (zero : Bool) (n e : ℤ) : Decimal := ⟨if n = 0 then zero else decide (n < 0), n.natAbs, e⟩

/-- The sum in a context of `p` digits. -/
def add (p : ℕ) (a b : Decimal) : Decimal :=
  let e := min a.exp b.exp
  fix p (signed (a.neg && b.neg) ((a.rescale e).int + (b.rescale e).int) e)

/-- A number rounded to `p` significant digits, a half to the even last digit. -/
def roundTo (p : ℕ) (x : ℚ) : ℚ :=
  let last : ℚ := 10 ^ (Int.log 10 |x| + 1 - p)
  roundHalfEven (x / last) * last

section Quotients
variable {n m k : ℕ}

theorem div_eq_add (n : ℕ) (hm : 0 < m) : (n : ℚ) / m = (n / m : ℕ) + ((n % m : ℕ) : ℚ) / m := by
  have hm' : (m : ℚ) ≠ 0 := by exact_mod_cast hm.ne'
  have h : (n : ℚ) = m * (n / m : ℕ) + (n % m : ℕ) := by exact_mod_cast (Nat.div_add_mod n m).symm
  nth_rewrite 1 [h]
  rw [add_div, mul_div_cancel_left₀ _ hm']

theorem floor_div (n m : ℕ) : ⌊(n : ℚ) / m⌋ = (n / m : ℕ) := by
  rw [Rat.floor_natCast_div_natCast, Int.natCast_div]

theorem fract_div (n : ℕ) (hm : 0 < m) : (n : ℚ) / m - (n / m : ℕ) = ((n % m : ℕ) : ℚ) / m := by
  rw [div_eq_add n hm, add_sub_cancel_left]

theorem div_between (hm : 0 < m) (h : n % m ≠ 0) :
    ((n / m : ℕ) : ℚ) < (n : ℚ) / m ∧ (n : ℚ) / m < ((n / m : ℕ) : ℚ) + 1 := by
  have hm' : (0 : ℚ) < m := by exact_mod_cast hm
  have hpos : (0 : ℚ) < ((n % m : ℕ) : ℚ) / m := div_pos (by exact_mod_cast Nat.pos_of_ne_zero h) hm'
  have hlt : ((n % m : ℕ) : ℚ) / m < 1 := by
    rw [div_lt_one hm']
    exact_mod_cast Nat.mod_lt n hm
  rw [div_eq_add n hm]
  constructor <;> linarith

theorem roundHalfUp_div_pow (n k : ℕ) : roundHalfUp ((n : ℚ) / (10 ^ k : ℕ)) = dropHalfUp n k := by
  have hpos : 0 < 10 ^ k := by positivity
  have hpos' : (0 : ℚ) < (10 ^ k : ℕ) := by exact_mod_cast hpos
  have hnonneg : 0 ≤ (n : ℚ) / (10 ^ k : ℕ) := by positivity
  have hhalf : 1 / 2 ≤ ((n % 10 ^ k : ℕ) : ℚ) / (10 ^ k : ℕ) ↔ 10 ^ k ≤ 2 * (n % 10 ^ k) := by
    rw [div_le_div_iff₀ (by norm_num) hpos', one_mul, mul_comm]
    exact_mod_cast Iff.rfl
  simp only [roundHalfUp, abs_of_nonneg hnonneg, if_pos hnonneg, floor_div, Int.cast_natCast,
    fract_div n hpos, hhalf, dropHalfUp]
  split_ifs <;> push_cast <;> rfl

theorem roundHalfEven_div_pow (n k : ℕ) : roundHalfEven ((n : ℚ) / (10 ^ k : ℕ)) = dropHalfEven n k := by
  have hpos : 0 < 10 ^ k := by positivity
  have hpos' : (0 : ℚ) < (10 ^ k : ℕ) := by exact_mod_cast hpos
  have hlow : ((n % 10 ^ k : ℕ) : ℚ) / (10 ^ k : ℕ) < 1 / 2 ↔ 2 * (n % 10 ^ k) < 10 ^ k := by
    rw [div_lt_div_iff₀ hpos' (by norm_num), one_mul, mul_comm]
    exact_mod_cast Iff.rfl
  have hhigh : 1 / 2 < ((n % 10 ^ k : ℕ) : ℚ) / (10 ^ k : ℕ) ↔ 10 ^ k < 2 * (n % 10 ^ k) := by
    rw [div_lt_div_iff₀ (by norm_num) hpos', one_mul, mul_comm]
    exact_mod_cast Iff.rfl
  have heven : ((n / 10 ^ k : ℕ) : ℤ) % 2 = 0 ↔ n / 10 ^ k % 2 = 0 := by omega
  simp only [roundHalfEven, floor_div, Int.cast_natCast, fract_div n hpos, hlow, hhigh, heven,
    dropHalfEven]
  split_ifs <;> push_cast <;> rfl

end Quotients

section Scales
variable {i e : ℤ} {p n : ℕ} {d : Decimal}

theorem ten_zpow_pos (e : ℤ) : (0 : ℚ) < 10 ^ e := zpow_pos (by norm_num) e

theorem ten_zpow_add (e : ℤ) (n : ℕ) : (10 : ℚ) ^ (e + n) = 10 ^ n * 10 ^ e := by
  rw [zpow_add₀ (by norm_num), mul_comm, zpow_natCast]

theorem scale_up (n : ℕ) (h : e ≤ i) : (n : ℚ) * 10 ^ i / 10 ^ e = (n * 10 ^ (i - e).toNat : ℕ) := by
  have hi : i = e + ((i - e).toNat : ℕ) := by omega
  rw [div_eq_iff (ten_zpow_pos e).ne']
  nth_rewrite 1 [hi]
  rw [ten_zpow_add]
  push_cast
  ring

theorem scale_down (n : ℕ) (h : i ≤ e) :
    (n : ℚ) * 10 ^ i / 10 ^ e = (n : ℚ) / (10 ^ (e - i).toNat : ℕ) := by
  have he : e = i + ((e - i).toNat : ℕ) := by omega
  have hpow : (0 : ℚ) < 10 ^ (e - i).toNat := by positivity
  nth_rewrite 1 [he]
  rw [ten_zpow_add, mul_div_mul_right _ _ (ten_zpow_pos i).ne']
  push_cast
  rfl

theorem value_eq (d : Decimal) :
    d.value = if d.neg then -((d.coeff : ℚ) * 10 ^ d.exp) else (d.coeff : ℚ) * 10 ^ d.exp := by
  rw [value, int]
  split_ifs
  · push_cast
    ring
  · rfl

theorem abs_int (d : Decimal) : |d.int| = d.coeff := by
  rw [int]
  split_ifs
  · rw [abs_neg, Nat.abs_cast]
  · rw [Nat.abs_cast]

theorem digits_le_iff (hp : 0 < p) : digits n ≤ p ↔ n < 10 ^ p := by
  rw [digits, Nat.add_one_le_iff]
  rcases Nat.eq_zero_or_pos n with rfl | hn
  · rw [Nat.log_zero_right]
    exact iff_of_true hp (by positivity)
  · exact Nat.log_lt_iff_lt_pow (by norm_num) hn.ne'

theorem neg_rescale (d : Decimal) (e : ℤ) : (d.rescale e).neg = d.neg := by
  rw [rescale]
  split_ifs <;> rfl

theorem exp_rescale (d : Decimal) (e : ℤ) : (d.rescale e).exp = e := by
  rw [rescale]
  split_ifs <;> rfl

/-- The new coefficient is the number in units of the new exponent, a half rounded away from zero. -/
theorem int_rescale (d : Decimal) (e : ℤ) : (d.rescale e).int = roundHalfUp (d.value / 10 ^ e) := by
  have hcoeff : roundHalfUp ((d.coeff : ℚ) * 10 ^ d.exp / 10 ^ e) = (d.rescale e).coeff := by
    rw [rescale]
    split_ifs with h
    · rw [scale_up _ h, ← Int.cast_natCast, roundHalfUp_intCast]
    · rw [scale_down _ (not_le.mp h).le, roundHalfUp_div_pow]
  rw [int, neg_rescale, value_eq]
  split_ifs
  · rw [neg_div, roundHalfUp_neg, hcoeff]
  · rw [hcoeff]

theorem value_rescale (d : Decimal) (e : ℤ) :
    (d.rescale e).value = roundHalfUp (d.value / 10 ^ e) * 10 ^ e := by
  rw [value, int_rescale, exp_rescale]

theorem rescale_exp (d : Decimal) : d.rescale d.exp = d := by
  rw [rescale, if_pos le_rfl, sub_self, Int.toNat_zero, pow_zero, mul_one]

/-- What an operation gives and when it is invalid. -/
theorem quantize_eq (hp : 0 < p) (d unit : Decimal) : d.quantize p unit =
    if |roundHalfUp (d.value / 10 ^ unit.exp)| < 10 ^ p then some (d.rescale unit.exp) else none := by
  have hcoeff : ((d.rescale unit.exp).coeff : ℤ) < 10 ^ p ↔ (d.rescale unit.exp).coeff < 10 ^ p := by
    exact_mod_cast Iff.rfl
  simp only [quantize, digits_le_iff hp, ← int_rescale, abs_int, hcoeff]

theorem map_value_quantize (hp : 0 < p) (d unit : Decimal) : (d.quantize p unit).map value =
    if |roundHalfUp (d.value / 10 ^ unit.exp)| < 10 ^ p then
      some ((roundHalfUp (d.value / 10 ^ unit.exp) : ℚ) * 10 ^ unit.exp) else none := by
  rw [quantize_eq hp]
  split_ifs
  · rw [Option.map_some, value_rescale]
  · rfl

/-- A number with the exponent asked for is not changed again. -/
theorem quantize_quantize {d unit r : Decimal} (h : d.quantize p unit = some r) :
    r.quantize p unit = some r := by
  rw [quantize] at h
  split_ifs at h with hdigits
  obtain rfl := Option.some.inj h
  have hr := rescale_exp (d.rescale unit.exp)
  rw [exp_rescale] at hr
  rw [quantize, hr, if_pos hdigits]

end Scales

section RoundTo
variable {p q : ℕ} {x y : ℚ}

theorem log_eq {l : ℤ} (hlo : 10 ^ l ≤ x) (hhi : x < 10 ^ (l + 1)) : Int.log 10 x = l := by
  have hpos : 0 < x := (ten_zpow_pos l).trans_le hlo
  have hle : l ≤ Int.log 10 x := (Int.zpow_le_iff_le_log (by norm_num) hpos).mp (by exact_mod_cast hlo)
  have hlt : Int.log 10 x < l + 1 := (Int.lt_zpow_iff_log_lt (by norm_num) hpos).mp (by exact_mod_cast hhi)
  omega

theorem roundTo_neg (p : ℕ) (x : ℚ) : roundTo p (-x) = -roundTo p x := by
  dsimp only [roundTo]
  rw [abs_neg, neg_div, roundHalfEven_neg, Int.cast_neg, neg_mul]

theorem roundTo_eq_self {c : ℤ} (hc : |c| < 10 ^ p) (e : ℤ) : roundTo p (c * 10 ^ e) = c * 10 ^ e := by
  rcases eq_or_ne c 0 with rfl | hc0
  · simp [roundTo, roundHalfEven]
  have hx : 0 < |(c * 10 ^ e : ℚ)| :=
    abs_pos.mpr (mul_ne_zero (by exact_mod_cast hc0) (ten_zpow_pos e).ne')
  have hlog : Int.log 10 |(c * 10 ^ e : ℚ)| < e + p := by
    rw [← Int.lt_zpow_iff_log_lt (by norm_num) hx, abs_mul, abs_of_pos (ten_zpow_pos e)]
    have hc' : |(c : ℚ)| < 10 ^ p := by exact_mod_cast hc
    push_cast
    rw [ten_zpow_add]
    exact mul_lt_mul_of_pos_right hc' (ten_zpow_pos e)
  -- the number is a multiple of the last place kept
  obtain ⟨j, hj⟩ := Int.le.dest (show Int.log 10 |(c * 10 ^ e : ℚ)| + 1 - p ≤ e by omega)
  have hmultiple : (c * 10 ^ e : ℚ) / 10 ^ (Int.log 10 |(c * 10 ^ e : ℚ)| + 1 - p) =
      ((c * 10 ^ j : ℤ) : ℚ) := by
    rw [div_eq_iff (ten_zpow_pos _).ne']
    nth_rewrite 1 [← hj]
    rw [ten_zpow_add]
    push_cast
    ring
  dsimp only [roundTo]
  rw [hmultiple, roundHalfEven_intCast, ← hmultiple, div_mul_cancel₀ _ (ten_zpow_pos _).ne']

theorem roundTo_zero (p : ℕ) : roundTo p 0 = 0 := by
  simp [roundTo, roundHalfEven]

theorem roundTo_le_zpow {k : ℤ} (hx : 0 < x) (h : x < 10 ^ k) : roundTo p x ≤ 10 ^ k := by
  have hlog : Int.log 10 x < k := (Int.lt_zpow_iff_log_lt (by norm_num) hx).mp (by exact_mod_cast h)
  obtain ⟨j, hj⟩ := Int.le.dest (show Int.log 10 x + 1 - p ≤ k by omega)
  dsimp only [roundTo]
  rw [abs_of_pos hx]
  rw [← hj, ten_zpow_add] at h ⊢
  refine mul_le_mul_of_nonneg_right ?_ (ten_zpow_pos _).le
  have hle : roundHalfEven (x / 10 ^ (Int.log 10 x + 1 - p)) ≤ (10 ^ j : ℤ) := by
    apply roundHalfEven_le
    rw [div_le_iff₀ (ten_zpow_pos _)]
    push_cast
    exact h.le
  exact_mod_cast hle

theorem zpow_log_le_roundTo (hp : 0 < p) (hx : 0 < x) : 10 ^ Int.log 10 x ≤ roundTo p x := by
  have hle : (10 : ℚ) ^ Int.log 10 x ≤ x := by
    exact_mod_cast Int.zpow_log_le_self (b := 10) (by norm_num) hx
  obtain ⟨j, hj⟩ := Int.le.dest (show Int.log 10 x + 1 - p ≤ Int.log 10 x by omega)
  have hpow : (10 : ℚ) ^ Int.log 10 x = 10 ^ j * 10 ^ (Int.log 10 x + 1 - p) := by rw [← ten_zpow_add, hj]
  dsimp only [roundTo]
  rw [abs_of_pos hx]
  rw [hpow] at hle ⊢
  refine mul_le_mul_of_nonneg_right ?_ (ten_zpow_pos _).le
  have hround : (10 ^ j : ℤ) ≤ roundHalfEven (x / 10 ^ (Int.log 10 x + 1 - p)) := by
    apply le_roundHalfEven
    rw [le_div_iff₀ (ten_zpow_pos _)]
    push_cast
    exact hle
  exact_mod_cast hround

theorem roundTo_pos_iff [NeZero p] : 0 < roundTo p x ↔ 0 < x := by
  have hpos : ∀ {x : ℚ}, 0 < x → 0 < roundTo p x := fun hx =>
    (ten_zpow_pos _).trans_le (zpow_log_le_roundTo (NeZero.pos p) hx)
  refine ⟨fun h => ?_, hpos⟩
  rcases lt_trichotomy x 0 with hx | rfl | hx
  · have hneg := hpos (neg_pos.mpr hx)
    rw [roundTo_neg] at hneg
    linarith
  · rw [roundTo_zero] at h
    exact absurd h (lt_irrefl 0)
  · exact hx

theorem zpow_le_abs_roundTo {k : ℤ} (hp : 0 < p) (h : 10 ^ k ≤ |x|) : 10 ^ k ≤ |roundTo p x| := by
  have hpos : ∀ {y : ℚ}, 10 ^ k ≤ y → 10 ^ k ≤ roundTo p y := by
    intro y hy
    have hypos : 0 < y := (ten_zpow_pos k).trans_le hy
    have hlog : k ≤ Int.log 10 y := (Int.zpow_le_iff_le_log (by norm_num) hypos).mp (by exact_mod_cast hy)
    exact (zpow_le_zpow_right₀ (by norm_num) hlog).trans (zpow_log_le_roundTo hp hypos)
  rcases le_abs.mp h with h | h
  · exact (hpos h).trans (le_abs_self _)
  · rw [← abs_neg, ← roundTo_neg]
    exact (hpos h).trans (le_abs_self _)

theorem exists_roundTo_mul (p : ℕ) (c e : ℤ) : ∃ m : ℤ, roundTo p (c * 10 ^ e) = m * 10 ^ e := by
  rcases lt_or_ge |c| (10 ^ p) with hc | hc
  · exact ⟨c, roundTo_eq_self hc e⟩
  have hx : (10 : ℚ) ^ (e + p) ≤ |(c * 10 ^ e : ℚ)| := by
    rw [ten_zpow_add, abs_mul, abs_of_pos (ten_zpow_pos e)]
    exact mul_le_mul_of_nonneg_right (by exact_mod_cast hc) (ten_zpow_pos e).le
  have hlog : e + p ≤ Int.log 10 |(c * 10 ^ e : ℚ)| :=
    (Int.zpow_le_iff_le_log (by norm_num) ((ten_zpow_pos _).trans_le hx)).mp (by exact_mod_cast hx)
  obtain ⟨j, hj⟩ := Int.le.dest (show e ≤ Int.log 10 |(c * 10 ^ e : ℚ)| + 1 - p by omega)
  refine ⟨roundHalfEven ((c * 10 ^ e : ℚ) / 10 ^ (Int.log 10 |(c * 10 ^ e : ℚ)| + 1 - p)) * 10 ^ j, ?_⟩
  dsimp only [roundTo]
  rw [← hj, ten_zpow_add]
  push_cast
  ring

/-- What is rounded to less than `p` digits before the unit was not rounded. -/
theorem roundTo_eq_self_of_lt (hp : 0 < p) {c e : ℤ} (h : |roundTo p (c * 10 ^ e)| < 10 ^ (e + p)) :
    roundTo p (c * 10 ^ e) = c * 10 ^ e := by
  refine roundTo_eq_self ?_ e
  by_contra hc
  refine h.not_ge (zpow_le_abs_roundTo hp ?_)
  rw [ten_zpow_add, abs_mul, abs_of_pos (ten_zpow_pos e)]
  exact mul_le_mul_of_nonneg_right (by exact_mod_cast not_lt.mp hc) (ten_zpow_pos e).le

theorem roundTo_mono (hp : 0 < p) (hx : 0 ≤ x) (h : x ≤ y) : roundTo p x ≤ roundTo p y := by
  have hnonneg : ∀ {z : ℚ}, 0 < z → 0 ≤ roundTo p z :=
    fun hz => (ten_zpow_pos _).le.trans (zpow_log_le_roundTo hp hz)
  rcases hx.eq_or_lt with rfl | hpos
  · rw [roundTo_zero]
    rcases h.eq_or_lt with rfl | hy
    · rw [roundTo_zero]
    · exact hnonneg hy
  have hpos' : 0 < y := hpos.trans_le h
  rcases (Int.log_mono_right (b := 10) hpos h).eq_or_lt with heq | hlt
  · dsimp only [roundTo]
    rw [abs_of_pos hpos, abs_of_pos hpos', heq]
    refine mul_le_mul_of_nonneg_right ?_ (ten_zpow_pos _).le
    exact_mod_cast roundHalfEven_mono (div_le_div_of_nonneg_right h (ten_zpow_pos _).le)
  · refine (roundTo_le_zpow hpos ?_).trans (zpow_log_le_roundTo hp hpos')
    exact_mod_cast (Int.lt_zpow_iff_log_lt (b := 10) (by norm_num) hpos).mpr hlt

theorem exists_roundTo_eq (hp : 0 < p) (hx : 0 ≤ x) :
    ∃ c e : ℤ, roundTo p x = c * 10 ^ e ∧ |c| < 10 ^ p := by
  rcases hx.eq_or_lt with rfl | hpos
  · exact ⟨0, 0, by rw [roundTo_zero, Int.cast_zero, zero_mul], by rw [abs_zero]; positivity⟩
  obtain ⟨l, hl⟩ : ∃ l, l = Int.log 10 x := ⟨_, rfl⟩
  have hlt : x < 10 ^ (l + 1) := by
    rw [hl]
    exact_mod_cast Int.lt_zpow_succ_log_self (b := 10) (by norm_num) x
  have hnonneg : 0 ≤ roundHalfEven (x / 10 ^ (l + 1 - p)) := by
    apply le_roundHalfEven
    exact_mod_cast div_nonneg hpos.le (ten_zpow_pos _).le
  have hround : roundTo p x = roundHalfEven (x / 10 ^ (l + 1 - p)) * 10 ^ (l + 1 - p) := by
    dsimp only [roundTo]
    rw [abs_of_pos hpos, ← hl]
  have hle : roundTo p x ≤ 10 ^ (l + 1) := roundTo_le_zpow hpos hlt
  rcases hle.eq_or_lt with heq | hless
  · refine ⟨1, l + 1, by rw [heq, Int.cast_one, one_mul], ?_⟩
    rw [abs_one]
    exact one_lt_pow₀ (by norm_num) hp.ne'
  · refine ⟨_, _, hround, ?_⟩
    have hpow : (10 : ℚ) ^ (l + 1) = 10 ^ p * 10 ^ (l + 1 - p) := by rw [← ten_zpow_add, sub_add_cancel]
    rw [hround, hpow, mul_lt_mul_iff_left₀ (ten_zpow_pos _)] at hless
    rw [abs_of_nonneg hnonneg]
    exact_mod_cast hless

/-- The last place kept of a number with `l + 1` digits before the point, at a scale. -/
theorem roundTo_mul {l : ℕ} (hlo : 10 ^ l ≤ y) (hhi : y < 10 ^ (l + 1)) (e : ℤ) (k : ℤ)
    (hk : k = l + 1 - p) : roundTo p (y * 10 ^ e) = roundHalfEven (y / 10 ^ k) * 10 ^ (k + e) := by
  have hpos : 0 < y * 10 ^ e := mul_pos ((by positivity : (0 : ℚ) < 10 ^ l).trans_le hlo) (ten_zpow_pos e)
  have hlog : Int.log 10 (y * 10 ^ e) = l + e := by
    apply log_eq
    · rw [zpow_add₀ (by norm_num), zpow_natCast]
      exact mul_le_mul_of_nonneg_right hlo (ten_zpow_pos e).le
    · rw [show (l : ℤ) + e + 1 = e + ((l + 1 : ℕ) : ℤ) by push_cast; ring, ten_zpow_add]
      exact mul_lt_mul_of_pos_right hhi (ten_zpow_pos e)
  have hlast : (l : ℤ) + e + 1 - p = k + e := by omega
  dsimp only [roundTo]
  rw [abs_of_pos hpos, hlog, hlast]
  rw [zpow_add₀ (by norm_num : (10 : ℚ) ≠ 0) k e, mul_div_mul_right _ _ (ten_zpow_pos e).ne']

/-- Digits that are dropped as a number is rounded. -/
theorem roundTo_coeff {c k : ℕ} (hc : c ≠ 0) (hk : k + p = digits c) (e : ℤ) :
    roundTo p ((c : ℚ) * 10 ^ e) = (dropHalfEven c k : ℚ) * 10 ^ (e + k) := by
  have hlo : (10 : ℚ) ^ Nat.log 10 c ≤ c := by exact_mod_cast Nat.pow_log_le_self 10 hc
  have hhi : (c : ℚ) < 10 ^ (Nat.log 10 c + 1) := by
    exact_mod_cast Nat.lt_pow_succ_log_self (by norm_num) c
  have hlast : (k : ℤ) = Nat.log 10 c + 1 - p := by
    rw [digits] at hk
    omega
  have hround := roundHalfEven_div_pow c k
  push_cast at hround
  rw [roundTo_mul hlo hhi e k hlast, zpow_natCast, add_comm (k : ℤ), hround, Int.cast_natCast]

theorem value_roundTo (neg : Bool) {c c' : ℕ} {e e' : ℤ} (h : (c' : ℚ) * 10 ^ e' = roundTo p (c * 10 ^ e)) :
    value ⟨neg, c', e'⟩ = roundTo p (value ⟨neg, c, e⟩) := by
  rw [value_eq, value_eq]
  dsimp only
  split_ifs
  · rw [roundTo_neg, h]
  · exact h

theorem value_fix (hp : 0 < p) (d : Decimal) : (fix p d).value = roundTo p d.value := by
  rw [fix]
  split_ifs with hdigits
  · have hc : |d.int| < 10 ^ p := by
      rw [abs_int]
      exact_mod_cast (digits_le_iff hp).mp hdigits
    exact (roundTo_eq_self hc d.exp).symm
  have hn : d.coeff ≠ 0 := by
    intro h
    rw [h, digits_le_iff hp] at hdigits
    exact hdigits (by positivity)
  have hround := roundTo_coeff hn (Nat.sub_add_cancel (not_le.mp hdigits).le) d.exp
  dsimp only
  split_ifs with hcarry
  · -- a carry to one more digit does not change the number
    obtain ⟨p, rfl⟩ := Nat.exists_eq_add_of_lt hp
    refine value_roundTo _ ?_
    rw [hround, hcarry, zpow_add_one₀ (by norm_num), Nat.zero_add, Nat.add_sub_cancel, pow_succ]
    push_cast
    ring
  · exact value_roundTo _ hround.symm

/-- Halves of a place that is not the last one are multiples of five. -/
theorem half_mul_pow (m : ℤ) (k : ℕ) :
    ((m : ℚ) + 1 / 2) * 10 ^ (((k + 1 : ℕ) : ℤ)) = ((5 * ((2 * m + 1) * 10 ^ k) : ℤ) : ℚ) := by
  rw [zpow_natCast, pow_succ]
  push_cast
  ring

theorem lt_iff_of_between (hlo : (q : ℚ) < y) (hhi : y < q + 1) (t : ℤ) : (t : ℚ) < y ↔ t ≤ q := by
  constructor
  · intro h
    have : (t : ℚ) < (q + 1 : ℤ) := h.trans (by exact_mod_cast hhi)
    exact Int.lt_add_one_iff.mp (by exact_mod_cast this)
  · intro h
    have : (t : ℚ) ≤ (q : ℤ) := by exact_mod_cast h
    exact this.trans_lt (by exact_mod_cast hlo)

theorem ne_of_between (hlo : (q : ℚ) < y) (hhi : y < q + 1) (t : ℤ) : (t : ℚ) ≠ y := by
  rintro rfl
  have hq : (q : ℤ) < t := by exact_mod_cast hlo
  have hq' : t < q + 1 := by exact_mod_cast hhi
  omega

/-- A number next to another one rounds as it does, where it is not taken for a half. -/
theorem roundHalfEven_between (hlo : (q : ℚ) < y) (hhi : y < q + 1) (k : ℕ) :
    roundHalfEven (((if q % 5 = 0 then q + 1 else q : ℕ) : ℚ) / 10 ^ ((k + 1 : ℕ) : ℤ)) =
      roundHalfEven (y / 10 ^ ((k + 1 : ℕ) : ℤ)) := by
  obtain ⟨q', hq'⟩ : ∃ q', q' = if q % 5 = 0 then q + 1 else q := ⟨_, rfl⟩
  rw [← hq']
  apply eq_of_forall_lt_iff
  intro m
  have hpos := ten_zpow_pos ((k + 1 : ℕ) : ℤ)
  rw [lt_roundHalfEven_iff, lt_roundHalfEven_iff, lt_div_iff₀ hpos, lt_div_iff₀ hpos, eq_div_iff hpos.ne',
    eq_div_iff hpos.ne', half_mul_pow]
  generalize (2 * m + 1) * 10 ^ k = t
  have hlt : ((5 * t : ℤ) : ℚ) < q' ↔ 5 * t ≤ q := by
    have : ((5 * t : ℤ) : ℚ) < (q' : ℤ) ↔ 5 * t < q' := Int.cast_lt
    rw [← Int.cast_natCast q', this, hq']
    split_ifs <;> omega
  have hne : ((5 * t : ℤ) : ℚ) ≠ q' := by
    intro h
    have : 5 * t = q' := by exact_mod_cast h
    rw [hq'] at this
    split_ifs at this <;> omega
  rw [hlt, lt_iff_of_between hlo hhi]
  simp only [hne, ne_of_between hlo hhi, false_and]

theorem roundTo_between (hq : 10 ^ p ≤ q) (hlo : (q : ℚ) < y) (hhi : y < q + 1) (e : ℤ) :
    roundTo p (((if q % 5 = 0 then q + 1 else q : ℕ) : ℚ) * 10 ^ e) = roundTo p (y * 10 ^ e) := by
  have hpos : q ≠ 0 := by
    have : 0 < 10 ^ p := by positivity
    omega
  obtain ⟨l, hl⟩ : ∃ l, l = Nat.log 10 q := ⟨_, rfl⟩
  have hlow : 10 ^ l ≤ q := hl ▸ Nat.pow_log_le_self 10 hpos
  have hhigh : q < 10 ^ (l + 1) := hl ▸ Nat.lt_pow_succ_log_self (by norm_num) q
  obtain ⟨k, rfl⟩ : ∃ k, l = p + k := Nat.exists_eq_add_of_le (hl ▸ Nat.le_log_of_pow_le (by norm_num) hq)
  have hround := roundHalfEven_between hlo hhi k
  obtain ⟨q', hq'⟩ : ∃ q', q' = if q % 5 = 0 then q + 1 else q := ⟨_, rfl⟩
  rw [← hq'] at hround ⊢
  have hle : (q : ℚ) ≤ q' := by
    rw [hq']
    split_ifs <;> push_cast <;> linarith
  -- a power of ten is a multiple of five, which is not taken
  have hhigh' : q' < 10 ^ (p + k + 1) := by
    rw [pow_succ] at hhigh ⊢
    rw [hq']
    split_ifs <;> omega
  have hk : ((k + 1 : ℕ) : ℤ) = ((p + k : ℕ) : ℤ) + 1 - p := by push_cast; ring
  have hlow' : (10 : ℚ) ^ (p + k) ≤ q := by exact_mod_cast hlow
  have hnext : (q : ℚ) + 1 ≤ 10 ^ (p + k + 1) := by exact_mod_cast hhigh
  rw [roundTo_mul (hlow'.trans hle) (by exact_mod_cast hhigh') e _ hk,
    roundTo_mul (hlow'.trans hlo.le) (hhi.trans_le hnext) e _ hk, hround]

end RoundTo

section Divide
variable {p : ℕ} {a b : Decimal}

theorem value_dropZeros (n : ℕ) (d : Decimal) : (dropZeros n d).value = d.value := by
  induction n generalizing d with
  | zero => rfl
  | succ n ih =>
    rw [dropZeros]
    split_ifs with h
    · have hcoeff : (d.coeff : ℚ) = (d.coeff / 10 : ℕ) * 10 := by
        exact_mod_cast (by omega : d.coeff = d.coeff / 10 * 10)
      rw [ih, value_eq, value_eq d, hcoeff]
      dsimp only
      rw [zpow_add_one₀ (by norm_num)]
      split_ifs <;> ring
    · rfl

theorem value_div_value (a b : Decimal) : a.value / b.value =
    if a.neg != b.neg then -((a.coeff : ℚ) / b.coeff * 10 ^ (a.exp - b.exp))
    else (a.coeff : ℚ) / b.coeff * 10 ^ (a.exp - b.exp) := by
  have hquotient : (a.coeff * 10 ^ a.exp : ℚ) / (b.coeff * 10 ^ b.exp) =
      a.coeff / b.coeff * 10 ^ (a.exp - b.exp) := by
    rw [zpow_sub₀ (by norm_num), mul_div_mul_comm]
  rw [value_eq, value_eq, ← hquotient]
  cases a.neg <;> cases b.neg <;> simp [neg_div, div_neg]

/-- The number with the sign of a quotient, rounded as the quotient. -/
theorem value_fix_quotient (hp : 0 < p) {c : ℕ} {e : ℤ}
    (h : roundTo p ((c : ℚ) * 10 ^ e) = roundTo p ((a.coeff : ℚ) / b.coeff * 10 ^ (a.exp - b.exp))) :
    (fix p ⟨a.neg != b.neg, c, e⟩).value = roundTo p (a.value / b.value) := by
  rw [value_fix hp, value_eq, value_div_value]
  dsimp only
  split_ifs
  · rw [roundTo_neg, roundTo_neg, h]
  · exact h

theorem pow_le_shifted {m n : ℕ} (hm : m ≠ 0) (hn : n ≠ 0) :
    (10 : ℚ) ^ p ≤ (m : ℚ) / n * 10 ^ ((digits n : ℤ) - digits m + p + 1) := by
  have hlo : (10 : ℚ) ^ ((digits m : ℤ) - 1) ≤ m := by
    rw [digits, Nat.cast_add_one, add_sub_cancel_right, zpow_natCast]
    exact_mod_cast Nat.pow_log_le_self 10 hm
  have hhi : (n : ℚ) ≤ 10 ^ (digits n : ℤ) := by
    rw [zpow_natCast]
    exact_mod_cast (Nat.lt_pow_succ_log_self (by norm_num) n).le
  have hn' : (0 : ℚ) < n := by exact_mod_cast Nat.pos_of_ne_zero hn
  have hscale : (10 : ℚ) ^ p * 10 ^ (digits n : ℤ) =
      10 ^ ((digits m : ℤ) - 1) * 10 ^ ((digits n : ℤ) - digits m + p + 1) := by
    rw [← zpow_natCast, ← zpow_add₀ (by norm_num), ← zpow_add₀ (by norm_num)]
    congr 1
    ring
  rw [div_mul_eq_mul_div, le_div_iff₀ hn']
  calc (10 : ℚ) ^ p * n ≤ 10 ^ p * 10 ^ (digits n : ℤ) := mul_le_mul_of_nonneg_left hhi (by positivity)
    _ = 10 ^ ((digits m : ℤ) - 1) * 10 ^ ((digits n : ℤ) - digits m + p + 1) := hscale
    _ ≤ m * 10 ^ ((digits n : ℤ) - digits m + p + 1) :=
      mul_le_mul_of_nonneg_right hlo (ten_zpow_pos _).le

theorem shifted_eq (m n : ℕ) (s : ℤ) :
    ((m * 10 ^ s.toNat : ℕ) : ℚ) / (n * 10 ^ (-s).toNat : ℕ) = (m : ℚ) / n * 10 ^ s := by
  have hpow : (10 : ℚ) ^ s = 10 ^ s.toNat / 10 ^ (-s).toNat := by
    rw [← zpow_natCast, ← zpow_natCast, ← zpow_sub₀ (by norm_num)]
    congr 1
    omega
  rw [hpow]
  push_cast
  rw [mul_div_mul_comm]

/-- Division is rounded to the digits of the context once. -/
theorem value_divide (hp : 0 < p) (hb : b.coeff ≠ 0) :
    (divide p a b).map value = some (roundTo p (a.value / b.value)) := by
  rw [divide, if_neg hb]
  split_ifs with ha
  · rw [Option.map_some, value_fix_quotient hp]
    rw [ha, Nat.cast_zero, zero_div, zero_mul]
  obtain ⟨s, hs⟩ : ∃ s, s = (digits b.coeff : ℤ) - digits a.coeff + p + 1 := ⟨_, rfl⟩
  obtain ⟨m, hm⟩ : ∃ m, m = a.coeff * 10 ^ s.toNat := ⟨_, rfl⟩
  obtain ⟨n, hn⟩ : ∃ n, n = b.coeff * 10 ^ (-s).toNat := ⟨_, rfl⟩
  have hn0 : 0 < n := by
    rw [hn]
    positivity
  have hquotient : (m : ℚ) / n = (a.coeff : ℚ) / b.coeff * 10 ^ s := by rw [hm, hn, shifted_eq]
  have hscale : (m : ℚ) / n * 10 ^ (a.exp - b.exp - s) = (a.coeff : ℚ) / b.coeff * 10 ^ (a.exp - b.exp) := by
    rw [hquotient, mul_assoc, ← zpow_add₀ (by norm_num), add_sub_cancel]
  simp only [← hs, ← hm, ← hn]
  by_cases hexact : m % n = 0
  · rw [if_neg (not_not.mpr hexact)]
    have hsplit := div_eq_add m hn0
    rw [hexact, Nat.cast_zero, zero_div, add_zero] at hsplit
    have hvalue : value ⟨a.neg != b.neg, m / n, a.exp - b.exp - s⟩ = a.value / b.value := by
      rw [value_eq, value_div_value, ← hscale, hsplit]
    rw [Option.map_some, value_fix hp, value_dropZeros, hvalue]
  · rw [if_pos hexact, Option.map_some, value_fix_quotient hp]
    obtain ⟨hlo, hhi⟩ := div_between hn0 hexact
    -- the shift leaves more digits than are kept
    have hlong : 10 ^ p ≤ m / n := by
      have hle := pow_le_shifted (p := p) ha hb
      rw [← hs, ← hquotient] at hle
      exact Nat.lt_add_one_iff.mp (by exact_mod_cast hle.trans_lt hhi)
    rw [← hscale]
    exact roundTo_between hlong hlo hhi (a.exp - b.exp - s)

end Divide

section Add
variable {p : ℕ} {e : ℤ} {d : Decimal}

theorem value_signed (zero : Bool) (n e : ℤ) : (signed zero n e).value = n * 10 ^ e := by
  have hint : (signed zero n e).int = n := by
    rw [int, signed]
    rcases lt_trichotomy n 0 with hn | rfl | hn
    · simp [hn.ne, hn, abs_of_neg hn]
    · simp
    · simp [hn.ne', hn.not_gt, abs_of_pos hn]
  rw [value, hint]
  rfl

theorem value_rescale_of_le (h : e ≤ d.exp) : (d.rescale e).value = d.value := by
  rw [rescale, if_pos h, value_eq, value_eq d]
  dsimp only
  rw [← scale_up _ h, div_mul_cancel₀ _ (ten_zpow_pos e).ne']

theorem value_add (hp : 0 < p) (a b : Decimal) : (add p a b).value = roundTo p (a.value + b.value) := by
  have ha := value_rescale_of_le (min_le_left a.exp b.exp)
  have hb := value_rescale_of_le (min_le_right a.exp b.exp)
  rw [value, exp_rescale] at ha hb
  rw [add, value_fix hp, value_signed, Int.cast_add, add_mul, ha, hb]

/-- A running total is exact as long as no partial sum needs more digits than there are. -/
theorem value_foldl_add (hp : 0 < p) (a : Decimal) (ds : List Decimal)
    (h : ∀ k, roundTo p (a.value + ((ds.take k).map value).sum) = a.value + ((ds.take k).map value).sum) :
    (ds.foldl (add p) a).value = a.value + (ds.map value).sum := by
  induction ds generalizing a with
  | nil => simp
  | cons d ds ih =>
    have hstep : (add p a d).value = a.value + d.value := by
      rw [value_add hp]
      simpa using h 1
    rw [List.foldl_cons, ih, hstep, List.map_cons, List.sum_cons, add_assoc]
    intro k
    have hk := h (k + 1)
    rwa [List.take_succ_cons, List.map_cons, List.sum_cons, ← add_assoc, ← hstep] at hk

end Add

end Decimal

end Chic
