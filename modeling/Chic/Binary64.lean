import Mathlib.Algebra.Order.Field.Power
import Mathlib.Data.Int.Log
import Mathlib.Data.Rat.Floor
import Mathlib.Tactic.FieldSimp
import Mathlib.Tactic.NormNum
import Mathlib.Tactic.Ring
import Chic.Rounding

namespace Chic.Binary64

/-- The exponent of the last binary place kept: 53 significant bits, fewer near zero. -/
def quantum (x : ℚ) : ℤ := max (Int.log 2 |x| - 52) (-1074)

/-- The nearest double while no exponent is too large for one. -/
def nearest (x : ℚ) : ℚ := roundHalfEven (x / 2 ^ quantum x) * 2 ^ quantum x

def ofRat (x : ℚ) : Option ℚ := if |nearest x| < 2 ^ (1024 : ℤ) then some (nearest x) else none

/-- From here on everything overflows: halfway from the largest double to `2 ^ 1024`. -/
def tooLarge : ℚ := 2 ^ (1024 : ℤ) - 2 ^ (970 : ℤ)

section RoundHalfEven
variable {x : ℚ} {m : ℤ}

theorem roundHalfEven_mem (x : ℚ) : roundHalfEven x = ⌊x⌋ ∨ roundHalfEven x = ⌊x⌋ + 1 := by
  dsimp only [roundHalfEven]
  split_ifs
  · exact .inl rfl
  · exact .inr rfl
  · exact .inl rfl
  · exact .inr rfl

theorem floor_lt_roundHalfEven_iff :
    ⌊x⌋ < roundHalfEven x ↔ ⌊x⌋ + 1 / 2 < x ∨ (⌊x⌋ + 1 / 2 = x ∧ ⌊x⌋ % 2 = 1) := by
  dsimp only [roundHalfEven]
  split_ifs with hlow hhigh heven
  · have hnot : ¬ ((⌊x⌋ : ℚ) + 1 / 2 < x ∨ (⌊x⌋ + 1 / 2 = x ∧ ⌊x⌋ % 2 = 1)) := by
      rintro (h | ⟨h, -⟩) <;> linarith
    simp only [lt_irrefl, hnot]
  · have hlt : (⌊x⌋ : ℚ) + 1 / 2 < x := by linarith
    simp only [hlt, true_or, Int.lt_add_one_iff, le_refl]
  · have hnot : ¬ ((⌊x⌋ : ℚ) + 1 / 2 < x ∨ (⌊x⌋ + 1 / 2 = x ∧ ⌊x⌋ % 2 = 1)) := by
      rintro (h | ⟨-, h⟩)
      · linarith
      · omega
    simp only [lt_irrefl, hnot]
  · have htie : (⌊x⌋ : ℚ) + 1 / 2 = x := by linarith
    have hodd : ⌊x⌋ % 2 = 1 := by omega
    simp only [htie, hodd, and_self, or_true, Int.lt_add_one_iff, le_refl]

/-- A number rounds above `m` from halfway to the next integer on, exactly halfway only if `m`
is odd. -/
theorem lt_roundHalfEven_iff :
    m < roundHalfEven x ↔ m + 1 / 2 < x ∨ (m + 1 / 2 = x ∧ m % 2 = 1) := by
  have hlo := Int.floor_le x
  have hhi := Int.lt_floor_add_one x
  -- the fraction of `x` decides only where `m` is its floor
  rcases lt_trichotomy m ⌊x⌋ with hm | rfl | hm
  · have hm' : (m : ℚ) + 1 ≤ ⌊x⌋ := by exact_mod_cast hm
    have hleft : m < roundHalfEven x := by
      rcases roundHalfEven_mem x with h | h <;> omega
    exact iff_of_true hleft (.inl (by linarith))
  · exact floor_lt_roundHalfEven_iff
  · have hm' : (⌊x⌋ : ℚ) + 1 ≤ m := by exact_mod_cast hm
    have hleft : ¬ m < roundHalfEven x := by
      rcases roundHalfEven_mem x with h | h <;> omega
    apply iff_of_false hleft
    rintro (h | ⟨h, -⟩) <;> linarith

theorem le_roundHalfEven (h : m ≤ x) : m ≤ roundHalfEven x := by
  rw [← Int.sub_one_lt_iff, lt_roundHalfEven_iff]
  left
  push_cast
  linarith

theorem roundHalfEven_le (h : x ≤ m) : roundHalfEven x ≤ m := by
  rw [← not_lt, lt_roundHalfEven_iff]
  rintro (hlt | ⟨heq, -⟩) <;> linarith

theorem roundHalfEven_intCast (n : ℤ) : roundHalfEven (n : ℚ) = n :=
  le_antisymm (roundHalfEven_le le_rfl) (le_roundHalfEven le_rfl)

theorem roundHalfEven_mono (h : x ≤ y) : roundHalfEven x ≤ roundHalfEven y := by
  refine le_of_forall_lt fun m hm => ?_
  rw [lt_roundHalfEven_iff] at hm ⊢
  rcases hm with hlt | ⟨heq, hodd⟩
  · exact .inl (hlt.trans_le h)
  · rcases h.eq_or_lt with rfl | hlt
    · exact .inr ⟨heq, hodd⟩
    · exact .inl (heq.trans_lt hlt)

theorem roundHalfEven_neg : roundHalfEven (-x) = -roundHalfEven x := by
  -- above `-m - 1` for one of them is at most `m` for the other
  apply eq_of_forall_lt_iff
  intro m
  have hneg : m < -roundHalfEven x ↔ ¬ -m - 1 < roundHalfEven x := by omega
  rw [hneg, lt_roundHalfEven_iff, lt_roundHalfEven_iff]
  push_cast
  have hparity : m % 2 = 1 ↔ ¬ (-m - 1) % 2 = 1 := by omega
  constructor
  · rintro (h | ⟨h, hodd⟩) (h' | ⟨h', hodd'⟩)
    · linarith
    · linarith
    · linarith
    · exact hparity.mp hodd hodd'
  · intro h
    rw [not_or, not_lt, not_and] at h
    rcases h.1.lt_or_eq with hlt | heq
    · exact .inl (by linarith)
    · exact .inr ⟨by linarith, hparity.mpr (h.2 (by linarith))⟩

end RoundHalfEven

section Nearest
variable {x y : ℚ} {m k : ℤ}

theorem quantum_neg : quantum (-x) = quantum x := by rw [quantum, quantum, abs_neg]

theorem nearest_neg : nearest (-x) = -nearest x := by
  rw [nearest, nearest, quantum_neg, neg_div, roundHalfEven_neg, Int.cast_neg, neg_mul]

/-- A multiple of the quantum is not crossed. -/
theorem le_nearest (h : m * 2 ^ quantum x ≤ x) : m * 2 ^ quantum x ≤ nearest x := by
  have hq : (0 : ℚ) < 2 ^ quantum x := zpow_pos two_pos _
  have hm : m ≤ roundHalfEven (x / 2 ^ quantum x) := le_roundHalfEven ((le_div_iff₀ hq).mpr h)
  exact mul_le_mul_of_nonneg_right (by exact_mod_cast hm) hq.le

theorem nearest_nonneg (h : 0 ≤ x) : 0 ≤ nearest x := by
  have := le_nearest (x := x) (m := 0) (by simpa using h)
  simpa using this

theorem nearest_nonpos (h : x ≤ 0) : nearest x ≤ 0 := by
  have := nearest_nonneg (neg_nonneg.mpr h)
  rwa [nearest_neg, neg_nonneg] at this

/-- A power of two is not crossed where it is a multiple of the quantum. -/
theorem nearest_le_two_zpow {k : ℤ} (hk : quantum x ≤ k) (h : x ≤ 2 ^ k) : nearest x ≤ 2 ^ k := by
  have hq : (0 : ℚ) < 2 ^ quantum x := zpow_pos two_pos _
  obtain ⟨j, rfl⟩ := Int.le.dest hk
  rw [zpow_add₀ two_ne_zero, mul_comm, zpow_natCast] at h ⊢
  have hm : roundHalfEven (x / 2 ^ quantum x) ≤ 2 ^ j :=
    roundHalfEven_le ((div_le_iff₀ hq).mpr (by simpa using h))
  exact mul_le_mul_of_nonneg_right (by exact_mod_cast hm) hq.le

theorem two_zpow_le_nearest {k : ℤ} (hk : quantum x ≤ k) (h : 2 ^ k ≤ x) : 2 ^ k ≤ nearest x := by
  obtain ⟨j, rfl⟩ := Int.le.dest hk
  have hpow : (2 : ℚ) ^ (quantum x + j) = ((2 ^ j : ℤ) : ℚ) * 2 ^ quantum x := by
    rw [zpow_add₀ two_ne_zero, mul_comm, zpow_natCast]
    push_cast
    rfl
  rw [hpow] at h ⊢
  exact le_nearest h

theorem quantum_le {k : ℤ} (hk : -1021 ≤ k) (h0 : x ≠ 0) (h : |x| < 2 ^ k) : quantum x ≤ k - 53 := by
  have hlog := (Int.lt_zpow_iff_log_lt Nat.one_lt_two (abs_pos.mpr h0)).mp (by exact_mod_cast h)
  rw [quantum]
  omega

theorem quantum_eq {k : ℤ} (hk : -1022 ≤ k) (hle : 2 ^ k ≤ |x|) (hlt : |x| < 2 ^ (k + 1)) :
    quantum x = k - 52 := by
  have hpos : 0 < |x| := (zpow_pos two_pos k).trans_le hle
  have h1 := (Int.lt_zpow_iff_log_lt Nat.one_lt_two hpos).mp (by exact_mod_cast hlt)
  have h2 := (Int.zpow_le_iff_le_log Nat.one_lt_two hpos).mp (by exact_mod_cast hle)
  rw [quantum]
  omega

theorem two_zpow_le_nearest_of_le {k : ℤ} (hk : -1022 ≤ k) (h : 2 ^ k ≤ x) :
    2 ^ k ≤ nearest x := by
  have hx : 0 < x := (zpow_pos two_pos k).trans_le h
  have hlog : k ≤ Int.log 2 |x| := by
    rw [abs_of_pos hx, ← Int.zpow_le_iff_le_log Nat.one_lt_two hx]
    exact_mod_cast h
  have hself : (2 : ℚ) ^ Int.log 2 |x| ≤ x := by
    have := Int.zpow_log_le_self Nat.one_lt_two (abs_pos.mpr hx.ne')
    rwa [abs_of_pos hx] at *
  have hquantum : quantum x ≤ Int.log 2 |x| := by
    rw [quantum]
    omega
  exact (zpow_le_zpow_right₀ one_le_two hlog).trans (two_zpow_le_nearest hquantum hself)

theorem two_zpow_eq_mul (k : ℤ) (n : ℕ) : (2 : ℚ) ^ (k + n) = 2 ^ n * 2 ^ k := by
  rw [add_comm, zpow_add₀ two_ne_zero, zpow_natCast]

theorem nearest_binade (hk : -1073 ≤ k) (x : ℚ) :
    (x < 2 ^ 52 * 2 ^ k ∧ nearest x ≤ 2 ^ 52 * 2 ^ k) ∨
    nearest x = roundHalfEven (x / 2 ^ k) * 2 ^ k ∨
    (2 ^ 53 * 2 ^ k ≤ x ∧ 2 ^ 53 * 2 ^ k ≤ nearest x) := by
  have hlow : (2 : ℚ) ^ (k + 52) = 2 ^ 52 * 2 ^ k := two_zpow_eq_mul k 52
  have hhigh : (2 : ℚ) ^ (k + 53) = 2 ^ 53 * 2 ^ k := two_zpow_eq_mul k 53
  rw [← hlow, ← hhigh]
  rcases lt_or_ge x (2 ^ (k + 52)) with hlt | hge
  · refine .inl ⟨hlt, ?_⟩
    rcases le_or_gt x 0 with hx | hx
    · exact (nearest_nonpos hx).trans (zpow_pos two_pos _).le
    · refine nearest_le_two_zpow ?_ hlt.le
      have hquantum := quantum_le (k := k + 52) (by omega) hx.ne' (by rwa [abs_of_pos hx])
      exact hquantum.trans (by omega)
  · rcases lt_or_ge x (2 ^ (k + 53)) with hlt | hge'
    · have hx : 0 < x := (zpow_pos two_pos _).trans_le hge
      have hquantum := quantum_eq (k := k + 52) (x := x) (by omega) (by rwa [abs_of_pos hx])
        (by rwa [abs_of_pos hx, add_assoc])
      rw [add_sub_cancel_right] at hquantum
      exact .inr (.inl (by rw [nearest, hquantum]))
    · exact .inr (.inr ⟨hge', two_zpow_le_nearest_of_le (by omega) hge'⟩)

/-- What rounds to a double of a binade or above. -/
theorem le_nearest_iff (hk : -1073 ≤ k) (hlo : 2 ^ 52 < m) (hhi : m ≤ 2 ^ 53) :
    m * 2 ^ k ≤ nearest x ↔ (m - 1 / 2) * 2 ^ k < x ∨ ((m - 1 / 2) * 2 ^ k = x ∧ m % 2 = 0) := by
  have hq : (0 : ℚ) < 2 ^ k := zpow_pos two_pos _
  have hm : (2 : ℚ) ^ 52 + 1 ≤ m := by exact_mod_cast hlo
  have hm' : (m : ℚ) ≤ 2 ^ 53 := by exact_mod_cast hhi
  have hhalf : (m - 1 / 2) * 2 ^ k < (m : ℚ) * 2 ^ k := mul_lt_mul_of_pos_right (by linarith) hq
  rcases nearest_binade hk x with ⟨hlt, hnearest⟩ | hin | ⟨hge, hnearest⟩
  · have hbelow : x < (m - 1 / 2) * 2 ^ k :=
      hlt.trans_le (mul_le_mul_of_nonneg_right (by linarith) hq.le)
    apply iff_of_false
    · rw [not_le]
      exact hnearest.trans_lt (mul_lt_mul_of_pos_right (by linarith) hq)
    · rintro (h | ⟨h, -⟩)
      · exact h.not_gt hbelow
      · exact hbelow.ne' h
  · have hround : (m : ℚ) ≤ roundHalfEven (x / 2 ^ k) ↔ m - 1 < roundHalfEven (x / 2 ^ k) := by
      rw [Int.cast_le, Int.sub_one_lt_iff]
    have hprev : ((m - 1 : ℤ) : ℚ) + 1 / 2 = m - 1 / 2 := by
      push_cast
      ring
    have hparity : (m - 1) % 2 = 1 ↔ m % 2 = 0 := by omega
    rw [hin, mul_le_mul_iff_left₀ hq, hround, lt_roundHalfEven_iff, hprev, hparity, lt_div_iff₀ hq,
      eq_div_iff hq.ne']
  · have hle : (m : ℚ) * 2 ^ k ≤ 2 ^ 53 * 2 ^ k := mul_le_mul_of_nonneg_right hm' hq.le
    exact iff_of_true (hle.trans hnearest) (.inl (hhalf.trans_le (hle.trans hge)))

/-- No double is between two neighbours. -/
theorem le_nearest_of_lt (hk : -1073 ≤ k) (hlo : 2 ^ 52 < m) (hhi : m ≤ 2 ^ 53)
    (h : (m - 1) * 2 ^ k < nearest x) : m * 2 ^ k ≤ nearest x := by
  have hq : (0 : ℚ) < 2 ^ k := zpow_pos two_pos _
  have hm : (2 : ℚ) ^ 52 ≤ m - 1 := by
    rw [le_sub_iff_add_le]
    exact_mod_cast hlo
  have hm' : (m : ℚ) ≤ 2 ^ 53 := by exact_mod_cast hhi
  rcases nearest_binade hk x with ⟨-, hnearest⟩ | hin | ⟨-, hnearest⟩
  · have hle : (2 : ℚ) ^ 52 * 2 ^ k ≤ (m - 1) * 2 ^ k := mul_le_mul_of_nonneg_right hm hq.le
    exact absurd (hnearest.trans hle) h.not_ge
  · rw [hin, mul_lt_mul_iff_left₀ hq] at h
    rw [hin, mul_le_mul_iff_left₀ hq]
    have hlt : m - 1 < roundHalfEven (x / 2 ^ k) := by exact_mod_cast h
    exact Int.cast_le.mpr (by omega)
  · exact (mul_le_mul_of_nonneg_right hm' hq.le).trans hnearest

theorem nearest_mono (h : x ≤ y) : nearest x ≤ nearest y := by
  have hpos : ∀ {x y : ℚ}, 0 < x → x ≤ y → nearest x ≤ nearest y := by
    intro x y hx h
    have hy : 0 < y := hx.trans_le h
    have hlog : Int.log 2 |x| ≤ Int.log 2 |y| := by
      rw [abs_of_pos hx, abs_of_pos hy]
      exact Int.log_mono_right hx h
    by_cases hquantum : quantum x = quantum y
    · have hq : (0 : ℚ) < 2 ^ quantum y := zpow_pos two_pos _
      rw [nearest, nearest, hquantum]
      have hround := roundHalfEven_mono (div_le_div_of_nonneg_right h hq.le)
      exact mul_le_mul_of_nonneg_right (Int.cast_le.mpr hround) hq.le
    · -- the binade of `y` begins above `x`
      have hlt : quantum x < quantum y ∧ quantum x ≤ Int.log 2 |y| ∧
          quantum y ≤ Int.log 2 |y| ∧ Int.log 2 |x| + 1 ≤ Int.log 2 |y| := by
        rw [quantum, quantum] at *
        omega
      have hself := Int.zpow_log_le_self (b := 2) Nat.one_lt_two (abs_pos.mpr hy.ne')
      have hnext := Int.lt_zpow_succ_log_self (b := 2) Nat.one_lt_two |x|
      rw [abs_of_pos hy] at hself hlt
      rw [abs_of_pos hx] at hnext hlt
      push_cast at hself hnext
      have hle : x ≤ 2 ^ Int.log 2 y := hnext.le.trans (zpow_le_zpow_right₀ one_le_two hlt.2.2.2)
      exact (nearest_le_two_zpow hlt.2.1 hle).trans (two_zpow_le_nearest hlt.2.2.1 hself)
  rcases lt_or_ge 0 x with hx | hx
  · exact hpos hx h
  rcases lt_or_ge y 0 with hy | hy
  · have hneg := hpos (neg_pos.mpr hy) (neg_le_neg h)
    rwa [nearest_neg, nearest_neg, neg_le_neg_iff] at hneg
  · exact (nearest_nonpos hx).trans (nearest_nonneg hy)

theorem nearest_zero : nearest 0 = 0 := le_antisymm (nearest_nonpos le_rfl) (nearest_nonneg le_rfl)

/-- What has few enough places is a double. -/
theorem nearest_eq_self (hm : |m| ≤ 2 ^ 53) (hk : -1074 ≤ k) :
    nearest (m * 2 ^ k) = m * 2 ^ k := by
  have hself : ∀ {m : ℤ} {k : ℤ}, quantum (m * 2 ^ k) ≤ k → m * 2 ^ k ≤ nearest (m * 2 ^ k) := by
    intro m k hq
    obtain ⟨j, hj⟩ := Int.le.dest hq
    have hmul : (m : ℚ) * 2 ^ k = (m * 2 ^ j : ℤ) * 2 ^ quantum (m * 2 ^ k) := by
      nth_rewrite 1 [← hj]
      rw [two_zpow_eq_mul]
      push_cast
      ring
    nth_rewrite 1 [hmul]
    exact le_nearest hmul.ge
  -- one inequality from the places, the other by the sign
  have hboth : ∀ {m : ℤ} {k : ℤ}, quantum (m * 2 ^ k) ≤ k → nearest (m * 2 ^ k) = m * 2 ^ k := by
    intro m k hq
    apply le_antisymm _ (hself hq)
    have hneg := hself (m := -m) (k := k) (by rwa [Int.cast_neg, neg_mul, quantum_neg])
    rwa [Int.cast_neg, neg_mul, nearest_neg, neg_le_neg_iff] at hneg
  have hquantum : ∀ {m : ℤ} {k : ℤ}, m ≠ 0 → |m| < 2 ^ 53 → -1074 ≤ k → quantum (m * 2 ^ k) ≤ k := by
    intro m k hne hm hk
    have hpow : (0 : ℚ) < 2 ^ k := zpow_pos two_pos k
    have hhigh : (2 : ℚ) ^ (k + 53) = 2 ^ 53 * 2 ^ k := two_zpow_eq_mul k 53
    have hlt : |(m : ℚ) * 2 ^ k| < 2 ^ (k + 53) := by
      rw [abs_mul, abs_of_pos hpow, hhigh]
      apply mul_lt_mul_of_pos_right _ hpow
      exact_mod_cast hm
    have hpos : 0 < |(m : ℚ) * 2 ^ k| := abs_pos.mpr (mul_ne_zero (Int.cast_ne_zero.mpr hne) hpow.ne')
    have hlog := (Int.lt_zpow_iff_log_lt Nat.one_lt_two hpos).mp (by exact_mod_cast hlt)
    rw [quantum]
    omega
  rcases eq_or_ne m 0 with rfl | hne
  · rw [Int.cast_zero, zero_mul, nearest_zero]
  rcases hm.lt_or_eq with hlt | heq
  · exact hboth (hquantum hne hlt hk)
  · -- the next power of two, with one place less
    have heven : ∃ n : ℤ, m = n * 2 ∧ n ≠ 0 ∧ |n| < 2 ^ 53 := by
      refine ⟨m / 2, ?_⟩
      rcases abs_choice m with h | h <;> rw [h] at heq <;> refine ⟨by omega, by omega, ?_⟩ <;>
        rw [abs_lt] <;> omega
    obtain ⟨n, rfl, hn, hlt⟩ := heven
    have hmul : ((n * 2 : ℤ) : ℚ) * 2 ^ k = n * 2 ^ (k + 1) := by
      rw [zpow_add_one₀ two_ne_zero]
      push_cast
      ring
    rw [hmul]
    exact hboth (hquantum hn hlt (by omega))

theorem nearest_intCast (hm : |m| ≤ 2 ^ 53) : nearest m = m := by
  have hself := nearest_eq_self (k := 0) hm (by norm_num)
  rwa [zpow_zero, mul_one] at hself

theorem nearest_nearest (x : ℚ) : nearest (nearest x) = nearest x := by
  have hq : (0 : ℚ) < 2 ^ quantum x := zpow_pos two_pos _
  have hle : |x / 2 ^ quantum x| ≤ (2 ^ 53 : ℤ) := by
    have hnext := Int.lt_zpow_succ_log_self (b := 2) Nat.one_lt_two |x|
    have hlog : Int.log 2 |x| + 1 ≤ quantum x + 53 := by
      rw [quantum]
      omega
    rw [abs_div, abs_of_pos hq, div_le_iff₀ hq]
    push_cast at hnext ⊢
    exact hnext.le.trans ((zpow_le_zpow_right₀ one_le_two hlog).trans_eq (two_zpow_eq_mul _ 53))
  have hround : |roundHalfEven (x / 2 ^ quantum x)| ≤ 2 ^ 53 := by
    rw [abs_le] at hle ⊢
    refine ⟨le_roundHalfEven ?_, roundHalfEven_le hle.2⟩
    push_cast at hle ⊢
    exact hle.1
  have hmin : -1074 ≤ quantum x := le_max_right _ _
  exact nearest_eq_self hround hmin

/-- The nearest double is below a power of two up to half a quantum below it. -/
theorem nearest_lt_zpow_iff {k : ℤ} (hk : -1021 ≤ k) :
    nearest x < 2 ^ (k + 1) ↔ x < 2 ^ (k + 1) - 2 ^ (k - 53) := by
  have hhigh : (2 : ℚ) ^ (k + 1) = (2 ^ 53 : ℤ) * 2 ^ (k - 52) := by
    rw [Int.cast_pow, Int.cast_ofNat, ← two_zpow_eq_mul, show k - 52 + (53 : ℕ) = k + 1 by push_cast; ring]
  have hhalf : (2 : ℚ) ^ (k + 1) - 2 ^ (k - 53) = ((2 ^ 53 : ℤ) - 1 / 2) * 2 ^ (k - 52) := by
    rw [hhigh, show k - 52 = k - 53 + (1 : ℕ) by push_cast; ring, two_zpow_eq_mul]
    ring
  rw [hhalf, hhigh, ← not_le, le_nearest_iff (by omega) (by norm_num) le_rfl, and_iff_left (by norm_num),
    ← le_iff_lt_or_eq, not_le]

/-- Where the nearest double overflows. -/
theorem nearest_lt_iff : nearest x < 2 ^ (1024 : ℤ) ↔ x < tooLarge :=
  nearest_lt_zpow_iff (k := 1023) (by norm_num)

theorem neg_one_lt_nearest_iff : -1 < nearest x ↔ -1 + 1 / 2 ^ 54 < x := by
  have h := nearest_lt_zpow_iff (x := -x) (k := -1) (by norm_num)
  rw [nearest_neg] at h
  norm_num at h
  constructor <;> intro hx
  · have := h.mp (by linarith)
    linarith
  · have := h.mpr (by linarith)
    linarith

theorem abs_nearest_lt_iff : |nearest x| < 2 ^ (1024 : ℤ) ↔ |x| < tooLarge := by
  rw [abs_lt, abs_lt, neg_lt, ← nearest_neg, nearest_lt_iff, nearest_lt_iff, neg_lt]

theorem ofRat_eq_none_iff : ofRat x = none ↔ tooLarge ≤ |x| := by
  rw [ofRat, ite_eq_right_iff, abs_nearest_lt_iff, ← not_lt]
  simp only [reduceCtorEq, imp_false]

theorem ofRat_eq_some_iff : ofRat x = some y ↔ |x| < tooLarge ∧ nearest x = y := by
  rw [ofRat, Option.ite_none_right_eq_some, abs_nearest_lt_iff, Option.some_inj]

theorem ofRat_eq_some (h : |x| < tooLarge) : ofRat x = some (nearest x) :=
  if_pos (abs_nearest_lt_iff.mpr h)

/-- From just above minus one to the largest double: what becomes a double above minus one. -/
theorem exists_ofRat_gt_iff :
    (∃ y, ofRat x = some y ∧ -1 < y) ↔ -1 + 1 / 2 ^ 54 < x ∧ x < tooLarge := by
  have hbig : (1 : ℚ) < tooLarge := by
    rw [← nearest_lt_iff]
    have hone : nearest 1 ≤ 2 ^ (0 : ℤ) := nearest_le_two_zpow (by rw [quantum]; simp) (by simp)
    exact hone.trans_lt (zpow_lt_zpow_right₀ one_lt_two (by norm_num))
  constructor
  · rintro ⟨y, hy, hlt⟩
    by_cases hx : |x| < tooLarge
    · rw [ofRat_eq_some hx, Option.some_inj] at hy
      subst hy
      exact ⟨neg_one_lt_nearest_iff.mp hlt, (abs_lt.mp hx).2⟩
    · rw [ofRat_eq_none_iff.mpr (not_lt.mp hx)] at hy
      cases hy
  · rintro ⟨hlow, hhigh⟩
    have hx : |x| < tooLarge := by
      rw [abs_lt]
      refine ⟨?_, hhigh⟩
      have : (0 : ℚ) < 1 / 2 ^ 54 := by positivity
      linarith
    exact ⟨nearest x, ofRat_eq_some hx, neg_one_lt_nearest_iff.mpr hlow⟩

theorem two_pow_lt_tooLarge_iff {n : ℕ} : (2 : ℚ) ^ n < tooLarge ↔ n < 1024 := by
  have hone : (2 : ℚ) ^ (1024 : ℤ) = 2 * 2 ^ (1023 : ℤ) := by
    rw [show (1024 : ℤ) = 1 + 1023 by norm_num, zpow_add₀ two_ne_zero, zpow_one]
  have hsmall : (2 : ℚ) ^ (970 : ℤ) < 2 ^ (1023 : ℤ) :=
    zpow_lt_zpow_right₀ one_lt_two (by norm_num)
  have hpos : (0 : ℚ) < 2 ^ (970 : ℤ) := zpow_pos two_pos _
  rw [← zpow_natCast, tooLarge]
  constructor
  · intro h
    by_contra hn
    have hle : (2 : ℚ) ^ (1024 : ℤ) ≤ 2 ^ (n : ℤ) := zpow_le_zpow_right₀ one_le_two (by omega)
    exact (hle.trans_lt h).not_gt (sub_lt_self _ hpos)
  · intro hn
    have hle : (2 : ℚ) ^ (n : ℤ) ≤ 2 ^ (1023 : ℤ) := zpow_le_zpow_right₀ one_le_two (by omega)
    rw [lt_sub_iff_add_lt, hone, two_mul]
    exact add_lt_add_of_le_of_lt hle hsmall

/-- A number of moderate size has a double of that size. -/
theorem exists_ofRat_le {k : ℕ} (hk : k < 1024) (h0 : 0 ≤ x) (h : x ≤ 2 ^ k) :
    ∃ y, ofRat x = some y ∧ 0 ≤ y ∧ y ≤ 2 ^ k := by
  have hlt : |x| < tooLarge := by
    rw [abs_of_nonneg h0]
    exact h.trans_lt (two_pow_lt_tooLarge_iff.mpr hk)
  refine ⟨nearest x, ofRat_eq_some hlt, nearest_nonneg h0, (nearest_mono h).trans_eq ?_⟩
  have hself := nearest_eq_self (m := 1) (k := k) (by norm_num) (by omega)
  rwa [Int.cast_one, one_mul, zpow_natCast] at hself

/-- Whole numbers keep their sign, also divided by a thousand. -/
theorem nearest_intCast_pos_iff {n : ℤ} : 0 < nearest n ↔ 0 < n := by
  rcases le_or_gt n 0 with hn | hn
  · exact iff_of_false (nearest_nonpos (Int.cast_nonpos.mpr hn)).not_gt hn.not_gt
  · have hone : (2 : ℚ) ^ (0 : ℤ) ≤ n := by exact_mod_cast hn
    exact iff_of_true ((zpow_pos two_pos 0).trans_le (two_zpow_le_nearest_of_le (by norm_num) hone)) hn

theorem nearest_thousandth_pos_iff {n : ℤ} : 0 < nearest (nearest n / 1000) ↔ 0 < n := by
  rcases le_or_gt n 0 with hn | hn
  · have hle := nearest_nonpos (x := n) (Int.cast_nonpos.mpr hn)
    exact iff_of_false (nearest_nonpos (by linarith)).not_gt hn.not_gt
  · have hone : (2 : ℚ) ^ (0 : ℤ) ≤ nearest n :=
      two_zpow_le_nearest_of_le (by norm_num) (by exact_mod_cast hn)
    have hten : (2 : ℚ) ^ (-10 : ℤ) ≤ nearest n / 1000 := by
      norm_num at hone ⊢
      linarith
    exact iff_of_true
      ((zpow_pos two_pos _).trans_le (two_zpow_le_nearest_of_le (by norm_num) hten)) hn

end Nearest

end Chic.Binary64
