import Mathlib.Tactic.Linarith
import Chic.Segments

namespace Chic.Segments
open Money Receivables Arithmetic Binary64

/-- The vips are the counterparties of the largest revenues, which are positive, and no more of
them than the share asks for. -/
def VipShare (strptime : String → Option DateTime) (rows : List CounterpartyRow)
    (p : SegmentParams) : Prop :=
  ∃ segs, segmentCounterparties exact strptime (rows.map inputOf) p = some segs ∧
    (∀ s ∈ segs, .vip ∈ s.segments → 0 < s.revenue ∧
      ∀ t ∈ segs, s.revenue ≤ t.revenue → .vip ∈ t.segments) ∧
    (segs.countP fun s => .vip ∈ s.segments : ℤ) ≤ max 1 ⌈rows.length * p.vipTopPercent⌉

section Count
variable {α : Type*} [LinearOrder α] {l : List α}

/-- In a strictly falling list the elements down to the one at `i` are the first `i + 1`. -/
theorem countP_getElem_le (h : l.Pairwise (· > ·)) {i : ℕ} (hi : i < l.length) :
    l.countP (fun v => l[i] ≤ v) = i + 1 := by
  induction l generalizing i with
  | nil => simp at hi
  | cons x l ih =>
    obtain ⟨hx, hl⟩ := List.pairwise_cons.mp h
    cases i with
    | zero =>
      have hnone : l.countP (fun v => x ≤ v) = 0 := by
        apply List.countP_eq_zero.mpr
        intro v hv
        simpa using hx v hv
      rw [List.getElem_cons_zero, List.countP_cons_of_pos (by simp), hnone]
    | succ i =>
      have hi' : i < l.length := by simpa using hi
      have hlt : l[i] ≤ x := (hx _ (List.getElem_mem hi')).le
      rw [List.getElem_cons_succ, List.countP_cons_of_pos (by simpa using hlt), ih hl hi']

/-- Of two lower bounds the larger decides. -/
theorem countP_and_le (a b : α) :
    l.countP (fun v => a < v ∧ b ≤ v) = min (l.countP fun v => b ≤ v) (l.countP fun v => a < v) := by
  rcases lt_or_ge a b with hab | hab
  · have hmono : l.countP (fun v => b ≤ v) ≤ l.countP fun v => a < v :=
      List.countP_mono_left fun v _ hv => by simpa using hab.trans_le (of_decide_eq_true hv)
    rw [min_eq_left hmono]
    apply List.countP_congr
    intro v _
    simpa using fun hv : b ≤ v => hab.trans_le hv
  · have hmono : l.countP (fun v => a < v) ≤ l.countP fun v => b ≤ v :=
      List.countP_mono_left fun v _ hv => by simpa using hab.trans (of_decide_eq_true hv).le
    rw [min_eq_right hmono]
    apply List.countP_congr
    intro v _
    simpa using fun hv : a < v => hab.trans hv.le

end Count

section Share
variable {strptime : String → Option DateTime} {rows : List CounterpartyRow} {p : SegmentParams}

def positiveCount (rows : List CounterpartyRow) : ℕ :=
  (counterpartyMetrics rows).countP fun m => 0 < m.revenue

theorem metricsOf_exact (rows : List CounterpartyRow) :
    metricsOf exact (rows.map inputOf) = some (counterpartyMetrics rows) := by
  rw [metricsOf, List.mapM_map]
  exact List.mapM_pure

theorem segmentCounterparties_exact :
    segmentCounterparties exact strptime (rows.map inputOf) p =
      segmentMetrics exact strptime (counterpartyMetrics rows) p := by
  rw [segmentCounterparties, metricsOf_exact, Option.bind_some]

theorem vipProduct_exact (n : ℕ) (pct : ℚ) : vipProduct exact n pct = some (n * pct) := rfl

/-- The rounding of the product changes the index only where it reaches the next whole number. -/
theorem vipIndex_python {n : ℕ} {pct : ℚ} (hn : n ≤ 2 ^ 53) (h0 : 0 ≤ pct) (h1 : pct ≤ 1)
    (hnext : nearest (n * pct) < ⌊n * pct⌋ + 1) : vipIndex python n pct = vipIndex exact n pct := by
  have hfit : ∀ {x : ℚ}, 0 ≤ x → x ≤ 2 ^ 53 → ofRat x = some (nearest x) := by
    intro x h0 h
    have hlt : (2 : ℚ) ^ 53 < tooLarge := two_pow_lt_tooLarge_iff.mpr (by norm_num)
    exact ofRat_eq_some ((abs_of_nonneg h0).trans_lt (h.trans_lt hlt))
  have hn' : (n : ℚ) ≤ 2 ^ 53 := by exact_mod_cast hn
  have hprod0 : 0 ≤ n * pct := by positivity
  have hprod : n * pct ≤ 2 ^ 53 := (mul_le_of_le_one_right n.cast_nonneg h1).trans hn'
  have hself : nearest (n : ℚ) = n := by
    have := nearest_intCast (m := n) (by rw [Nat.abs_cast]; exact_mod_cast hn)
    exact_mod_cast this
  -- the whole part is a double, so the product is not rounded below it
  have hfloor : ⌊nearest (n * pct)⌋ = ⌊n * pct⌋ := by
    rw [Int.floor_eq_iff]
    refine ⟨?_, hnext⟩
    have hwhole : |⌊n * pct⌋| ≤ 2 ^ 53 := by
      rw [abs_of_nonneg (Int.floor_nonneg.mpr hprod0)]
      exact_mod_cast (Int.floor_le _).trans hprod
    rw [← nearest_intCast hwhole]
    exact nearest_mono (Int.floor_le _)
  have hproduct : vipProduct python n pct = some (nearest (n * pct)) := by
    rw [vipProduct, double_python, hfit n.cast_nonneg hn', Option.bind_some, hself, hfit hprod0 hprod]
  rw [vipIndex, vipIndex, hproduct, vipProduct_exact, Option.map_some, Option.map_some]
  simp only [truncToInt, if_pos hprod0, if_pos (nearest_nonneg hprod0), hfloor]

theorem length_metrics : (counterpartyMetrics rows).length = rows.length := by
  rw [counterpartyMetrics, List.length_map]

theorem exists_threshold (hne : rows ≠ []) (h0 : 0 < p.vipTopPercent) :
    ∃ (i : ℕ) (r : ℚ), (i : ℤ) = min ⌊rows.length * p.vipTopPercent⌋ (rows.length - 1) ∧
      (revenuesOf (counterpartyMetrics rows))[i]? = some r ∧
      vipThreshold exact (revenuesOf (counterpartyMetrics rows)) (segDefaults p).2.2 = some (r : WithTop ℚ) := by
  have hn : 0 < rows.length := List.length_pos_of_ne_nil hne
  have hprod : 0 ≤ (rows.length * p.vipTopPercent : ℚ) := by positivity
  have hpct : (segDefaults p).2.2 = p.vipTopPercent := if_neg h0.ne'
  have hindex : vipIndex exact rows.length p.vipTopPercent =
      some (min ⌊rows.length * p.vipTopPercent⌋ (rows.length - 1)) := by
    rw [vipIndex, vipProduct_exact, Option.map_some, truncToInt, if_pos hprod, min_def]
    split_ifs <;> congr 1 <;> omega
  have hlo : 0 ≤ min ⌊rows.length * p.vipTopPercent⌋ ((rows.length : ℤ) - 1) :=
    le_min (Int.floor_nonneg.mpr hprod) (by omega)
  obtain ⟨i, hi⟩ := Int.eq_ofNat_of_zero_le hlo
  have hlt : (i : ℤ) < rows.length := hi ▸ (min_le_right _ _).trans_lt (by omega)
  have hr : ∃ r, (revenuesOf (counterpartyMetrics rows))[i]? = some r :=
    ⟨_, List.getElem?_eq_getElem (length_revenues.trans length_metrics ▸ Int.ofNat_lt.mp hlt)⟩
  obtain ⟨r, hr⟩ := hr
  refine ⟨i, r, hi.symm, hr, ?_⟩
  rw [vipThreshold, length_revenues, length_metrics, if_neg hn.ne', hpct, hindex, Option.bind_some, hi,
    pyIndex_natCast, hr, Option.map_some]

theorem countP_vip (hdistinct : ((counterpartyMetrics rows).map (·.revenue)).Nodup) {i : ℕ}
    {r : ℚ} (hr : (revenuesOf (counterpartyMetrics rows))[i]? = some r) :
    ((counterpartyMetrics rows).map (segmentOf strptime p r)).countP
        (fun s => .vip ∈ s.segments) = min (i + 1) (positiveCount rows) := by
  have hperm : (revenuesOf (counterpartyMetrics rows)).Perm ((counterpartyMetrics rows).map (·.revenue)) :=
    perm_sortedDesc id _
  have hfalling : (revenuesOf (counterpartyMetrics rows)).Pairwise (· > ·) :=
    (List.pairwise_and_iff.mpr ⟨pairwise_sortedDesc id _, hperm.nodup_iff.mpr hdistinct⟩).imp
      fun h => lt_of_le_of_ne h.1 h.2.symm
  have hcount : ∀ q : ℚ → Bool, (revenuesOf (counterpartyMetrics rows)).countP q =
      (counterpartyMetrics rows).countP fun m => q m.revenue := by
    intro q
    rw [hperm.countP_eq, List.countP_map]
    rfl
  obtain ⟨hi, rfl⟩ := List.getElem?_eq_some_iff.mp hr
  calc ((counterpartyMetrics rows).map _).countP _
    _ = (revenuesOf (counterpartyMetrics rows)).countP fun v => 0 < v ∧ (revenuesOf (counterpartyMetrics rows))[i] ≤ v := by
      rw [hcount, List.countP_map]
      apply List.countP_congr
      intro m _
      simp [segmentOf, vip_mem_labelsOf]
    _ = min (i + 1) (positiveCount rows) := by
      rw [countP_and_le, countP_getElem_le hfalling hi, hcount, positiveCount]

/-- The vips are always the largest positive revenues; only their number may be off. -/
theorem vipShare_iff_count {threshold : WithTop ℚ}
    (hthreshold : vipThreshold exact (revenuesOf (counterpartyMetrics rows)) (segDefaults p).2.2 =
      some threshold) :
    VipShare strptime rows p ↔
      (((counterpartyMetrics rows).map (segmentOf strptime p threshold)).countP
        fun s => .vip ∈ s.segments : ℤ) ≤ max 1 ⌈rows.length * p.vipTopPercent⌉ := by
  have hsegs : segmentCounterparties exact strptime (rows.map inputOf) p =
      some ((counterpartyMetrics rows).map (segmentOf strptime p threshold)) := by
    rw [segmentCounterparties_exact]
    exact segmentMetrics_eq_some.mpr ⟨threshold, hthreshold, rfl⟩
  constructor
  · rintro ⟨segs, hsome, -, hcount⟩
    rw [hsegs, Option.some_inj] at hsome
    rwa [hsome]
  · intro hcount
    refine ⟨_, hsegs, ?_, hcount⟩
    intro s hs hvip
    obtain ⟨m, -, rfl⟩ := List.mem_map.mp hs
    obtain ⟨hpos, hle⟩ := vip_mem_labelsOf.mp hvip
    refine ⟨hpos, ?_⟩
    intro t ht hrevenue
    obtain ⟨m', -, rfl⟩ := List.mem_map.mp ht
    have hrevenue : m.revenue ≤ m'.revenue := hrevenue
    exact vip_mem_labelsOf.mpr
      ⟨hpos.trans_le hrevenue, hle.trans (WithTop.coe_le_coe.mpr hrevenue)⟩

end Share

/-- With distinct revenues the vips are the requested share exactly when the share of the rows is
no whole number, or is all of them, or no more counterparties than that have a revenue. -/
theorem vipShare_iff (strptime : String → Option DateTime) {rows : List CounterpartyRow}
    {p : SegmentParams} (hne : rows ≠ [])
    (hdistinct : ((counterpartyMetrics rows).map (·.revenue)).Nodup)
    (h0 : 0 < p.vipTopPercent) (h1 : p.vipTopPercent ≤ 1) :
    VipShare strptime rows p ↔
      (∀ k : ℤ, (rows.length * p.vipTopPercent : ℚ) ≠ k) ∨ p.vipTopPercent = 1 ∨
        (positiveCount rows : ℚ) ≤ rows.length * p.vipTopPercent := by
  obtain ⟨i, r, hi, hr, hthreshold⟩ := exists_threshold hne h0
  rw [vipShare_iff_count hthreshold, countP_vip hdistinct hr]
  have hn : (0 : ℚ) < rows.length := by exact_mod_cast List.length_pos_of_ne_nil hne
  have hpos : (0 : ℚ) < rows.length * p.vipTopPercent := mul_pos hn h0
  rw [max_eq_right (Int.one_le_ceil_iff.mpr hpos)]
  rcases h1.eq_or_lt with hall | hlt
  · refine iff_of_true ?_ (.inr (.inl hall))
    rw [hall, mul_one, Int.floor_natCast] at hi
    rw [hall, mul_one, Int.ceil_natCast]
    omega
  have hfloor : (i : ℤ) = ⌊rows.length * p.vipTopPercent⌋ := by
    rw [hi]
    apply min_eq_left
    rw [Int.le_sub_one_iff, Int.floor_lt, Int.cast_natCast]
    exact mul_lt_of_lt_one_right hn hlt
  -- the first `⌊n p⌋ + 1` are labelled, which is one too many where `n p` is whole
  by_cases hwhole : ∃ k : ℤ, (rows.length * p.vipTopPercent : ℚ) = k
  · obtain ⟨k, hk⟩ := hwhole
    have hnot : ¬ ∀ k : ℤ, (rows.length * p.vipTopPercent : ℚ) ≠ k := fun h => h k hk
    rw [or_iff_right hnot, or_iff_right hlt.ne]
    rw [hk, Int.floor_intCast] at hfloor
    have hcount : (positiveCount rows : ℚ) ≤ k ↔ (positiveCount rows : ℤ) ≤ k := by
      exact_mod_cast Iff.rfl
    rw [hk, Int.ceil_intCast, hcount]
    omega
  · have hround : ⌊rows.length * p.vipTopPercent⌋ < ⌈rows.length * p.vipTopPercent⌉ := by
      rw [Int.lt_ceil]
      exact lt_of_le_of_ne (Int.floor_le _) fun h => hwhole ⟨_, h.symm⟩
    refine iff_of_true ?_ (.inl (not_exists.mp hwhole))
    omega

/-- A quarter of three counterparties is the best one. -/
theorem bestOfThree_vip : VipShare (fun _ => none)
    [boughtFor "а" 300, boughtFor "б" 200, boughtFor "в" 100]
    { now := 0, vipTopPercent := 1 / 4 } := by
  refine (vipShare_iff (fun _ => none) (by simp) (by decide +kernel) (by norm_num)
    (by norm_num)).mpr (.inl ?_)
  intro k hk
  have hfour : (3 : ℚ) = (4 * k : ℤ) := by
    push_cast
    rw [← hk]
    norm_num
  have hfour : (3 : ℤ) = 4 * k := by exact_mod_cast hfour
  omega

def fourCounterparties : List CounterpartyRow :=
  [boughtFor "а" 400, boughtFor "б" 300, boughtFor "в" 200, boughtFor "г" 100]

/-- A quarter of four counterparties is one; two are labelled. -/
theorem twoOfFour_overcounted :
    ((counterpartyMetrics fourCounterparties).map (·.revenue)).Nodup ∧
    (segmentCounterparties exact (fun _ => none) (fourCounterparties.map inputOf)
        { now := 0, vipTopPercent := 1 / 4 }).map (fun segs => segs.map fun s =>
          (s.name, decide (.vip ∈ s.segments))) =
      some [("а", true), ("б", true), ("в", false), ("г", false)] ∧
    ¬ VipShare (fun _ => none) fourCounterparties { now := 0, vipTopPercent := 1 / 4 } := by
  have hthreshold : vipThreshold exact (revenuesOf (counterpartyMetrics fourCounterparties))
      (segDefaults { now := 0, vipTopPercent := 1 / 4 }).2.2 = some (3 : ℚ) := by decide +kernel
  refine ⟨by decide +kernel, by decide +kernel, ?_⟩
  rw [vipShare_iff_count hthreshold]
  decide +kernel

end Chic.Segments
