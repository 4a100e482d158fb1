import Mathlib.Order.WithBot
import Chic.Aging
import Chic.Analytics
import Chic.Computed

namespace Chic.Segments
open Money Receivables Arithmetic Binary64

structure SegmentParams where
  now : DateTime
  sleepingDays : ℤ := 90
  atRiskDays : ℤ := 45
  vipTopPercent : ℚ := 3602879701896397 / 2 ^ 54  -- the double `0.2`
  lowCheckThreshold : ℚ := 0

/-- `_seg_defaults`: a zero stands for the default. -/
def segDefaults (p : SegmentParams) : ℤ × ℤ × ℚ :=
  (if p.sleepingDays = 0 then 90 else p.sleepingDays,
    if p.atRiskDays = 0 then 45 else p.atRiskDays,
    if p.vipTopPercent = 0 then 3602879701896397 / 2 ^ 54 else p.vipTopPercent)

/-- A counterparty as it is read: an amount that is infinite or no number is `none`. -/
structure CounterpartyInput where
  counterparty : NamedRef
  firstDemandDate : String
  lastDemandDate : String
  demandsCount : ℤ
  demandsSum : Option ℚ
  averageReceipt : Option ℚ
  returnsSum : Option ℚ
  balance : Option ℚ
  profit : Option ℚ

def inputOf (r : CounterpartyRow) : CounterpartyInput where
  counterparty := r.counterparty
  firstDemandDate := r.firstDemandDate
  lastDemandDate := r.lastDemandDate
  demandsCount := r.demandsCount
  demandsSum := some r.demandsSum
  averageReceipt := some r.averageReceipt
  returnsSum := some r.returnsSum
  balance := some r.balance
  profit := some r.profit

/-- An element of a list by its index, the negative ones counted from the end. -/
def pyIndex {α : Type*} (xs : List α) (i : ℤ) : Option α :=
  if 0 ≤ i then xs[i.toNat]?
  else if -xs.length ≤ i then xs[(xs.length + i).toNat]?
  else none

def revenuesOf (metrics : List CounterpartyMetric) : List ℚ := sortedDesc id (metrics.map (·.revenue))

section
variable (ar : Arithmetic) (strptime : String → Option DateTime)

def metricOf (r : CounterpartyInput) : Option CounterpartyMetric := do
  let revenue ← r.demandsSum.bind (Computed.minorToMajor ar)
  let avgReceipt ← r.averageReceipt.bind (Computed.minorToMajor ar)
  let returnsSum ← r.returnsSum.bind (Computed.minorToMajor ar)
  let balance ← r.balance.bind (Computed.minorToMajor ar)
  let profit ← r.profit.bind (Computed.minorToMajor ar)
  return {
    name := r.counterparty.name
    firstDemand := r.firstDemandDate
    lastDemand := r.lastDemandDate
    demandsCount := r.demandsCount
    revenue, avgReceipt, returnsSum, balance, profit }

/-- `counterparty_metrics`, `none` where an amount cannot be converted. -/
def metricsOf (rows : List CounterpartyInput) : Option (List CounterpartyMetric) := rows.mapM (metricOf ar)

/-- `n * vip_pct`, `none` where it is infinite or `n` does not fit a float. -/
def vipProduct (n : ℕ) (pct : ℚ) : Option ℚ := (ar.double n).bind fun m => ar.double (m * pct)

/-- The index of the threshold, cut at the end of the list only. -/
def vipIndex (n : ℕ) (pct : ℚ) : Option ℤ :=
  (vipProduct ar n pct).map fun x => if n ≤ truncToInt x then (n - 1 : ℤ) else truncToInt x

/-- The revenue from which a counterparty is a vip. -/
def vipThreshold (revenues : List ℚ) (pct : ℚ) : Option (WithTop ℚ) :=
  if revenues.length = 0 then some ⊤
  else (vipIndex ar revenues.length pct).bind fun idx => (pyIndex revenues idx).map (↑)

def daysSince (now : DateTime) (m : CounterpartyMetric) : ℤ :=
  match parseTime strptime m.lastDemand with
  | none => -1
  | some last => daysBetween now last

def labelsOf (p : SegmentParams) (vipThreshold : WithTop ℚ) (m : CounterpartyMetric) :
    List SegmentLabel :=
  let (sleepingDays, atRiskDays, _) := segDefaults p
  let days := daysSince strptime p.now m
  (if 0 < m.revenue ∧ vipThreshold ≤ m.revenue then [.vip] else []) ++
  (if days < 0 then []  -- never purchased
    else if sleepingDays ≤ days then [.sleeping]
    else if atRiskDays ≤ days then [.atRisk]
    else []) ++
  (if 0 < p.lowCheckThreshold ∧ 0 < m.demandsCount ∧ m.avgReceipt < p.lowCheckThreshold then
    [.lowCheck] else []) ++
  (if 0 < m.balance then [.debtor] else []) ++
  (if 0 < m.revenue ∧ m.profit < 0 then [.negativeMargin] else [])

def segmentOf (p : SegmentParams) (vipThreshold : WithTop ℚ) (m : CounterpartyMetric) :
    CounterpartySegment where
  name := m.name
  segments := labelsOf strptime p vipThreshold m
  revenue := m.revenue
  avgReceipt := m.avgReceipt
  profit := m.profit
  balance := m.balance
  daysSinceLastPurchase := daysSince strptime p.now m

def segmentMetrics (metrics : List CounterpartyMetric) (p : SegmentParams) :
    Option (List CounterpartySegment) :=
  (vipThreshold ar (revenuesOf metrics) (segDefaults p).2.2).map fun threshold =>
    metrics.map (segmentOf strptime p threshold)

/-- `none` stands for an `InvalidOperation`, an `OverflowError` or an `IndexError`. -/
def segmentCounterparties (rows : List CounterpartyInput) (p : SegmentParams) :
    Option (List CounterpartySegment) :=
  (metricsOf ar rows).bind fun metrics => segmentMetrics ar strptime metrics p

/-- One entry for each row, the threshold taken from within the list, and no two labels of
recency. -/
def Segmented (rows : List CounterpartyInput) (p : SegmentParams) : Prop :=
  ∃ segs, segmentCounterparties ar strptime rows p = some segs ∧
    segs.map (·.name) = rows.map (·.counterparty.name) ∧
    (∀ s ∈ segs, ¬ (.sleeping ∈ s.segments ∧ .atRisk ∈ s.segments)) ∧
    (rows ≠ [] → ∃ idx, vipIndex ar rows.length (segDefaults p).2.2 = some idx ∧
      0 ≤ idx ∧ idx < rows.length)

end

section Labels
variable {strptime : String → Option DateTime} {p : SegmentParams} {threshold : WithTop ℚ}
  {m : CounterpartyMetric}

theorem vip_mem_labelsOf : .vip ∈ labelsOf strptime p threshold m ↔
    0 < m.revenue ∧ threshold ≤ m.revenue := by
  simp only [labelsOf, List.mem_append]
  split_ifs <;> simp_all

/-- The branches of recency exclude each other. -/
theorem not_sleeping_and_atRisk : ¬ (.sleeping ∈ labelsOf strptime p threshold m ∧
    .atRisk ∈ labelsOf strptime p threshold m) := by
  simp only [labelsOf, List.mem_append]
  split_ifs <;> simp_all

end Labels

section Index
variable {ar : Arithmetic} {n : ℕ} {pct : ℚ} {idx : ℤ}

theorem truncToInt_nonneg_iff {x : ℚ} : 0 ≤ truncToInt x ↔ -1 < x := by
  unfold truncToInt
  split_ifs with hx
  · exact iff_of_true (Int.floor_nonneg.mpr hx) (by linarith)
  · rw [← Int.sub_one_lt_iff, Int.lt_ceil]
    norm_num

/-- The index is below the length, and not negative when the product is above minus one. -/
theorem vipIndex_mem_iff (hn : 0 < n) : (∃ idx, vipIndex ar n pct = some idx ∧ 0 ≤ idx ∧ idx < n) ↔
    ∃ x, vipProduct ar n pct = some x ∧ -1 < x := by
  simp only [vipIndex, Option.map_eq_some_iff]
  constructor
  · rintro ⟨idx, ⟨x, hx, rfl⟩, hlo, -⟩
    refine ⟨x, hx, truncToInt_nonneg_iff.mp ?_⟩
    split_ifs at hlo <;> omega
  · rintro ⟨x, hx, hlt⟩
    have hnonneg := truncToInt_nonneg_iff.mpr hlt
    refine ⟨_, ⟨x, hx, rfl⟩, ?_⟩
    split_ifs <;> omega

theorem pyIndex_natCast {α : Type*} (xs : List α) (i : ℕ) : pyIndex xs i = xs[i]? := by
  rw [pyIndex, if_pos (Int.natCast_nonneg i), Int.toNat_natCast]

end Index

section Rows
variable {ar : Arithmetic} {strptime : String → Option DateTime} {rows : List CounterpartyInput}
  {metrics : List CounterpartyMetric} {p : SegmentParams}

theorem length_revenues : (revenuesOf metrics).length = metrics.length := by
  rw [revenuesOf, (perm_sortedDesc _ _).length_eq, List.length_map]

theorem names_metricsOf (h : metricsOf ar rows = some metrics) :
    metrics.map (·.name) = rows.map (·.counterparty.name) := by
  have hall := Computed.mapM_eq_some_iff.mp h
  clear h
  induction hall with
  | nil => rfl
  | cons hmetric _ ih =>
    obtain ⟨revenue, -, hmetric⟩ := Option.bind_eq_some_iff.mp hmetric
    obtain ⟨avgReceipt, -, hmetric⟩ := Option.bind_eq_some_iff.mp hmetric
    obtain ⟨returnsSum, -, hmetric⟩ := Option.bind_eq_some_iff.mp hmetric
    obtain ⟨balance, -, hmetric⟩ := Option.bind_eq_some_iff.mp hmetric
    obtain ⟨profit, -, hmetric⟩ := Option.bind_eq_some_iff.mp hmetric
    obtain rfl := Option.some_inj.mp hmetric
    rw [List.map_cons, List.map_cons, ih]

theorem length_metricsOf (h : metricsOf ar rows = some metrics) : metrics.length = rows.length := by
  have hnames := congrArg List.length (names_metricsOf h)
  rwa [List.length_map, List.length_map] at hnames

theorem segmentMetrics_eq_some {segs : List CounterpartySegment} :
    segmentMetrics ar strptime metrics p = some segs ↔
      ∃ threshold, vipThreshold ar (revenuesOf metrics) (segDefaults p).2.2 = some threshold ∧
        metrics.map (segmentOf strptime p threshold) = segs :=
  Option.map_eq_some_iff

theorem segmented_iff_product : Segmented ar strptime rows p ↔ (metricsOf ar rows).isSome ∧
    (rows = [] ∨ ∃ x, vipProduct ar rows.length (segDefaults p).2.2 = some x ∧ -1 < x) := by
  constructor
  · rintro ⟨segs, hsegs, -, -, hidx⟩
    obtain ⟨metrics, hmetrics, -⟩ := Option.bind_eq_some_iff.mp hsegs
    refine ⟨Option.isSome_iff_exists.mpr ⟨metrics, hmetrics⟩, ?_⟩
    rcases eq_or_ne rows [] with hnil | hne
    · exact .inl hnil
    · exact .inr ((vipIndex_mem_iff (List.length_pos_of_ne_nil hne)).mp (hidx hne))
  · rintro ⟨hsome, hproduct⟩
    obtain ⟨metrics, hmetrics⟩ := Option.isSome_iff_exists.mp hsome
    have hlen := length_metricsOf hmetrics
    have hidx : rows ≠ [] → ∃ idx, vipIndex ar rows.length (segDefaults p).2.2 = some idx ∧
        0 ≤ idx ∧ idx < rows.length := fun hne =>
      (vipIndex_mem_iff (List.length_pos_of_ne_nil hne)).mpr (hproduct.resolve_left hne)
    have hthreshold : ∃ threshold,
        vipThreshold ar (revenuesOf metrics) (segDefaults p).2.2 = some threshold := by
      rw [vipThreshold, length_revenues, hlen]
      split_ifs with hn
      · exact ⟨_, rfl⟩
      · -- an index within the list is not counted from its end
        obtain ⟨idx, hsome, hlo, hhi⟩ := hidx (List.ne_nil_of_length_pos (Nat.pos_of_ne_zero hn))
        obtain ⟨i, rfl⟩ := Int.eq_ofNat_of_zero_le hlo
        have hi : i < (revenuesOf metrics).length := by
          rw [length_revenues, hlen]
          exact Int.ofNat_lt.mp hhi
        rw [hsome, Option.bind_some, pyIndex_natCast, List.getElem?_eq_getElem hi, Option.map_some]
        exact ⟨_, rfl⟩
    obtain ⟨threshold, hthreshold⟩ := hthreshold
    refine ⟨metrics.map (segmentOf strptime p threshold), ?_, ?_, fun s hs => ?_, hidx⟩
    · rw [segmentCounterparties, hmetrics, Option.bind_some]
      exact segmentMetrics_eq_some.mpr ⟨threshold, hthreshold, rfl⟩
    · rw [← names_metricsOf hmetrics, List.map_map]
      rfl
    · obtain ⟨m, -, rfl⟩ := List.mem_map.mp hs
      exact not_sleeping_and_atRisk

end Rows

/-- An amount that can be converted: a number of at most 28 digits before its point. -/
def Convertible (amount : Option ℚ) : Prop := ∃ x, amount = some x ∧ |roundHalfUp x| < 10 ^ 28

def CounterpartyInput.Convertible (r : CounterpartyInput) : Prop :=
  ∀ amount ∈ [r.demandsSum, r.averageReceipt, r.returnsSum, r.balance, r.profit],
    Segments.Convertible amount

theorem convertible_iff {amount : Option ℚ} :
    (amount.bind (Computed.minorToMajor python)).isSome ↔ Convertible amount := by
  rw [Option.isSome_iff_exists]
  simp only [Option.bind_eq_some_iff, Computed.minorToMajor_eq_some]
  constructor
  · rintro ⟨r, x, hx, hfits, -⟩
    exact ⟨x, hx, hfits⟩
  · rintro ⟨x, hx, hfits⟩
    exact ⟨_, x, hx, hfits, rfl⟩

theorem metricOf_isSome_iff {r : CounterpartyInput} : (metricOf python r).isSome ↔ r.Convertible := by
  simp only [CounterpartyInput.Convertible, List.forall_mem_cons, ← convertible_iff, metricOf]
  cases r.demandsSum.bind (Computed.minorToMajor python)
  · simp
  cases r.averageReceipt.bind (Computed.minorToMajor python)
  · simp
  cases r.returnsSum.bind (Computed.minorToMajor python)
  · simp
  cases r.balance.bind (Computed.minorToMajor python)
  · simp
  cases r.profit.bind (Computed.minorToMajor python) <;> simp

theorem metricsOf_isSome_iff {rows : List CounterpartyInput} :
    (metricsOf python rows).isSome ↔ ∀ r ∈ rows, r.Convertible := by
  simp only [metricsOf, Computed.mapM_isSome_iff, metricOf_isSome_iff]

/-- Segmentation goes through exactly when every amount can be converted and the product of the number
of rows and the share is above minus one and does not overflow. -/
theorem segmented_iff (strptime : String → Option DateTime) (rows : List CounterpartyInput)
    (p : SegmentParams) : Segmented python strptime rows p ↔
      (∀ r ∈ rows, r.Convertible) ∧ (rows = [] ∨ ((rows.length : ℚ) < tooLarge ∧
        -1 + 1 / 2 ^ 54 < nearest rows.length * (segDefaults p).2.2 ∧
        nearest rows.length * (segDefaults p).2.2 < tooLarge)) := by
  rw [segmented_iff_product, metricsOf_isSome_iff]
  refine and_congr_right fun _ => or_congr_right ?_
  rw [vipProduct, double_python]
  rcases lt_or_ge (rows.length : ℚ) tooLarge with hn | hn
  · have habs : |(rows.length : ℚ)| < tooLarge := by rwa [Nat.abs_cast]
    rw [ofRat_eq_some habs, Option.bind_some, exists_ofRat_gt_iff, and_iff_right hn]
  · have habs : tooLarge ≤ |(rows.length : ℚ)| := by rwa [Nat.abs_cast]
    rw [ofRat_eq_none_iff.mpr habs, Option.bind_none]
    simp [hn.not_gt]

def boughtFor (name : String) (sum : ℚ) : CounterpartyRow :=
  ⟨⟨name, name, ""⟩, "", "", 1, sum, sum, 0, 0, 0⟩

/-- A share of minus a half of four rows asks for the index minus two; one of minus two of one
row is an `IndexError`. -/
theorem minusHalf_outOfRange :
    vipIndex python 4 (-1 / 2) = some (-2) ∧
    (∀ strptime, ¬ Segmented python strptime
      ([boughtFor "а" 400, boughtFor "б" 300, boughtFor "в" 200, boughtFor "г" 100].map inputOf)
      { now := 0, vipTopPercent := -1 / 2 }) ∧
    ∀ strptime, segmentCounterparties python strptime ([boughtFor "а" 400].map inputOf)
      { now := 0, vipTopPercent := -2 } = none := by
  have hidx : vipIndex python 4 (-1 / 2) = some (-2) := by decide +kernel
  refine ⟨hidx, fun strptime => ?_, fun strptime => ?_⟩
  · have hpct : (segDefaults { now := 0, vipTopPercent := -1 / 2 }).2.2 = -1 / 2 :=
      if_neg (by norm_num)
    rintro ⟨segs, -, -, -, h⟩
    obtain ⟨idx, hsome, hlo, -⟩ := h (by simp)
    rw [hpct] at hsome
    have htwo : -2 = idx := Option.some_inj.mp (hidx.symm.trans hsome)
    omega
  · obtain ⟨metrics, hmetrics⟩ : ∃ metrics, metricsOf python ([boughtFor "а" 400].map inputOf) = some metrics :=
      Option.isSome_iff_exists.mp (by decide +kernel)
    have hthreshold : (metricsOf python ([boughtFor "а" 400].map inputOf)).bind (fun metrics =>
        vipThreshold python (revenuesOf metrics)
          (segDefaults { now := 0, vipTopPercent := -2 }).2.2) = none := by decide +kernel
    rw [hmetrics, Option.bind_some] at hthreshold
    rw [segmentCounterparties, hmetrics, Option.bind_some, segmentMetrics, hthreshold, Option.map_none]

end Chic.Segments
