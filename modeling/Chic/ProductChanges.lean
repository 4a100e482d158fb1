import Chic.Comparison
import Chic.ReportLines

namespace Chic.Periods
open Money

inductive Metric
  | revenue | profit
  deriving DecidableEq

def metricOf (metric : Metric) (x : ProfitProductLine) : ℚ :=
  if metric = .profit then x.profit else x.revenue

def productPairs (rows : List ProfitByProductRow) (metric : Metric) : List (String × ℚ) :=
  (profitByProduct rows).map fun x => (x.name, metricOf metric x)

/-- The tool `compare_periods`, by product. -/
def comparePeriodsTool (aP bP : List ProfitByProductRow) (metric : Metric) (topN : ℤ) :
    Comparison :=
  let topN := if topN ≤ 0 then 10 else topN
  comparePeriods (productPairs aP metric) (productPairs bP metric) topN

def productChanges (aP bP : List ProfitByProductRow) (metric : Metric) : List Change :=
  changes (fold (productPairs aP metric)) (fold (productPairs bP metric))

section
variable (aP bP : List ProfitByProductRow) (metric : Metric)

def metricSum (lines : List ProfitProductLine) (p : ProfitProductLine → Bool) : ℚ :=
  ((lines.filter p).map (metricOf metric)).sum

/-- Each change is that of one product, over all of its lines. -/
def PerProduct : Prop :=
  ∀ ch ∈ productChanges aP bP metric, ∃ key,
    (∀ x ∈ profitByProduct aP ++ profitByProduct bP, x.name = ch.key → x.id = key) ∧
      ch.delta = metricSum metric (profitByProduct bP) (·.id = key) -
        metricSum metric (profitByProduct aP) (·.id = key)

end

section
variable {aP bP rows : List ProfitByProductRow} {metric : Metric} {name key : String}

theorem wholeCents_productPairs {p : String × ℚ} (hp : p ∈ productPairs rows metric) :
    WholeCents p.2 := by
  obtain ⟨x, hx, rfl⟩ := List.mem_map.mp hp
  obtain ⟨r, -, rfl⟩ := List.mem_map.mp hx
  dsimp only [metricOf]
  split_ifs
  · exact wholeCents_minorToMajor _
  · exact wholeCents_minorToMajor _

theorem sumOf_productPairs (rows : List ProfitByProductRow) (metric : Metric) (name : String) :
    Dict.sumOf (productPairs rows metric) name =
      metricSum metric (profitByProduct rows) (·.name = name) := by
  rw [Dict.sumOf, productPairs, List.filter_map, List.map_map]
  rfl

theorem mem_productChanges {ch : Change} :
    ch ∈ productChanges aP bP metric ↔
      ∃ x ∈ profitByProduct aP ++ profitByProduct bP, ch = mkChange x.name
        (Dict.sumOf (productPairs aP metric) x.name)
        (Dict.sumOf (productPairs bP metric) x.name) := by
  have hnames : (productPairs aP metric ++ productPairs bP metric).map Prod.fst =
      (profitByProduct aP ++ profitByProduct bP).map (·.name) := by
    rw [productPairs, productPairs, ← List.map_append, List.map_map]
    rfl
  rw [productChanges, changes_eq, List.mem_map]
  constructor
  · rintro ⟨k, hk, rfl⟩
    rw [mem_changeKeys, hnames] at hk
    obtain ⟨x, hx, rfl⟩ := List.mem_map.mp hk
    exact ⟨x, hx, rfl⟩
  · rintro ⟨x, hx, rfl⟩
    refine ⟨x.name, ?_, rfl⟩
    rw [mem_changeKeys, hnames]
    exact List.mem_map_of_mem hx

theorem metricSum_split {lines : List ProfitProductLine}
    (h : ∀ x ∈ lines, x.name = name → x.id = key) :
    metricSum metric lines (·.id = key) = metricSum metric lines (·.name = name) +
      metricSum metric lines fun y => y.id = key ∧ y.name ≠ name := by
  have hperm := (List.filter_append_perm (·.name = name) (lines.filter (·.id = key))).map
    (metricOf metric)
  rw [List.map_append, List.filter_filter, List.filter_filter] at hperm
  have hnamed : lines.filter (fun y => decide (y.name = name) && decide (y.id = key)) =
      lines.filter (·.name = name) := by
    refine List.filter_congr fun y hy => ?_
    by_cases hname : y.name = name
    · simp [hname, h y hy hname]
    · simp [hname]
  have hother : lines.filter (fun y => !decide (y.name = name) && decide (y.id = key)) =
      lines.filter fun y => y.id = key ∧ y.name ≠ name := by
    refine List.filter_congr fun y _ => ?_
    by_cases hname : y.name = name <;> simp [hname]
  rw [hnamed, hother] at hperm
  rw [metricSum, ← hperm.sum_eq, List.sum_append]
  rfl

theorem delta_eq (name : String) :
    (mkChange name (Dict.sumOf (productPairs aP metric) name)
      (Dict.sumOf (productPairs bP metric) name)).delta =
      metricSum metric (profitByProduct bP) (·.name = name) -
        metricSum metric (profitByProduct aP) (·.name = name) := by
  have hcents : ∀ rows, WholeCents (Dict.sumOf (productPairs rows metric) name) :=
    fun rows => wholeCents_sumOf (fun p hp => wholeCents_productPairs hp) name
  rw [← sumOf_productPairs, ← sumOf_productPairs]
  exact ((hcents bP).sub (hcents aP)).moneyRound_eq

end

/-- Each change is that of one product when no name is shared by two products, and what a product
made under its other names is the same in both periods. -/
theorem perProduct_iff (aP bP : List ProfitByProductRow) (metric : Metric) :
    PerProduct aP bP metric ↔
      ∀ x ∈ profitByProduct aP ++ profitByProduct bP,
        (∀ y ∈ profitByProduct aP ++ profitByProduct bP, y.name = x.name → y.id = x.id) ∧
        metricSum metric (profitByProduct aP) (fun y => y.id = x.id ∧ y.name ≠ x.name) =
          metricSum metric (profitByProduct bP) fun y => y.id = x.id ∧ y.name ≠ x.name := by
  -- when a name has one key, the two deltas differ by the rows of the key under other names
  have hsplit : ∀ {key name : String},
      (∀ y ∈ profitByProduct aP ++ profitByProduct bP, y.name = name → y.id = key) →
      (metricSum metric (profitByProduct bP) (·.name = name) -
          metricSum metric (profitByProduct aP) (·.name = name) =
        metricSum metric (profitByProduct bP) (·.id = key) -
          metricSum metric (profitByProduct aP) (·.id = key) ↔
        metricSum metric (profitByProduct aP) (fun y => y.id = key ∧ y.name ≠ name) =
          metricSum metric (profitByProduct bP) fun y => y.id = key ∧ y.name ≠ name) := by
    intro key name h
    obtain ⟨ha, hb⟩ := List.forall_mem_append.mp h
    rw [metricSum_split ha, metricSum_split hb]
    constructor <;> intro heq <;> linarith
  constructor
  · intro h x hx
    obtain ⟨key, hkey, hdelta⟩ := h _ (mem_productChanges.mpr ⟨x, hx, rfl⟩)
    have hid : x.id = key := hkey x hx rfl
    subst hid
    rw [delta_eq] at hdelta
    exact ⟨hkey, (hsplit hkey).mp hdelta⟩
  · intro h ch hch
    obtain ⟨x, hx, rfl⟩ := mem_productChanges.mp hch
    obtain ⟨hkey, hothers⟩ := h x hx
    refine ⟨x.id, hkey, ?_⟩
    rw [delta_eq]
    exact (hsplit hkey).mpr hothers

def soldRow (href name : String) (sellSum : ℚ) : ProfitByProductRow :=
  ⟨⟨href, name, ""⟩, 1, sellSum, 0, 0, 0, sellSum⟩

/-- Two teas of one name move against each other by 50: the tool shows no change at all. -/
theorem twoTeas_merged :
    (comparePeriodsTool [soldRow "чай-1" "Чай" 10000, soldRow "чай-2" "Чай" 5000]
        [soldRow "чай-1" "Чай" 5000, soldRow "чай-2" "Чай" 10000] .revenue 10).topGainers.length = 0 ∧
      (comparePeriodsTool [soldRow "чай-1" "Чай" 10000, soldRow "чай-2" "Чай" 5000]
        [soldRow "чай-1" "Чай" 5000, soldRow "чай-2" "Чай" 10000] .revenue 10).topDecliners.length =
          0 ∧
      ¬ PerProduct [soldRow "чай-1" "Чай" 10000, soldRow "чай-2" "Чай" 5000]
        [soldRow "чай-1" "Чай" 5000, soldRow "чай-2" "Чай" 10000] .revenue := by
  refine ⟨by decide +kernel, by decide +kernel, fun h => ?_⟩
  obtain ⟨key, hkey, -⟩ := h _ (mem_productChanges.mpr ⟨_, List.mem_cons_self, rfl⟩)
  have hfirst := hkey _ List.mem_cons_self rfl
  have hsecond := hkey _ (List.mem_cons_of_mem _ List.mem_cons_self) rfl
  exact absurd (hfirst.trans hsecond.symm) (by decide +kernel)

end Chic.Periods
