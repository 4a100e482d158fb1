import Chic.AbcXyz
import Chic.Pareto

namespace Chic.Xyz
open Money Olap

/-- The class that the history gives to a product: its last statistics with enough days count. -/
def xyzOf (stats : List DemandStats) (p : XyzParams) (key : String) : Option XyzClass :=
  (stats.filter fun s => s.productHref = key ∧ p.minDays ≤ s.days).getLast?.map fun s =>
    xyzClass (cv s) (max p.xThreshold 0) (max p.yThreshold (max p.xThreshold 0))

def cellOf (stats : List DemandStats) (p : XyzParams) (a : ABCItem) : Option String :=
  (xyzOf stats p a.name).map fun xyz => abcText a.abcClass ++ xyzText xyz

section Loop
variable (known : Dict String (XyzClass × ℚ)) (names : Dict String String)

def cellIn (a : ABCItem) : Option String :=
  (known.get? a.name).map fun xyz => abcText a.abcClass ++ xyzText xyz.1

/-- What the loop adds to the state in which it starts. -/
theorem foldl_matrixStep (ranked : List ABCItem) (s : MatrixState) :
    ranked.foldl (matrixStep known names) s =
      { items := s.items ++ ranked.filterMap fun a => (known.get? a.name).map (matrixItem names a)
        abcOnly := s.abcOnly + ranked.countP fun a => (known.get? a.name).isNone
        cellCount := (Dict.labelled (cellIn known) (fun _ => 1) ranked).foldl
          (fun d c => d.add c.1 c.2) s.cellCount
        cellRevenue := (Dict.labelled (cellIn known) (·.value) ranked).foldl
          (fun d c => d.add c.1 c.2) s.cellRevenue } := by
  induction ranked generalizing s with
  | nil => simp [Dict.labelled]
  | cons a ranked ih =>
    rw [List.foldl_cons, ih]
    cases h : known.get? a.name with
    | none => simp [Dict.labelled, cellIn, matrixStep, h, Nat.add_assoc, Nat.add_comm]
    | some xyz => simp [Dict.labelled, cellIn, matrixStep, matrixItem, h]

end Loop

theorem get?_xyzByKey (stats : List DemandStats) (p : XyzParams) (key : String) :
    ((xyzByKey stats p).get? key).map Prod.fst = xyzOf stats p key := by
  have hget := Dict.get?_foldl_set_if (·.productHref)
    (fun s => (xyzClass (cv s) (max p.xThreshold 0) (max p.yThreshold (max p.xThreshold 0)), cv s))
    (fun s => p.minDays ≤ s.days) stats Dict.empty key
  rw [Dict.get?_empty, Option.or_none] at hget
  exact (congrArg (Option.map Prod.fst) hget).trans (Option.map_map _ _ _)

theorem isNone_xyzByKey (stats : List DemandStats) (p : XyzParams) (key : String) :
    ((xyzByKey stats p).get? key).isNone = (xyzOf stats p key).isNone := by
  rw [← get?_xyzByKey, Option.isNone_map]

theorem cellIn_xyzByKey (stats : List DemandStats) (p : XyzParams) :
    cellIn (xyzByKey stats p) = cellOf stats p := by
  funext a
  rw [cellOf, ← get?_xyzByKey, Option.map_map]
  rfl

theorem ranking_perm (pairs : List (String × String × ℚ)) :
    ((ranking pairs).map fun a => (a.name, a.value)).Perm
      (pairs.map fun pair => (pair.1, pair.2.2)) := by
  rw [ranking, abc_pairs]
  exact perm_sortedDesc _ _

theorem ranking_values {pairs : List (String × String × ℚ)} {q : ℚ → Prop}
    (h : ∀ pair ∈ pairs, q pair.2.2) {a : ABCItem} (ha : a ∈ ranking pairs) : q a.value := by
  have hmem := (ranking_perm pairs).subset (List.mem_map_of_mem ha)
  obtain ⟨pair, hpair, heq⟩ := List.mem_map.mp hmem
  have hvalue : pair.2.2 = a.value := congrArg Prod.snd heq
  exact hvalue ▸ h pair hpair

section Matrix
variable (pairs : List (String × String × ℚ)) (stats : List DemandStats) (p : XyzParams) (limit : ℤ)

def matrixItems : List ABCXYZItem :=
  (ranking pairs).filterMap fun a =>
    ((xyzByKey stats p).get? a.name).map (matrixItem (nameByKey pairs) a)

theorem abcXyzMatrix_eq :
    let marks := Dict.labelled (cellOf stats p) (fun _ => 1) (ranking pairs)
    let values := Dict.labelled (cellOf stats p) (·.value) (ranking pairs)
    let items := matrixItems pairs stats p
    abcXyzMatrix pairs stats p limit =
      { classified := items.length
        abcOnly := (ranking pairs).countP fun a => (xyzOf stats p a.name).isNone
        cells := ((Dict.tally marks).keys.insertionSort (· ≤ ·)).map fun cell =>
          { cell
            count := Dict.sumOf marks cell
            revenue := moneyRound (Dict.sumOf values cell)
            recommendation := recommendation cell }
        items := (truncate (sortedDesc (·.revenue) items) limit).1
        itemCount := items.length
        itemsTruncated := (truncate (sortedDesc (·.revenue) items) limit).2.2 } := by
  intro marks values items
  have hfull : (truncate (sortedDesc (·.revenue) items) limit).2.1 = items.length := by
    rw [← (perm_sortedDesc (·.revenue) items).length_eq]
    dsimp only [truncate]
    split_ifs <;> rfl
  dsimp only [abcXyzMatrix, matrixOf]
  rw [foldl_matrixStep, cellIn_xyzByKey]
  simp only [List.nil_append, zero_add, isNone_xyzByKey]
  rw [← matrixItems, hfull]
  simp only [← Dict.amount_tally]
  rfl

variable {pairs stats p}

theorem length_matrixItems :
    (matrixItems pairs stats p).length =
      (ranking pairs).countP fun a => (xyzOf stats p a.name).isSome := by
  rw [matrixItems, List.length_filterMap_eq_countP]
  refine List.countP_congr fun a _ => ?_
  rw [Option.isSome_map, ← get?_xyzByKey, Option.isSome_map]

theorem map_matrixItems (hcents : ∀ pair ∈ pairs, WholeCents pair.2.2) :
    (matrixItems pairs stats p).map (fun it => (it.cell, it.revenue)) =
      Dict.labelled (cellOf stats p) (·.value) (ranking pairs) := by
  rw [matrixItems, List.map_filterMap]
  refine List.filterMap_congr fun a ha => ?_
  rw [cellOf, ← get?_xyzByKey, Option.map_map, Option.map_map, Option.map_map]
  refine congrArg (Option.map · _) (funext fun xyz => ?_)
  exact Prod.ext rfl (ranking_values hcents ha : WholeCents a.value).moneyRound_eq

theorem sum_classified :
    ((Dict.labelled (cellOf stats p) (·.value) (ranking pairs)).map Prod.snd).sum =
      ((pairs.filter fun pair => (xyzOf stats p pair.1).isSome).map (·.2.2)).sum := by
  have hperm := ((ranking_perm pairs).filter fun r => (xyzOf stats p r.1).isSome).map Prod.snd
  simp only [List.filter_map, List.map_map] at hperm
  rw [Dict.values_labelled]
  simp only [cellOf, Option.isSome_map]
  exact hperm.sum_eq

theorem cells_names :
    (abcXyzMatrix pairs stats p limit).cells.map (·.cell) =
      (Dict.tally (Dict.labelled (cellOf stats p) (fun _ => 1) (ranking pairs))).keys.insertionSort
        (· ≤ ·) := by
  rw [abcXyzMatrix_eq, List.map_map]
  exact List.map_id _

theorem cells_nodup : ((abcXyzMatrix pairs stats p limit).cells.map (·.cell)).Nodup := by
  rw [cells_names]
  exact (List.perm_insertionSort _ _).nodup_iff.mpr (Dict.keys_nodup _)

theorem mem_cells_names {cell : String} :
    cell ∈ (abcXyzMatrix pairs stats p limit).cells.map (·.cell) ↔
      ∃ a ∈ ranking pairs, cellOf stats p a = some cell := by
  rw [cells_names, (List.perm_insertionSort _ _).mem_iff, Dict.mem_keys_tally,
    Dict.mem_keys_labelled]

theorem cell_amounts (hcents : ∀ pair ∈ pairs, WholeCents pair.2.2) {c : ABCXYZCell}
    (hc : c ∈ (abcXyzMatrix pairs stats p limit).cells) :
    c.count = Dict.sumOf (Dict.labelled (cellOf stats p) (fun _ => 1) (ranking pairs)) c.cell ∧
      c.revenue = Dict.sumOf (Dict.labelled (cellOf stats p) (·.value) (ranking pairs)) c.cell := by
  rw [abcXyzMatrix_eq] at hc
  obtain ⟨cell, -, rfl⟩ := List.mem_map.mp hc
  refine ⟨rfl, WholeCents.moneyRound_eq ?_⟩
  rw [Dict.sumOf_labelled]
  refine wholeCents_sum (List.forall_mem_map.mpr fun a ha => ?_)
  exact ranking_values hcents (List.mem_filter.mp ha).1

theorem covered_cells {a : ABCItem} (ha : a ∈ ranking pairs) (cell : String)
    (hcell : cellOf stats p a = some cell) :
    cell ∈ (abcXyzMatrix pairs stats p limit).cells.map (·.cell) :=
  (mem_cells_names limit).mpr ⟨a, ha, hcell⟩

theorem classified_eq :
    (abcXyzMatrix pairs stats p limit).classified =
      (ranking pairs).countP fun a => (xyzOf stats p a.name).isSome := by
  rw [abcXyzMatrix_eq]
  exact length_matrixItems

theorem abcOnly_eq :
    (abcXyzMatrix pairs stats p limit).abcOnly =
      (ranking pairs).countP fun a => (xyzOf stats p a.name).isNone := by
  rw [abcXyzMatrix_eq]

/-- A pair either has a class by its history or has not. -/
theorem classified_add_abcOnly :
    (abcXyzMatrix pairs stats p limit).classified + (abcXyzMatrix pairs stats p limit).abcOnly =
      pairs.length := by
  have hlen : pairs.length = (ranking pairs).length := by
    rw [ranking, length_abc, List.length_map]
  rw [classified_eq, abcOnly_eq, hlen,
    List.length_eq_countP_add_countP fun a : ABCItem => (xyzOf stats p a.name).isSome]
  simp only [Bool.not_eq_true, Option.isSome_eq_false_iff, Bool.decide_eq_true]

theorem sum_cell_counts (hcents : ∀ pair ∈ pairs, WholeCents pair.2.2) :
    ((abcXyzMatrix pairs stats p limit).cells.map (·.count)).sum =
      (abcXyzMatrix pairs stats p limit).classified := by
  have hcounts : (abcXyzMatrix pairs stats p limit).cells.map (·.count) =
      ((abcXyzMatrix pairs stats p limit).cells.map (·.cell)).map
        (Dict.sumOf (Dict.labelled (cellOf stats p) (fun _ => 1) (ranking pairs))) := by
    rw [List.map_map]
    exact List.map_congr_left fun c hc => (cell_amounts limit hcents hc).1
  rw [hcounts, Dict.sum_sumOf_labelled _ _ (cells_nodup limit) fun a ha => covered_cells limit ha,
    Dict.count_labelled, classified_eq]
  simp only [cellOf, Option.isSome_map]

theorem sum_cell_revenues (hcents : ∀ pair ∈ pairs, WholeCents pair.2.2) :
    ((abcXyzMatrix pairs stats p limit).cells.map (·.revenue)).sum =
      ((pairs.filter fun pair => (xyzOf stats p pair.1).isSome).map (·.2.2)).sum := by
  have hrevenues : (abcXyzMatrix pairs stats p limit).cells.map (·.revenue) =
      ((abcXyzMatrix pairs stats p limit).cells.map (·.cell)).map
        (Dict.sumOf (Dict.labelled (cellOf stats p) (·.value) (ranking pairs))) := by
    rw [List.map_map]
    exact List.map_congr_left fun c hc => (cell_amounts limit hcents hc).2
  rw [hrevenues, Dict.sum_sumOf_labelled _ _ (cells_nodup limit) fun a ha => covered_cells limit ha,
    sum_classified]

end Matrix

/-- There is no history of honey. -/
def teaCoffeeHoney : List (String × String × ℚ) :=
  [("чай", "Чай", 120), ("кофе", "Кофе", 80), ("мёд", "Мёд", 800)]

def teaCoffeeStats : List DemandStats :=
  [⟨"чай", "Чай", "", 5, 4, 2⟩, ⟨"кофе", "Кофе", "", 5, 2, 0⟩]

example : (abcXyzMatrix teaCoffeeHoney teaCoffeeStats {} 1).cells.map
    (fun c => (c.cell, c.count, c.revenue)) = [("BZ", 1, 120), ("CX", 1, 80)] := by decide +kernel

end Chic.Xyz
