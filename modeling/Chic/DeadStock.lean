import Chic.Analytics

namespace Chic

/-- What the tool takes for the movement of each product: `{href: outcome}`, a row each. -/
def outcomeByRef (turns : List TurnoverRow) : Dict String ℚ :=
  turns.foldl (fun d t => d.set t.assortment.href t.outcome.quantity) Dict.empty

/-- A negative threshold means the default one. -/
def ageThreshold (thresholdDays : ℤ) : ℤ := if thresholdDays < 0 then 90 else thresholdDays

/-- The lines of the tool `dead_stock` with a movement window, all of them. -/
def deadStockLines (rows : List StockRow) (turns : List TurnoverRow) (thresholdDays : ℤ) :
    List DeadStockLine :=
  deadStock rows (some (outcomeByRef turns)) (ageThreshold thresholdDays)

def deadStockTool (rows : List StockRow) (turns : List TurnoverRow) (thresholdDays limit : ℤ) :
    Report DeadStockLine DeadStockTotals :=
  deadStockReport (deadStockLines rows turns thresholdDays) (clampLimit limit)

section
variable (turns : List TurnoverRow)

def lastOutcome (href : String) : ℚ :=
  ((turns.filter (·.assortment.href = href)).getLast?.map (·.outcome.quantity)).getD 0

def totalOutcome (key : String) : ℚ :=
  ((turns.filter fun t => productKey t.assortment.href t.assortment.name = key).map
    (·.outcome.quantity)).sum

variable (thresholdDays : ℤ)

theorem get?_outcomeByRef (href : String) :
    ((outcomeByRef turns).get? href).getD 0 = lastOutcome turns href := by
  have hget := Dict.get?_foldl_set_if (·.assortment.href) (·.outcome.quantity) (fun _ => True)
    turns Dict.empty href
  simp only [if_true, and_true, Dict.get?_empty, Option.or_none] at hget
  rw [outcomeByRef, hget, lastOutcome]

def keptRow (r : StockRow) : Bool :=
  0 < r.stock ∧ (ageThreshold thresholdDays : ℚ) ≤ r.stockDays ∧ lastOutcome turns r.href ≤ 0

/-- On hand, old enough, and nothing left by all rows of the product. -/
def deadRow (r : StockRow) : Bool :=
  0 < r.stock ∧ (thresholdDays : ℚ) ≤ r.stockDays ∧
    totalOutcome turns (productKey r.href r.name) ≤ 0

theorem deadStockLines_eq (rows : List StockRow) :
    (deadStockLines rows turns thresholdDays).map (·.toStockLine) =
      sortedDesc (·.stockValue) ((rows.filter (keptRow turns thresholdDays)).map stockLine) := by
  refine (map_sortedDesc (·.stockValue) (fun l : DeadStockLine => l.toStockLine) _).trans ?_
  rw [List.map_filterMap, ← List.filterMap_eq_map, List.filterMap_filter]
  congr 1
  refine List.filterMap_congr fun r _ => ?_
  rw [keptRow, ← get?_outcomeByRef, Option.bind_some]
  by_cases hr : r.stock ≤ 0 ∨ r.stockDays < (ageThreshold thresholdDays : ℚ)
  · have hnot : ¬ (0 < r.stock ∧ (ageThreshold thresholdDays : ℚ) ≤ r.stockDays ∧
        ((outcomeByRef turns).get? r.href).getD 0 ≤ 0) := by
      rintro ⟨hstock, hdays, -⟩
      exact hr.elim hstock.not_ge hdays.not_gt
    simp only [if_pos hr, hnot, decide_false, Bool.false_eq_true, if_false, Option.map_none]
  · have hold := not_or.mp hr
    rw [not_le, not_lt] at hold
    rw [if_neg hr]
    cases (outcomeByRef turns).get? r.href with
    | none => simp [hold]
    | some outcome =>
      by_cases hmoved : 0 < outcome
      · simp [hmoved, hmoved.not_ge]
      · simp [hold, hmoved, not_lt.mp hmoved]

end

/-- Two choices of rows that give the same lines are the same choice, when one of them looks at the
line only. -/
theorem filter_eq_of_map_perm {α β : Type*} {f : α → β} {p q : α → Bool} {xs : List α}
    (h : ((xs.filter p).map f).Perm ((xs.filter q).map f))
    (hq : ∀ x y, f x = f y → p x → q y → q x) : ∀ x ∈ xs, p x = q x := by
  have hpq : ∀ x ∈ xs, p x → q x := by
    intro x hx hpx
    have hmem := h.subset (List.mem_map_of_mem (List.mem_filter.mpr ⟨hx, hpx⟩))
    obtain ⟨y, hy, hxy⟩ := List.mem_map.mp hmem
    exact hq x y hxy.symm hpx (List.mem_filter.mp hy).2
  have hlen : (xs.filter q).countP p = (xs.filter q).length := by
    have hmap := h.length_eq
    rw [List.length_map, List.length_map] at hmap
    rw [List.countP_filter, ← hmap, List.countP_eq_length_filter]
    congr 1
    refine List.filter_congr fun x hx => ?_
    cases hp : p x with
    | false => rfl
    | true => exact hpq x hx hp
  intro x hx
  rw [Bool.eq_iff_iff]
  refine ⟨hpq x hx, fun hqx => ?_⟩
  exact List.countP_eq_length.mp hlen x (List.mem_filter.mpr ⟨hx, hqx⟩)

/-- The tool reports the dead rows. -/
def AgreesWithMovement (rows : List StockRow) (turns : List TurnoverRow) (thresholdDays : ℤ) :
    Prop :=
  (deadStockLines rows turns thresholdDays).map (·.toStockLine) =
    sortedDesc (·.stockValue) ((rows.filter (deadRow turns thresholdDays)).map stockLine)

theorem le_ageThreshold (thresholdDays : ℤ) : thresholdDays ≤ ageThreshold thresholdDays := by
  unfold ageThreshold
  split_ifs <;> omega

section
variable {turns : List TurnoverRow} {thresholdDays : ℤ}

theorem keptRow_eq_deadRow_iff (r : StockRow) :
    keptRow turns thresholdDays r = deadRow turns thresholdDays r ↔
      (0 < r.stock →
        ((ageThreshold thresholdDays : ℚ) ≤ r.stockDays →
          (0 < lastOutcome turns r.href ↔ 0 < totalOutcome turns (productKey r.href r.name))) ∧
        ((thresholdDays : ℚ) ≤ r.stockDays → r.stockDays < ageThreshold thresholdDays →
          0 < totalOutcome turns (productKey r.href r.name))) := by
  have hle : (thresholdDays : ℚ) ≤ ageThreshold thresholdDays :=
    Int.cast_le.mpr (le_ageThreshold thresholdDays)
  rw [keptRow, deadRow, decide_eq_decide]
  by_cases hstock : 0 < r.stock
  · by_cases hold : (ageThreshold thresholdDays : ℚ) ≤ r.stockDays
    · simp only [hstock, hold, hle.trans hold, hold.not_gt, true_and, true_implies, false_implies,
        implies_true, and_true]
      rw [← not_lt, ← not_lt, not_iff_not]
    · simp [hstock, hold, not_le.mp hold]
  · simp [hstock]

theorem deadRow_of_stockLine_eq {r r' : StockRow} (h : stockLine r = stockLine r')
    (hr : keptRow turns thresholdDays r) (hr' : deadRow turns thresholdDays r') :
    deadRow turns thresholdDays r := by
  have hle : (thresholdDays : ℚ) ≤ ageThreshold thresholdDays :=
    Int.cast_le.mpr (le_ageThreshold thresholdDays)
  have hkey : productKey r.href r.name = productKey r'.href r'.name := congrArg StockLine.id h
  obtain ⟨hstock, hold, -⟩ := of_decide_eq_true hr
  obtain ⟨-, -, htotal⟩ := of_decide_eq_true hr'
  exact decide_eq_true ⟨hstock, hle.trans hold, hkey ▸ htotal⟩

end

/-- The last row of a raw href has to tell the same as all rows of the product. Under a negative
threshold the tool leaves out rows under 90 days, whether they moved or not. -/
theorem agreesWithMovement_iff (rows : List StockRow) (turns : List TurnoverRow)
    (thresholdDays : ℤ) :
    AgreesWithMovement rows turns thresholdDays ↔
      ∀ r ∈ rows, 0 < r.stock →
        ((ageThreshold thresholdDays : ℚ) ≤ r.stockDays →
          (0 < lastOutcome turns r.href ↔ 0 < totalOutcome turns (productKey r.href r.name))) ∧
        ((thresholdDays : ℚ) ≤ r.stockDays → r.stockDays < ageThreshold thresholdDays →
          0 < totalOutcome turns (productKey r.href r.name)) := by
  rw [AgreesWithMovement, deadStockLines_eq]
  constructor
  · intro heq r hr
    have hperm : ((rows.filter (keptRow turns thresholdDays)).map stockLine).Perm
        ((rows.filter (deadRow turns thresholdDays)).map stockLine) :=
      (perm_sortedDesc (·.stockValue) _).symm.trans (heq.symm ▸ perm_sortedDesc _ _)
    have hsame := filter_eq_of_map_perm hperm fun _ _ => deadRow_of_stockLine_eq
    exact (keptRow_eq_deadRow_iff r).mp (hsame r hr)
  · intro h
    rw [List.filter_congr fun r hr => (keptRow_eq_deadRow_iff r).mpr (h r hr)]

def oldTea (href : String) : StockRow := ⟨href, "Чай", "", "", 1000, 2000, 5, 0, 0, 120⟩

def outcomeRow (href name : String) (quantity : ℚ) : TurnoverRow :=
  ⟨⟨href, name, ""⟩, ⟨0, 0⟩, ⟨0, 0⟩, ⟨quantity, 0⟩, ⟨0, 0⟩⟩

/-- Tea that sold by the first of its rows is reported dead; tea without an href is not reported
when coffee without one sold. -/
theorem oldTea_disagrees :
    (((deadStockTool [oldTea "чай"] [outcomeRow "чай" "Чай" 7, outcomeRow "чай" "Чай" 0] 90
        100).rows.map (·.name) = ["Чай"]) ∧
      ¬ AgreesWithMovement [oldTea "чай"] [outcomeRow "чай" "Чай" 7, outcomeRow "чай" "Чай" 0] 90) ∧
    ((deadStockTool [oldTea ""] [outcomeRow "" "Кофе" 7] 90 100).rows.map (·.name) = [] ∧
      ¬ AgreesWithMovement [oldTea ""] [outcomeRow "" "Кофе" 7] 90) := by
  refine ⟨⟨by decide +kernel, fun h => ?_⟩, by decide +kernel, fun h => ?_⟩
  · have hlen := congrArg List.length h
    exact absurd hlen (by decide +kernel)
  · have hlen := congrArg List.length h
    exact absurd hlen (by decide +kernel)

end Chic
