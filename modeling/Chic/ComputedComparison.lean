import Chic.Comparison
import Chic.Computed

namespace Chic.Computed
open Arithmetic
open Periods (Change Comparison sortedAsc)

section
variable (ar : Arithmetic)

def fold (pairs : List (String × ℚ)) : Dict String ℚ :=
  pairs.foldl (fun m p => m.set p.1 (ar.decimal (m.amount p.1 + p.2))) Dict.empty

def mkChange (k : String) (a b : ℚ) : Option Change := do
  let valueA ← moneyRound ar a
  let valueB ← moneyRound ar b
  let delta ← moneyRound ar (ar.decimal (b - a))
  let deltaPct ← pctChange ar a b
  return { key := k, valueA, valueB, delta, deltaPct }

def changes (ma mb : Dict String ℚ) : Option (List Change) := do
  let first ← ma.entries.mapM fun e => mkChange ar e.1 e.2 (mb.amount e.1)
  let second ← (mb.entries.filter fun e => e.1 ∉ ma.keys).mapM fun e => mkChange ar e.1 0 e.2
  return first ++ second

def comparePeriods (a b : List (String × ℚ)) (topN : ℤ) : Option Comparison := do
  let ma := fold ar a
  let mb := fold ar b
  let changes ← changes ar ma mb
  let totalA ← moneyRound ar (total ar ma.values)
  let totalB ← moneyRound ar (total ar mb.values)
  let delta ← moneyRound ar (ar.decimal (total ar mb.values - total ar ma.values))
  let deltaPct ← pctChange ar (total ar ma.values) (total ar mb.values)
  let gainers := sortedDesc (·.delta) changes
  let decliners := sortedAsc (·.delta) changes
  return {
    totalA, totalB, delta, deltaPct
    topGainers := History.sliceTo topN (gainers.filter (0 < ·.delta))
    topDecliners := History.sliceTo topN (decliners.filter (·.delta < 0)) }

end

section Exact
variable {a b : List (String × ℚ)}

theorem pctChange_exact (a b : ℚ) : pctChange exact a b = some (Periods.pctChange a b) := by
  show (if a = 0 then _ else _) = _
  rw [Periods.pctChange]
  by_cases ha : a = 0
  · rw [if_pos ha, if_pos ha]
    simp only [exact, Option.some_inj]
    rfl
  · rw [if_neg ha, if_neg ha]
    exact round2_exact _

theorem mkChange_exact (k : String) (a b : ℚ) : mkChange exact k a b = some (Periods.mkChange k a b) := by
  rw [mkChange, moneyRound_exact, moneyRound_exact, moneyRound_exact, pctChange_exact]
  rfl

theorem mapM_mkChange_exact {ι : Type*} (k : ι → String) (a b : ι → ℚ) (es : List ι) :
    (es.mapM fun e => mkChange exact (k e) (a e) (b e)) =
      some (es.map fun e => Periods.mkChange (k e) (a e) (b e)) := by
  simp only [mkChange_exact]
  exact List.mapM_pure

/-- In exact arithmetic nothing raises, and the comparison is that of exact amounts. -/
theorem comparePeriods_exact (a b : List (String × ℚ)) (topN : ℤ) :
    comparePeriods exact a b topN = some (Periods.comparePeriods a b topN) := by
  have hfold : ∀ pairs, fold exact pairs = Periods.fold pairs := fun pairs => rfl
  simp only [comparePeriods, changes, mapM_mkChange_exact, moneyRound_exact, pctChange_exact,
    total_exact, hfold]
  rfl

end Exact

section Python
variable {a b : List (String × ℚ)} {topN : ℤ} {c : Comparison} {chs : List Change}

/-- The sum of the values of a key, digit for digit as it is computed. -/
def keySum (pairs : List (String × ℚ)) (k : String) : ℚ := (fold python pairs).amount k

def wholeSum (pairs : List (String × ℚ)) : ℚ := total python (fold python pairs).values

theorem comparePeriods_eq_some (h : comparePeriods python a b topN = some c) :
    ∃ chs, changes python (fold python a) (fold python b) = some chs ∧
      moneyRound python (python.decimal (wholeSum b - wholeSum a)) = some c.delta ∧
      pctChange python (wholeSum a) (wholeSum b) = some c.deltaPct ∧
      c.topGainers = History.sliceTo topN ((sortedDesc (·.delta) chs).filter (0 < ·.delta)) ∧
      c.topDecliners = History.sliceTo topN ((sortedAsc (·.delta) chs).filter (·.delta < 0)) := by
  obtain ⟨chs, hchs, h⟩ := Option.bind_eq_some_iff.mp h
  obtain ⟨totalA, -, h⟩ := Option.bind_eq_some_iff.mp h
  obtain ⟨totalB, -, h⟩ := Option.bind_eq_some_iff.mp h
  obtain ⟨delta, hdelta, h⟩ := Option.bind_eq_some_iff.mp h
  obtain ⟨deltaPct, hpct, h⟩ := Option.bind_eq_some_iff.mp h
  obtain rfl := Option.some_inj.mp h
  exact ⟨chs, hchs, hdelta, hpct, rfl, rfl⟩

/-- Whether a comparison is returned does not depend on how many changes are asked for. -/
theorem comparePeriods_topN (h : comparePeriods python a b topN = some c) (n : ℤ) :
    ∃ c', comparePeriods python a b n = some c' := by
  obtain ⟨chs, hchs, h⟩ := Option.bind_eq_some_iff.mp h
  obtain ⟨totalA, htotalA, h⟩ := Option.bind_eq_some_iff.mp h
  obtain ⟨totalB, htotalB, h⟩ := Option.bind_eq_some_iff.mp h
  obtain ⟨delta, hdelta, h⟩ := Option.bind_eq_some_iff.mp h
  obtain ⟨deltaPct, hpct, -⟩ := Option.bind_eq_some_iff.mp h
  rw [comparePeriods]
  dsimp only
  rw [hchs, htotalA, htotalB, hdelta, hpct]
  exact ⟨_, rfl⟩

theorem mem_changes (h : changes python (fold python a) (fold python b) = some chs) :
    (∀ ch ∈ chs, ∃ k, mkChange python k (keySum a k) (keySum b k) = some ch) ∧
      ∀ k, k ∈ (fold python a).keys ∨ k ∈ (fold python b).keys →
        ∃ ch ∈ chs, mkChange python k (keySum a k) (keySum b k) = some ch := by
  obtain ⟨first, hfirst, h⟩ := Option.bind_eq_some_iff.mp h
  obtain ⟨second, hsecond, h⟩ := Option.bind_eq_some_iff.mp h
  obtain rfl := Option.some_inj.mp h
  obtain ⟨hfirstOf, hofFirst⟩ := mem_of_mapM hfirst
  obtain ⟨hsecondOf, hofSecond⟩ := mem_of_mapM hsecond
  have hin : ∀ {pairs : List (String × ℚ)} {e : String × ℚ}, e ∈ (fold python pairs).entries →
      keySum pairs e.1 = e.2 := fun he => Dict.amount_of_mem_entries he
  have hout : ∀ {e : String × ℚ}, e.1 ∉ (fold python a).keys → keySum a e.1 = 0 := fun he =>
    Dict.amount_eq_zero he
  constructor
  · intro ch hch
    rcases List.mem_append.mp hch with hch | hch
    · obtain ⟨e, he, hsome⟩ := hofFirst ch hch
      exact ⟨e.1, by rwa [hin he]⟩
    · obtain ⟨e, he, hsome⟩ := hofSecond ch hch
      obtain ⟨he, hnew⟩ := List.mem_filter.mp he
      exact ⟨e.1, by rwa [hin he, hout (of_decide_eq_true hnew)]⟩
  · intro k hk
    by_cases hka : k ∈ (fold python a).keys
    · obtain ⟨e, he, rfl⟩ := List.mem_map.mp hka
      obtain ⟨ch, hch, hsome⟩ := hfirstOf e he
      exact ⟨ch, List.mem_append_left _ hch, by rwa [hin he]⟩
    · obtain ⟨e, he, rfl⟩ := List.mem_map.mp (hk.resolve_left hka)
      obtain ⟨ch, hch, hsome⟩ := hsecondOf e (List.mem_filter.mpr ⟨he, decide_eq_true hka⟩)
      exact ⟨ch, List.mem_append_right _ hch, by rwa [hin he, hout hka]⟩

end Python

end Chic.Computed
