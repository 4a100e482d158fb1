import Chic.ComputedAbc

namespace Chic.Xyz
open Money Olap Arithmetic Binary64

/-- The share of a value in the total rounds to no more than the double `0.8`: the share of their
doubles is at most halfway to the next one. -/
def WithinTop (total v : ℚ) : Prop :=
  tooLarge ≤ total ∨ 2 ^ 54 * nearest v ≤ 14411518807585589 * nearest total

instance (total v : ℚ) : Decidable (WithinTop total v) := inferInstanceAs (Decidable (_ ∨ _))

section Head
variable {total v ratio : ℚ} {rest : List (String × ℚ)} {name : String} {items : List ABCItem}

theorem nearest_le_cut_iff {q : ℚ} : nearest q ≤ nearest (8 / 10) ↔ q ≤ 14411518807585589 / 2 ^ 54 := by
  have hcut : nearest (8 / 10) = ((7205759403792795 : ℤ) - 1) * 2 ^ (-53 : ℤ) := by decide +kernel
  have hle := le_nearest_iff (x := q) (m := 7205759403792795) (k := -53) (by norm_num) (by norm_num)
    (by norm_num)
  have hgap := le_nearest_of_lt (x := q) (m := 7205759403792795) (k := -53) (by norm_num)
    (by norm_num) (by norm_num)
  rw [or_iff_left (by norm_num)] at hle
  rw [← not_iff_not, not_le, not_le, hcut]
  have hlt : ((7205759403792795 : ℤ) - 1) * 2 ^ (-53 : ℤ) < nearest q ↔
      ((7205759403792795 : ℤ) : ℚ) * 2 ^ (-53 : ℤ) ≤ nearest q := by
    refine ⟨hgap, fun h => lt_of_lt_of_le ?_ h⟩
    norm_num
  rw [hlt, hle]
  norm_num

theorem share_le_cut_iff (htotal : 0 ≤ total)
    (h : Computed.shareOf python (nearest v) (ofRat total) = some ratio) :
    ratio ≤ nearest (8 / 10) ↔ WithinTop total v := by
  have habs : |total| = total := abs_of_nonneg htotal
  rcases lt_or_ge total tooLarge with hlt | hge
  · rw [ofRat_eq_some (habs.trans_lt hlt), Computed.shareOf] at h
    split_ifs at h with hzero
    obtain ⟨-, rfl⟩ := ofRat_eq_some_iff.mp h
    have hpos : 0 < nearest total := lt_of_le_of_ne (nearest_nonneg htotal) (Ne.symm hzero)
    rw [nearest_le_cut_iff, WithinTop, or_iff_right hlt.not_ge, div_le_iff₀ hpos, div_mul_eq_mul_div,
      le_div_iff₀ (by norm_num), mul_comm (nearest v)]
  · rw [ofRat_eq_none_iff.mpr (habs.symm ▸ hge), Computed.shareOf, Option.some_inj] at h
    rw [← h]
    exact iff_of_true (nearest_nonneg (by norm_num)) (.inl hge)

/-- The class of the first item, whose own value is all that has been added up. -/
theorem first_class_A_iff (htotal : 0 ≤ total)
    (h : Computed.abcRank python (nearest (8 / 10)) (nearest (95 / 100)) (ofRat total) 0
      ((name, v) :: rest) = some items) :
    ∃ top items', items = top :: items' ∧ top.name = name ∧ top.value = v ∧
      (top.abcClass = .A ↔ 0 < nearest v ∧ WithinTop total v) := by
  obtain ⟨top, items', cum, rfl, -, rfl, rfl, hcase⟩ := Computed.abcRank_cons h
  refine ⟨top, items', rfl, rfl, rfl, ?_⟩
  split_ifs at hcase with hcounts
  · obtain ⟨v, ratio, hv, hcum, hratio, hclass⟩ := hcase
    obtain ⟨-, rfl⟩ := ofRat_eq_some_iff.mp hv
    obtain ⟨-, rfl⟩ := ofRat_eq_some_iff.mp hcum
    rw [zero_add, nearest_nearest] at hratio
    have hne : nearest top.value ≠ 0 := fun hzero => hcounts.2 (hzero ▸ hv)
    have hpos : 0 < nearest top.value := lt_of_le_of_ne (nearest_nonneg hcounts.1.le) hne.symm
    rw [hclass, and_iff_right hpos, ← share_le_cut_iff htotal hratio]
    by_cases hle : ratio ≤ nearest (8 / 10)
    · exact iff_of_true (if_pos hle) hle
    · refine iff_of_false ?_ hle
      rw [if_neg hle]
      split_ifs <;> decide
  · obtain ⟨-, hclass⟩ := hcase
    refine iff_of_false (by rw [hclass]; decide) fun hpos => hcounts ⟨?_, fun hzero => ?_⟩
    · exact not_le.mp fun hle => (nearest_nonpos hle).not_gt hpos.1
    · exact hpos.1.ne' (ofRat_eq_some_iff.mp hzero).2

end Head

/-- The first of the ranking, and when it is in class A. -/
theorem ranking_head {pairs : List (String × String × ℚ)} {items : List ABCItem} (hne : pairs ≠ [])
    (h : Computed.ranking python pairs = some items) :
    let total := Computed.abcTotal python (pairs.map fun pair => (pair.1, pair.2.2))
    ∃ top rest, items = top :: rest ∧ (∀ pair ∈ pairs, pair.2.2 ≤ top.value) ∧
      (∃ pair ∈ pairs, pair.2.2 = top.value) ∧ (∀ it ∈ rest, it.value ≤ top.value) ∧
      (top.abcClass = .A ↔ 0 < nearest top.value ∧ WithinTop total top.value) := by
  intro total
  have hcuts : Computed.abcCuts python (nearest (8 / 10)) (nearest (95 / 100)) =
      (nearest (8 / 10), nearest (95 / 100)) := by decide +kernel
  have hsorted := pairwise_sortedDesc Prod.snd (pairs.map fun pair => (pair.1, pair.2.2))
  have hperm := perm_sortedDesc Prod.snd (pairs.map fun pair => (pair.1, pair.2.2))
  have hloop : Computed.abcRank python (nearest (8 / 10)) (nearest (95 / 100)) (ofRat total) 0
      (sortedDesc Prod.snd (pairs.map fun pair => (pair.1, pair.2.2))) = some items := by
    rw [← h, Computed.ranking, Computed.abc]
    show _ = Computed.abcRank python (Computed.abcCuts python (nearest (8 / 10)) (nearest (95 / 100))).1
      (Computed.abcCuts python (nearest (8 / 10)) (nearest (95 / 100))).2 _ _ _
    rw [hcuts]
    rfl
  have hvalues := Computed.abcRank_pairs hloop
  rw [← hvalues] at hsorted hperm
  rcases hs : sortedDesc Prod.snd (pairs.map fun pair => (pair.1, pair.2.2)) with _ | ⟨first, others⟩
  · rw [← hvalues] at hs
    rw [hs] at hperm
    exact absurd (List.map_eq_nil_iff.mp hperm.symm.eq_nil) hne
  · rw [hs] at hloop
    obtain ⟨top, rest, rfl, -, hvalue, hclass⟩ := first_class_A_iff (Computed.abcTotal_nonneg _) hloop
    rw [List.map_cons, List.pairwise_cons, List.forall_mem_map] at hsorted
    refine ⟨top, rest, rfl, fun pair hpair => ?_, ?_, hsorted.1, ?_⟩
    · have hmem := hperm.symm.subset (List.mem_map_of_mem hpair)
      rcases List.mem_cons.mp hmem with heq | hmem
      · exact (congrArg Prod.snd heq).le
      · obtain ⟨it, hit, heq⟩ := List.mem_map.mp hmem
        exact (congrArg Prod.snd heq).ge.trans (hsorted.1 it hit)
    · obtain ⟨pair, hpair, heq⟩ := List.mem_map.mp (hperm.subset List.mem_cons_self)
      exact ⟨pair, hpair, congrArg Prod.snd heq⟩
    · rwa [hvalue]

theorem truncate_head {α : Type*} (rows : List α) (limit : ℤ) :
    (truncate rows limit).1.head? = rows.head? := by
  dsimp only [truncate]
  split_ifs with hcut
  · rw [List.head?_take, if_neg (by omega)]
  · rfl

/-- A known product at the top of a ranking is the first item of the matrix. -/
theorem items_head {pairs : List (String × String × ℚ)} {top : ABCItem} {rest : List ABCItem}
    (hmax : ∀ a ∈ rest, a.value ≤ top.value) {stats : List DemandStats} {p : XyzParams}
    {xyz : XyzClass × ℚ} (hxyz : (xyzByKey stats p).get? top.name = some xyz) (limit : ℤ) :
    (matrixOf (top :: rest) pairs stats p limit).items.head? =
      some (matrixItem (nameByKey pairs) top xyz) := by
  dsimp only [matrixOf]
  rw [truncate_head, foldl_matrixStep, List.nil_append, List.filterMap_cons, hxyz, Option.map_some,
    sortedDesc, List.insertionSort_cons_of_forall_rel, List.head?_cons]
  intro it hit
  obtain ⟨a, ha, hsome⟩ := List.mem_filterMap.mp hit
  obtain ⟨xyz', -, rfl⟩ := Option.map_eq_some_iff.mp hsome
  exact moneyRound_mono (hmax a ha)

/-- No product with the top class is one to drop. -/
theorem recommendation_of_A (xyz : XyzClass) :
    recommendation (abcText .A ++ xyzText xyz) ≠ "кандидат на вывод из ассортимента" := by
  cases xyz <;> decide +kernel

/-- The item of the largest value is in class A, and the matrix, where the history knows it, shows
it first, not in a C cell and not as one to drop. -/
def TopIsKept (pairs : List (String × String × ℚ)) : Prop :=
  ∃ items top, Computed.ranking python pairs = some items ∧ items.head? = some top ∧
    top.abcClass = .A ∧
    ∀ stats p limit, (xyzOf stats p top.name).isSome →
      ∃ m it, Computed.abcXyzMatrix python pairs stats p limit = some m ∧ m.items.head? = some it ∧
        it.name = ((nameByKey pairs).get? top.name).getD top.name ∧
        it.revenue = moneyRound top.value ∧ it.abcClass ≠ .C ∧
        recommendation it.cell ≠ "кандидат на вывод из ассортимента"

def valueTotal (pairs : List (String × String × ℚ)) : ℚ :=
  Computed.abcTotal python (pairs.map fun pair => (pair.1, pair.2.2))

/-- Up to values of moderate size the ranking is returned; where it is, the item of the largest value
is kept when its double is positive and at most the double `0.8` of the double of the total, up to
half a unit in its last place. -/
theorem topIsKept_iff (pairs : List (String × String × ℚ)) (hpos : ∃ pair ∈ pairs, 0 < pair.2.2) :
    (Computed.Moderate (pairs.map fun pair => (pair.1, pair.2.2)) →
      (Computed.ranking python pairs).isSome) ∧
    (TopIsKept pairs ↔ (Computed.ranking python pairs).isSome ∧
      (∃ pair ∈ pairs, 0 < nearest pair.2.2) ∧
      ∀ pair ∈ pairs, WithinTop (valueTotal pairs) pair.2.2) := by
  refine ⟨fun h => Computed.abc_isSome h _ _, ?_⟩
  obtain ⟨pair₀, hpair₀, -⟩ := hpos
  constructor
  -- the cut is monotone in the value, so the largest one speaks for all
  · rintro ⟨items, top', hitems, htop', hA, -⟩
    obtain ⟨top, rest, rfl, hmax, ⟨pair, hpair, hvalue⟩, -, hclass⟩ :=
      ranking_head (List.ne_nil_of_mem hpair₀) hitems
    obtain rfl : top = top' := Option.some_inj.mp htop'
    obtain ⟨hnearest, hwithin⟩ := hclass.mp hA
    refine ⟨Option.isSome_iff_exists.mpr ⟨_, hitems⟩, ⟨pair, hpair, hvalue ▸ hnearest⟩, ?_⟩
    intro pair' hpair'
    refine hwithin.imp_right fun h => le_trans ?_ h
    exact mul_le_mul_of_nonneg_left (nearest_mono (hmax pair' hpair')) (by norm_num)
  · rintro ⟨hsome, ⟨pair₁, hpair₁, hnearest⟩, hwithin⟩
    obtain ⟨items, hitems⟩ := Option.isSome_iff_exists.mp hsome
    obtain ⟨top, rest, rfl, hmax, ⟨pair, hpair, hvalue⟩, hrest, hclass⟩ :=
      ranking_head (List.ne_nil_of_mem hpair₀) hitems
    have hA : top.abcClass = .A :=
      hclass.mpr ⟨hnearest.trans_le (nearest_mono (hmax pair₁ hpair₁)), hvalue ▸ hwithin pair hpair⟩
    -- an item of class A is never recommended for withdrawal
    refine ⟨top :: rest, top, hitems, rfl, hA, fun stats p limit hknown => ?_⟩
    rw [← get?_xyzByKey, Option.isSome_map] at hknown
    obtain ⟨xyz, hxyz⟩ := Option.isSome_iff_exists.mp hknown
    refine ⟨_, _, by rw [Computed.abcXyzMatrix, hitems, Option.map_some],
      items_head hrest hxyz limit, rfl, rfl, ?_, ?_⟩
    · show top.abcClass ≠ .C
      rw [hA]
      decide
    · show recommendation (abcText top.abcClass ++ xyzText xyz.1) ≠ _
      rw [hA]
      exact recommendation_of_A xyz.1

/-- Tea has more than four fifths of the value, by less than a double can tell. -/
def barelyDominatingTea : List (String × String × ℚ) :=
  [("чай", "Чай", 4000000000000001 / 100), ("кофе", "Кофе", 10000000000000)]

theorem barelyDominatingTea_kept : TopIsKept barelyDominatingTea := by
  refine ((topIsKept_iff barelyDominatingTea ⟨_, List.mem_cons_self, by norm_num⟩).2).mpr ?_
  decide +kernel

/-- Tea makes 96% of the value, on a few days. -/
def dominatingTea : List (String × String × ℚ) := [("чай", "Чай", 96), ("кофе", "Кофе", 4)]

theorem dominatingTea_dropped :
    (∃ pair ∈ dominatingTea, 0 < pair.2.2) ∧ ¬ TopIsKept dominatingTea ∧
      (Computed.abcXyzMatrix python dominatingTea [⟨"чай", "Чай", "", 30, 1, 2⟩] {} 0).map
          (fun m => m.items.map fun it => (it.name, it.cell, recommendation it.cell)) =
        some [("Чай", "CZ", "кандидат на вывод из ассортимента")] := by
  refine ⟨⟨_, List.mem_cons_self, by norm_num⟩, ?_, by decide +kernel⟩
  rintro ⟨items, top, hitems, htop, hA, -⟩
  have hclass : (Computed.ranking python dominatingTea).map (fun items => items.head?.map (·.abcClass)) =
      some (some .C) := by decide +kernel
  rw [hitems, Option.map_some, htop, Option.map_some, hA] at hclass
  exact absurd hclass (by decide)

end Chic.Xyz
