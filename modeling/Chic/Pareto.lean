import Chic.Analytics
import Chic.PrefixSums

namespace Chic
open Money PrefixSums

section Rank
variable {aCut bCut total cum : ℚ} {pairs : List (String × ℚ)}

theorem abcRank_pairs (aCut bCut total cum : ℚ) (pairs : List (String × ℚ)) :
    (abcRank aCut bCut total cum pairs).map (fun it => (it.name, it.value)) = pairs := by
  induction pairs generalizing cum with
  | nil => rfl
  | cons pair pairs ih =>
    rw [abcRank, List.map_cons, ih]

theorem abcRank_append (hcounts : ∀ p ∈ pairs, 0 < total ∧ 0 < p.2) (rest : List (String × ℚ)) :
    abcRank aCut bCut total cum (pairs ++ rest) = abcRank aCut bCut total cum pairs ++
      abcRank aCut bCut total (cum + (pairs.map Prod.snd).sum) rest := by
  induction pairs generalizing cum with
  | nil => simp [abcRank]
  | cons pair pairs ih =>
    obtain ⟨hpair, hpairs⟩ := List.forall_mem_cons.mp hcounts
    simp only [List.cons_append, abcRank, if_pos hpair, ih hpairs, List.map_cons, List.sum_cons,
      add_assoc]

theorem abcRank_nonpos (h : ∀ p ∈ pairs, p.2 ≤ 0) {it : ABCItem}
    (hit : it ∈ abcRank aCut bCut total cum pairs) :
    it.value ≤ 0 ∧ it.abcClass = .C ∧ it.cumulativeShare = 100 := by
  induction pairs generalizing cum with
  | nil => cases hit
  | cons pair pairs ih =>
    obtain ⟨hpair, hpairs⟩ := List.forall_mem_cons.mp h
    have hnot : ¬ (0 < total ∧ 0 < pair.2) := fun hc => hc.2.not_ge hpair
    rw [abcRank, List.mem_cons] at hit
    rcases hit with rfl | hit
    · exact ⟨hpair, if_pos hpair, if_neg hnot⟩
    · exact ih hpairs hit

/-- The labels of positive values: each cut takes the values that fit under it. -/
theorem abcRank_labels (hcounts : ∀ p ∈ pairs, 0 < total ∧ 0 < p.2) (hab : aCut ≤ bCut) :
    (abcRank aCut bCut total cum pairs).map (·.abcClass) =
      List.replicate (fits (aCut * total) cum (pairs.map Prod.snd)) .A ++
      List.replicate (fits (bCut * total) cum (pairs.map Prod.snd) -
        fits (aCut * total) cum (pairs.map Prod.snd)) .B ++
      List.replicate (pairs.length - fits (bCut * total) cum (pairs.map Prod.snd)) .C := by
  induction pairs generalizing cum with
  | nil => rfl
  | cons pair pairs ih =>
    obtain ⟨hpair, hpairs⟩ := List.forall_mem_cons.mp hcounts
    have hrest : ∀ v ∈ pairs.map Prod.snd, 0 ≤ v :=
      List.forall_mem_map.mpr fun p hp => (hpairs p hp).2.le
    have hcuts : aCut * total ≤ bCut * total := mul_le_mul_of_nonneg_right hab hpair.1.le
    simp only [abcRank, List.map_cons, ih hpairs, if_pos hpair, if_neg hpair.2.not_ge,
      div_le_iff₀ hpair.1, fits, List.length_cons]
    by_cases ha : cum + pair.2 ≤ aCut * total
    · simp only [if_pos ha, if_pos (ha.trans hcuts), Nat.add_sub_add_right, List.replicate_succ,
        List.cons_append]
    · -- past the first cut nothing is labelled A any more
      rw [fits_eq_zero (not_le.mp ha) hrest]
      by_cases hb : cum + pair.2 ≤ bCut * total
      · simp only [if_neg ha, if_pos hb, Nat.sub_zero, List.replicate_succ, List.replicate_zero,
          List.nil_append, List.cons_append, Nat.add_sub_add_right]
      · rw [fits_eq_zero (not_le.mp hb) hrest]
        simp only [if_neg ha, if_neg hb, Nat.sub_zero, List.replicate_succ, List.replicate_zero,
          List.nil_append]

/-- The cumulative shares of positive values begin where the running sum stands. -/
theorem le_cumulativeShare (hcounts : ∀ p ∈ pairs, 0 < total ∧ 0 < p.2) {it : ABCItem}
    (hit : it ∈ abcRank aCut bCut total cum pairs) :
    round2 (cum / total * 100) ≤ it.cumulativeShare := by
  induction pairs generalizing cum with
  | nil => cases hit
  | cons pair pairs ih =>
    obtain ⟨hpair, hpairs⟩ := List.forall_mem_cons.mp hcounts
    have hstep : round2 (cum / total * 100) ≤ round2 ((cum + pair.2) / total * 100) := by
      apply round2_mono
      have := div_le_div_of_nonneg_right (le_add_of_nonneg_right hpair.2.le : cum ≤ cum + pair.2)
        hpair.1.le
      linarith
    rw [abcRank, List.mem_cons] at hit
    simp only [if_pos hpair] at hit
    rcases hit with rfl | hit
    · exact hstep
    · exact hstep.trans (ih hpairs hit)

theorem cumulativeShares_sorted (hcounts : ∀ p ∈ pairs, 0 < total ∧ 0 < p.2) :
    ((abcRank aCut bCut total cum pairs).map (·.cumulativeShare)).Pairwise (· ≤ ·) := by
  induction pairs generalizing cum with
  | nil => exact List.Pairwise.nil
  | cons pair pairs ih =>
    obtain ⟨hpair, hpairs⟩ := List.forall_mem_cons.mp hcounts
    rw [abcRank, List.map_cons, List.pairwise_cons]
    refine ⟨List.forall_mem_map.mpr fun it hit => ?_, ih hpairs⟩
    simp only [if_pos hpair] at hit ⊢
    exact le_cumulativeShare hpairs hit

theorem cumulativeShare_le (hcounts : ∀ p ∈ pairs, 0 < total ∧ 0 < p.2)
    (hsum : cum + (pairs.map Prod.snd).sum ≤ total) {it : ABCItem}
    (hit : it ∈ abcRank aCut bCut total cum pairs) : it.cumulativeShare ≤ 100 := by
  induction pairs generalizing cum with
  | nil => cases hit
  | cons pair pairs ih =>
    obtain ⟨hpair, hpairs⟩ := List.forall_mem_cons.mp hcounts
    rw [List.map_cons, List.sum_cons, ← add_assoc] at hsum
    rw [abcRank, List.mem_cons] at hit
    simp only [if_pos hpair] at hit
    rcases hit with rfl | hit
    · have hrest : 0 ≤ (pairs.map Prod.snd).sum :=
        List.sum_nonneg (List.forall_mem_map.mpr fun p hp => (hpairs p hp).2.le)
      have hle : (cum + pair.2) / total ≤ 1 := (div_le_one hpair.1).mpr (by linarith)
      calc round2 ((cum + pair.2) / total * 100) ≤ round2 100 := round2_mono (by linarith)
        _ = 100 := by decide +kernel
    · exact ih hpairs hsum hit

end Rank

/-- The first `n` values are the longest beginning, within the positive ones, that adds up to at
most `bound`. -/
def IsCut (values : List ℚ) (bound : ℚ) (n : ℕ) : Prop :=
  IsGreatest {k | k ≤ values.countP (0 < ·) ∧ (values.take k).sum ≤ bound} n

section Cuts
variable {aCut bCut : ℚ}

theorem isCut_append {values rest : List ℚ} {bound : ℚ} {n : ℕ} (hpos : ∀ v ∈ values, 0 < v)
    (hrest : ∀ v ∈ rest, v ≤ 0) (h : LongestPrefix values bound n) :
    IsCut (values ++ rest) bound n := by
  have hcount : (values ++ rest).countP (0 < ·) = values.length := by
    have hvalues : values.countP (0 < ·) = values.length :=
      List.countP_eq_length.mpr fun v hv => decide_eq_true (hpos v hv)
    have hnone : rest.countP (0 < ·) = 0 :=
      List.countP_eq_zero.mpr fun v hv => by simpa using hrest v hv
    rw [List.countP_append, hvalues, hnone, Nat.add_zero]
  have hset : {k | k ≤ (values ++ rest).countP (0 < ·) ∧ ((values ++ rest).take k).sum ≤ bound} =
      {k | k ≤ values.length ∧ (values.take k).sum ≤ bound} := by
    ext k
    rw [hcount]
    refine and_congr_right fun hk => ?_
    rw [List.take_append_of_le_length hk]
  rw [IsCut, hset]
  exact h

theorem abcCuts_of_lt (ha : 0 < aCut) (hab : aCut < bCut) (hb : bCut < 1) :
    abcCuts aCut bCut = (aCut, bCut) := by
  have hfirst : ¬ (aCut ≤ 0 ∨ 1 ≤ aCut) := not_or.mpr ⟨ha.not_ge, (hab.trans hb).not_ge⟩
  have hsecond : ¬ (bCut ≤ aCut ∨ 1 ≤ bCut) := not_or.mpr ⟨hab.not_ge, hb.not_ge⟩
  dsimp only [abcCuts]
  rw [if_neg hfirst, if_neg hsecond]

theorem ranking_split (pairs : List (String × ℚ)) : ∃ pos rest,
    sortedDesc Prod.snd pairs = pos ++ rest ∧ (∀ p ∈ pos, 0 < p.2) ∧ (∀ p ∈ rest, p.2 ≤ 0) ∧
      ((pairs.map Prod.snd).filter (0 < ·)).sum = (pos.map Prod.snd).sum := by
  have hsplit := StableSort.filter_append_filter_not
    (p := fun p : String × ℚ => decide (0 < p.2)) (pairwise_sortedDesc Prod.snd pairs)
    fun x y hxy hy => decide_eq_true ((of_decide_eq_true hy).trans_le hxy)
  refine ⟨_, _, hsplit.symm, fun p hp => of_decide_eq_true (List.mem_filter.mp hp).2, ?_, ?_⟩
  · intro p hp
    simpa using (List.mem_filter.mp hp).2
  · have hperm := ((perm_sortedDesc Prod.snd pairs).map Prod.snd).filter (0 < ·)
    rw [← hperm.sum_eq, List.filter_map]
    rfl

theorem abc_split (ha : 0 < aCut) (hab : aCut < bCut) (hb : bCut < 1) {pairs pos rest : List (String × ℚ)}
    (hranking : sortedDesc Prod.snd pairs = pos ++ rest) (hpos : ∀ p ∈ pos, 0 < p.2)
    (hrest : ∀ p ∈ rest, p.2 ≤ 0) :
    (∀ p ∈ pos, 0 < (pos.map Prod.snd).sum ∧ 0 < p.2) ∧
      abc pairs aCut bCut = abcRank aCut bCut (pos.map Prod.snd).sum 0 pos ++
        abcRank aCut bCut (pos.map Prod.snd).sum (pos.map Prod.snd).sum rest := by
  have hcounts : ∀ p ∈ pos, 0 < (pos.map Prod.snd).sum ∧ 0 < p.2 := by
    intro p hp
    refine ⟨?_, hpos p hp⟩
    exact List.sum_pos _ (List.forall_mem_map.mpr hpos) (List.ne_nil_of_mem (List.mem_map_of_mem hp))
  refine ⟨hcounts, ?_⟩
  have htotal : (((pos ++ rest).map Prod.snd).filter (0 < ·)).sum = (pos.map Prod.snd).sum := by
    have hall : (pos.map Prod.snd).filter (0 < ·) = pos.map Prod.snd :=
      List.filter_eq_self.mpr (List.forall_mem_map.mpr fun p hp => decide_eq_true (hpos p hp))
    have hnone : (rest.map Prod.snd).filter (0 < ·) = [] :=
      List.filter_eq_nil_iff.mpr (List.forall_mem_map.mpr fun p hp => by simpa using hrest p hp)
    rw [List.map_append, List.filter_append, hall, hnone, List.append_nil]
  dsimp only [abc]
  rw [abcCuts_of_lt ha hab hb, hranking, htotal, abcRank_append hcounts, zero_add]

theorem abc_pairs (pairs : List (String × ℚ)) (aCut bCut : ℚ) :
    (abc pairs aCut bCut).map (fun it => (it.name, it.value)) = sortedDesc Prod.snd pairs :=
  abcRank_pairs _ _ _ _ _

theorem length_abc (pairs : List (String × ℚ)) (aCut bCut : ℚ) :
    (abc pairs aCut bCut).length = pairs.length := by
  rw [← (perm_sortedDesc Prod.snd pairs).length_eq, ← abc_pairs pairs aCut bCut, List.length_map]

theorem abc_classes (ha : 0 < aCut) (hab : aCut < bCut) (hb : bCut < 1)
    (pairs : List (String × ℚ)) :
    let items := abc pairs aCut bCut
    let total := ((pairs.map Prod.snd).filter (0 < ·)).sum
    ∃ nA nB, IsCut (items.map (·.value)) (aCut * total) nA ∧
      IsCut (items.map (·.value)) (bCut * total) nB ∧ nA ≤ nB ∧
      items.map (·.abcClass) = List.replicate nA .A ++ List.replicate (nB - nA) .B ++
        List.replicate (items.length - nB) .C := by
  intro items total
  obtain ⟨pos, rest, hranking, hpos, hrest, htotal⟩ := ranking_split pairs
  obtain ⟨hcounts, habc⟩ := abc_split ha hab hb hranking hpos hrest
  have hvalues : items.map (·.value) = pos.map Prod.snd ++ rest.map Prod.snd := by
    rw [← List.map_append, ← hranking, ← abc_pairs pairs aCut bCut, List.map_map]
    rfl
  have hpos' : ∀ v ∈ pos.map Prod.snd, 0 < v := List.forall_mem_map.mpr hpos
  have hrest' : ∀ v ∈ rest.map Prod.snd, v ≤ 0 := List.forall_mem_map.mpr hrest
  have hnonneg : ∀ v ∈ pos.map Prod.snd, 0 ≤ v := fun v hv => (hpos' v hv).le
  have htotal₀ : 0 ≤ total := (List.sum_nonneg hnonneg).trans_eq htotal.symm
  -- each cut takes the positive values whose running sum fits under it
  have hcut : ∀ cut : ℚ, 0 ≤ cut →
      IsCut (items.map (·.value)) (cut * total) (fits (cut * total) 0 (pos.map Prod.snd)) := by
    intro cut hcut
    rw [hvalues]
    exact isCut_append hpos' hrest' (longestPrefix_fits (mul_nonneg hcut htotal₀) hnonneg)
  refine ⟨_, _, hcut aCut ha.le, hcut bCut (ha.trans hab).le,
    fits_mono (mul_le_mul_of_nonneg_right hab.le htotal₀) _ _, ?_⟩
  have hlen : items.length = pos.length + rest.length := by
    rw [length_abc, ← (perm_sortedDesc Prod.snd pairs).length_eq, hranking, List.length_append]
  have hclasses : (abcRank aCut bCut total total rest).map (·.abcClass) =
      List.replicate rest.length .C := by
    refine List.eq_replicate_iff.mpr ⟨?_, List.forall_mem_map.mpr fun it hit => ?_⟩
    · rw [← abcRank_pairs aCut bCut total total rest, List.length_map, List.length_map,
        abcRank_pairs]
    · exact (abcRank_nonpos hrest hit).2.1
  have hfits := fits_le_length (bCut * total) 0 (pos.map Prod.snd)
  rw [List.length_map] at hfits
  rw [hlen, Nat.sub_add_comm hfits, List.replicate_add, ← List.append_assoc, ← hclasses]
  dsimp only [items]
  rw [habc, List.map_append, ← htotal, abcRank_labels (htotal ▸ hcounts) hab.le]

theorem abc_cumulativeShares (ha : 0 < aCut) (hab : aCut < bCut) (hb : bCut < 1)
    (pairs : List (String × ℚ)) :
    ((abc pairs aCut bCut).map (·.cumulativeShare)).Pairwise (· ≤ ·) := by
  obtain ⟨pos, rest, hranking, hpos, hrest, -⟩ := ranking_split pairs
  obtain ⟨hcounts, habc⟩ := abc_split ha hab hb hranking hpos hrest
  rw [habc, List.map_append, List.pairwise_append]
  refine ⟨cumulativeShares_sorted hcounts, ?_, ?_⟩
  · refine List.pairwise_of_forall_mem_list ?_
    simp only [List.forall_mem_map]
    intro it hit it' hit'
    exact ((abcRank_nonpos hrest hit).2.2.trans (abcRank_nonpos hrest hit').2.2.symm).le
  · simp only [List.forall_mem_map]
    intro it hit it' hit'
    rw [(abcRank_nonpos hrest hit').2.2]
    exact cumulativeShare_le hcounts (zero_add _).le hit

theorem abc_nonpos (ha : 0 < aCut) (hab : aCut < bCut) (hb : bCut < 1)
    {pairs : List (String × ℚ)} {it : ABCItem} (hit : it ∈ abc pairs aCut bCut)
    (hv : it.value ≤ 0) : it.abcClass = .C ∧ it.cumulativeShare = 100 := by
  obtain ⟨pos, rest, hranking, hpos, hrest, -⟩ := ranking_split pairs
  rw [(abc_split ha hab hb hranking hpos hrest).2] at hit
  rcases List.mem_append.mp hit with hit | hit
  · have hmem := List.mem_map_of_mem (f := fun it : ABCItem => (it.name, it.value)) hit
    rw [abcRank_pairs] at hmem
    exact absurd hv (hpos _ hmem).not_ge
  · exact (abcRank_nonpos hrest hit).2

end Cuts

theorem abcReport_counts (items : List ABCItem) (limit : ℤ) :
    (abcReport items limit).totals.aCount + (abcReport items limit).totals.bCount +
      (abcReport items limit).totals.cCount = items.length := by
  show items.countP (·.abcClass = .A) + items.countP (·.abcClass = .B) +
    items.countP (fun it => it.abcClass ≠ .A ∧ it.abcClass ≠ .B) = items.length
  induction items with
  | nil => rfl
  | cons it items ih =>
    simp only [List.countP_cons, List.length_cons]
    cases it.abcClass <;> simp at ih ⊢ <;> omega

/-- The classification is a Pareto cut: the ranking is the stable one, the labels are cut off it
where its running sum leaves `aCut` and `bCut` of the total. -/
theorem abc_pareto (pairs : List (String × ℚ)) {aCut bCut : ℚ} (ha : 0 < aCut) (hab : aCut < bCut)
    (hb : bCut < 1) :
    (∀ limit, (abcReport (abc pairs aCut bCut) limit).totals.aCount +
      (abcReport (abc pairs aCut bCut) limit).totals.bCount +
      (abcReport (abc pairs aCut bCut) limit).totals.cCount = (abc pairs aCut bCut).length) ∧
    let items := abc pairs aCut bCut
    let ranked := items.map fun it => (it.name, it.value)
    let total := ((pairs.map Prod.snd).filter (0 < ·)).sum
    (ranked.Perm pairs ∧ ranked.Pairwise (fun x y => y.2 ≤ x.2) ∧
      ∀ v, ranked.filter (·.2 = v) = pairs.filter (·.2 = v)) ∧
    (∃ nA nB, IsCut (items.map (·.value)) (aCut * total) nA ∧
      IsCut (items.map (·.value)) (bCut * total) nB ∧ nA ≤ nB ∧
      items.map (·.abcClass) = List.replicate nA .A ++ List.replicate (nB - nA) .B ++
        List.replicate (items.length - nB) .C) ∧
    (∀ it ∈ items, it.value ≤ 0 → it.abcClass = .C ∧ it.cumulativeShare = 100) ∧
    (items.map (·.cumulativeShare)).Pairwise (· ≤ ·) := by
  refine ⟨abcReport_counts _, ?_⟩
  intro items ranked total
  have hranked : ranked = sortedDesc Prod.snd pairs := abc_pairs pairs aCut bCut
  refine ⟨?_, abc_classes ha hab hb pairs, fun it hit hv => abc_nonpos ha hab hb hit hv,
    abc_cumulativeShares ha hab hb pairs⟩
  rw [hranked]
  exact ⟨perm_sortedDesc _ _, pairwise_sortedDesc _ _, filter_sortedDesc Prod.snd pairs⟩

/-- Two products of one value, one that sells at a loss. -/
def teaCoffeeLoss : List (String × ℚ) :=
  [("Чай", 4), ("Кофе", 12), ("Мёд", 4), ("Возврат", -3)]

theorem teaCoffeeLoss_pareto : ∃ nA nB,
    IsCut [12, 4, 4, -3] (8 / 10 * 20) nA ∧ IsCut [12, 4, 4, -3] (95 / 100 * 20) nB ∧ nA ≤ nB ∧
      (abc teaCoffeeLoss (8 / 10) (95 / 100)).map (·.abcClass) =
        List.replicate nA .A ++ List.replicate (nB - nA) .B ++ List.replicate (4 - nB) .C := by
  have ha : (0 : ℚ) < 8 / 10 := by norm_num
  have hab : (8 / 10 : ℚ) < 95 / 100 := by norm_num
  have hb : (95 / 100 : ℚ) < 1 := by norm_num
  obtain ⟨-, -, hcuts, -⟩ := abc_pareto teaCoffeeLoss ha hab hb
  have hvalues : (abc teaCoffeeLoss (8 / 10) (95 / 100)).map (·.value) = [12, 4, 4, -3] := by
    decide +kernel
  have htotal : ((teaCoffeeLoss.map Prod.snd).filter (0 < ·)).sum = 20 := by decide +kernel
  rw [hvalues, htotal] at hcuts
  exact hcuts

example : (abc teaCoffeeLoss (8 / 10) (95 / 100)).map (fun it => (it.name, it.abcClass)) =
    [("Кофе", .A), ("Чай", .A), ("Мёд", .C), ("Возврат", .C)] := by decide +kernel

end Chic
