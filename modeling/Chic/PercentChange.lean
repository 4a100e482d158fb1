import Chic.ComputedComparison

namespace Chic.Periods
open Money Arithmetic Binary64 Decimal
open Computed (change comparePeriods_eq_some keySum mem_changes pctChange_of_ne pctChange_of_zero wholeSum)

/-- A percentage that does not contradict its change. -/
def SignsAgree (delta pct : ℚ) : Prop := (0 ≤ delta → 0 ≤ pct) ∧ (delta ≤ 0 → pct ≤ 0)

/-- From `a` to `b` the change is so small that its percentage rounds to zero. -/
def Negligible (a b : ℚ) : Prop :=
  nearest a ≠ 0 ∧ 2 ^ 68 * |change a b| ≤ 14757395258967637 * |nearest a|

/-- A change that shows is measured against a positive baseline, comes up from zero, or has a
percentage that rounds to zero. -/
def Measurable (a b : ℚ) : Prop :=
  1 / 200 ≤ |python.decimal (b - a)| →
    0 < nearest a ∨ (nearest a = 0 ∧ 0 ≤ nearest b) ∨ Negligible a b

/-- A change that does not show has to have no percentage either. -/
def Still (a b : ℚ) : Prop :=
  |python.decimal (b - a)| < 1 / 200 → (nearest a = 0 ∧ nearest b = 0) ∨ Negligible a b

section Sign
variable {a b delta pct : ℚ}

theorem change_nonneg (h : a ≤ b) : 0 ≤ change a b :=
  nearest_nonneg (sub_nonneg.mpr (nearest_mono h))

theorem change_nonpos (h : b ≤ a) : change a b ≤ 0 :=
  nearest_nonpos (sub_nonpos.mpr (nearest_mono h))

theorem pctChange_eq_zero_iff (h : Computed.pctChange python a b = some pct) :
    pct = 0 ↔ (nearest a = 0 ∧ nearest b = 0) ∨ Negligible a b := by
  by_cases ha : nearest a = 0
  · have hnot : ¬ Negligible a b := fun hneg => hneg.1 ha
    rw [pctChange_of_zero h ha, or_iff_left hnot, and_iff_right ha]
    split_ifs with hb
    · exact iff_of_true rfl hb
    · exact iff_of_false (by norm_num) hb
  · obtain ⟨hpos, hneg⟩ := pctChange_of_ne h ha
    have habs : 0 < |nearest a| := abs_pos.mpr ha
    have hzero : pct = 0 ↔ |change a b / nearest a| ≤ 14757395258967637 / 2 ^ 68 := by
      rw [← not_iff_not, ← ne_eq, ne_iff_lt_or_gt, hneg, hpos, not_le, lt_abs, or_comm]
    rw [hzero, or_iff_right fun h => ha h.1, Negligible, and_iff_right ha, abs_div, div_le_iff₀ habs]
    constructor <;> intro h <;> linarith

/-- A rise against a negative baseline is a negative percentage. -/
theorem pctChange_nonneg_iff (h : Computed.pctChange python a b = some pct) (hlt : a < b) :
    0 ≤ pct ↔ 0 < nearest a ∨ (nearest a = 0 ∧ 0 ≤ nearest b) ∨ Negligible a b := by
  rcases lt_trichotomy (nearest a) 0 with ha | ha | ha
  · obtain ⟨hpos, -⟩ := pctChange_of_ne h ha.ne
    have hratio : change a b / nearest a ≤ 0 :=
      div_nonpos_of_nonneg_of_nonpos (change_nonneg hlt.le) ha.le
    have hnonpos : pct ≤ 0 := not_lt.mp fun hgt => by linarith [hpos.mp hgt]
    have hzero : 0 ≤ pct ↔ pct = 0 := ⟨fun hge => le_antisymm hnonpos hge, fun heq => heq.ge⟩
    rw [hzero, pctChange_eq_zero_iff h]
    simp only [ha.ne, ha.not_gt, false_and, false_or]
  · refine iff_of_true ?_ (.inr (.inl ⟨ha, ha.symm.trans_le (nearest_mono hlt.le)⟩))
    rw [pctChange_of_zero h ha]
    split_ifs <;> norm_num
  · obtain ⟨-, hneg⟩ := pctChange_of_ne h ha.ne'
    have hratio : 0 ≤ change a b / nearest a := div_nonneg (change_nonneg hlt.le) ha.le
    refine iff_of_true (not_lt.mp fun hlt => ?_) (.inl ha)
    linarith [hneg.mp hlt]

theorem pctChange_nonpos_iff (h : Computed.pctChange python a b = some pct) (hlt : b < a) :
    pct ≤ 0 ↔ 0 < nearest a ∨ (nearest a = 0 ∧ 0 ≤ nearest b) ∨ Negligible a b := by
  rcases lt_trichotomy (nearest a) 0 with ha | ha | ha
  · obtain ⟨-, hneg⟩ := pctChange_of_ne h ha.ne
    have hratio : 0 ≤ change a b / nearest a :=
      div_nonneg_of_nonpos (change_nonpos hlt.le) ha.le
    have hnonneg : 0 ≤ pct := not_lt.mp fun hgt => by linarith [hneg.mp hgt]
    have hzero : pct ≤ 0 ↔ pct = 0 := ⟨fun hle => le_antisymm hle hnonneg, fun heq => heq.le⟩
    rw [hzero, pctChange_eq_zero_iff h]
    simp only [ha.ne, ha.not_gt, false_and, false_or]
  · have hb : nearest b ≤ 0 := (nearest_mono hlt.le).trans_eq ha
    have hnot : ¬ Negligible a b := fun hneg => hneg.1 ha
    rw [pctChange_of_zero h ha, or_iff_right ha.not_gt, or_iff_left hnot, and_iff_right ha]
    split_ifs with hzero
    · exact iff_of_true le_rfl hzero.ge
    · exact iff_of_false (by norm_num) (lt_of_le_of_ne hb hzero).not_ge
  · obtain ⟨hpos, -⟩ := pctChange_of_ne h ha.ne'
    have hratio : change a b / nearest a ≤ 0 :=
      div_nonpos_of_nonpos_of_nonneg (change_nonpos hlt.le) ha.le
    refine iff_of_true (not_lt.mp fun hgt => ?_) (.inl ha)
    linarith [hpos.mp hgt]

theorem moneyRound_pos_iff (v : ℚ) : 0 < moneyRound v ↔ 1 / 200 ≤ v := by
  rw [moneyRound_eq_round2, round2_pos_iff]

theorem moneyRound_neg_iff (v : ℚ) : moneyRound v < 0 ↔ v ≤ -1 / 200 := by
  rw [moneyRound_eq_round2, round2_neg_iff]

theorem moneyRound_eq_zero_iff (v : ℚ) : moneyRound v = 0 ↔ |v| < 1 / 200 := by
  rw [moneyRound_eq_round2, round2_eq_zero_iff]

theorem signsAgree_change_iff
    (hdelta : Computed.moneyRound python (python.decimal (b - a)) = some delta)
    (hpct : Computed.pctChange python a b = some pct) :
    SignsAgree delta pct ↔ Measurable a b ∧ Still a b := by
  obtain ⟨-, rfl⟩ := Computed.moneyRound_eq_some.mp hdelta
  have hsign : ∀ {x : ℚ}, 0 < python.decimal x → 0 < x := roundTo_pos_iff.mp
  rcases lt_or_ge |python.decimal (b - a)| (1 / 200) with hstill | hshows
  · have hmeasurable : Measurable a b := fun h => absurd hstill h.not_gt
    rw [(moneyRound_eq_zero_iff _).mpr hstill, SignsAgree, and_iff_right hmeasurable, Still,
      ← pctChange_eq_zero_iff hpct]
    simp only [le_refl, hstill, true_implies]
    exact ⟨fun h => le_antisymm h.2 h.1, fun heq => ⟨heq.ge, heq.le⟩⟩
  · have hnot : Still a b := fun h => absurd h hshows.not_gt
    rw [and_iff_left hnot, Measurable]
    simp only [hshows, true_implies]
    rcases le_abs.mp hshows with hup | hdown
    · have hpos := (moneyRound_pos_iff _).mpr hup
      have hlt : a < b := sub_pos.mp (hsign ((by norm_num : (0 : ℚ) < 1 / 200).trans_le hup))
      rw [SignsAgree, ← pctChange_nonneg_iff hpct hlt]
      simp only [hpos.le, hpos.not_ge, true_implies, false_implies, and_true]
    · have hneg := (moneyRound_neg_iff (python.decimal (b - a))).mpr (by linarith)
      have hlt : b < a := by
        have hswap : python.decimal (a - b) = -python.decimal (b - a) := by
          rw [← neg_sub]
          exact roundTo_neg 28 (b - a)
        apply sub_pos.mp
        apply hsign
        rw [hswap]
        linarith
      rw [SignsAgree, ← pctChange_nonpos_iff hpct hlt]
      simp only [hneg.le, hneg.not_ge, true_implies, false_implies, true_and]

end Sign

/-- In whatever a comparison of the two periods shows, the signs agree. -/
def PctAgrees (a b : List (String × ℚ)) : Prop :=
  ∀ topN c, Computed.comparePeriods python a b topN = some c →
    SignsAgree c.delta c.deltaPct ∧
      ∀ ch ∈ c.topGainers ++ c.topDecliners, SignsAgree ch.delta ch.deltaPct

section Pairs
variable {a b : List (String × ℚ)} {k : String} {ch : Change}

theorem mkChange_eq_some {x y : ℚ} (h : Computed.mkChange python k x y = some ch) :
    Computed.moneyRound python (python.decimal (y - x)) = some ch.delta ∧
      Computed.pctChange python x y = some ch.deltaPct := by
  obtain ⟨valueA, -, h⟩ := Option.bind_eq_some_iff.mp h
  obtain ⟨valueB, -, h⟩ := Option.bind_eq_some_iff.mp h
  obtain ⟨delta, hdelta, h⟩ := Option.bind_eq_some_iff.mp h
  obtain ⟨deltaPct, hpct, h⟩ := Option.bind_eq_some_iff.mp h
  obtain rfl := Option.some_inj.mp h
  exact ⟨hdelta, hpct⟩

theorem mem_of_mem_sliceTo {α : Type*} {rows : List α} {n : ℤ} {x : α}
    (h : x ∈ History.sliceTo n rows) : x ∈ rows := by
  obtain ⟨m, hm⟩ := sliceTo_eq_take n rows
  exact List.mem_of_mem_take (hm ▸ h)

theorem delta_ne_zero_of_shown {topN : ℤ} {chs : List Change}
    (h : ch ∈ History.sliceTo topN ((sortedDesc (·.delta) chs).filter (0 < ·.delta)) ++
      History.sliceTo topN ((sortedAsc (·.delta) chs).filter (·.delta < 0))) :
    ch ∈ chs ∧ ch.delta ≠ 0 := by
  rcases List.mem_append.mp h with h | h
  · obtain ⟨hmem, hpos⟩ := List.mem_filter.mp (mem_of_mem_sliceTo h)
    exact ⟨(perm_sortedDesc _ _).subset hmem, (of_decide_eq_true hpos).ne'⟩
  · obtain ⟨hmem, hneg⟩ := List.mem_filter.mp (mem_of_mem_sliceTo h)
    exact ⟨(perm_sortedAsc _ _).subset hmem, (of_decide_eq_true hneg).ne⟩

theorem shown_of_delta_ne_zero {chs : List Change} (h : ch ∈ chs) (hne : ch.delta ≠ 0) :
    ch ∈ History.sliceTo chs.length ((sortedDesc (·.delta) chs).filter (0 < ·.delta)) ++
      History.sliceTo chs.length ((sortedAsc (·.delta) chs).filter (·.delta < 0)) := by
  have hgainers := top_perm (n := chs.length) (perm_sortedDesc (·.delta) chs) (0 < ·.delta) le_rfl
  have hdecliners := top_perm (n := chs.length) (perm_sortedAsc (·.delta) chs) (·.delta < 0) le_rfl
  rcases hne.lt_or_gt with hneg | hpos
  · refine List.mem_append_right _ (hdecliners.symm.subset ?_)
    exact List.mem_filter.mpr ⟨h, decide_eq_true hneg⟩
  · refine List.mem_append_left _ (hgainers.symm.subset ?_)
    exact List.mem_filter.mpr ⟨h, decide_eq_true hpos⟩

theorem measurable_of_still {x y : ℚ} (h : |python.decimal (y - x)| < 1 / 200) : Measurable x y :=
  fun hshows => absurd h hshows.not_gt

theorem still_of_shows {x y : ℚ} (h : 1 / 200 ≤ |python.decimal (y - x)|) : Still x y :=
  fun hstill => absurd hstill h.not_gt

theorem delta_ne_zero_iff {x y : ℚ} (h : Computed.mkChange python k x y = some ch) :
    ch.delta ≠ 0 ↔ 1 / 200 ≤ |python.decimal (y - x)| := by
  obtain ⟨-, hdelta⟩ := Computed.moneyRound_eq_some.mp (mkChange_eq_some h).1
  rw [← hdelta, ne_eq, moneyRound_eq_zero_iff, not_lt]

/-- The percentages agree with the changes when every key that changes is measured against a
positive baseline, and so is the whole. -/
theorem pctAgrees_iff {topN : ℤ} {c : Comparison}
    (h : Computed.comparePeriods python a b topN = some c) :
    PctAgrees a b ↔ (∀ k, Measurable (keySum a k) (keySum b k)) ∧
      Measurable (wholeSum a) (wholeSum b) ∧ Still (wholeSum a) (wholeSum b) := by
  constructor
  · intro hagrees
    obtain ⟨chs, hchs, hdelta, hpct, -, -⟩ := comparePeriods_eq_some h
    refine ⟨fun k => ?_, (signsAgree_change_iff hdelta hpct).mp (hagrees topN c h).1⟩
    by_cases hk : k ∈ (Computed.fold python a).keys ∨ k ∈ (Computed.fold python b).keys
    · obtain ⟨ch, hch, hsome⟩ := (mem_changes hchs).2 k hk
      intro hshows
      -- asked for all changes, the comparison shows this one
      obtain ⟨all, hall⟩ := Computed.comparePeriods_topN h chs.length
      obtain ⟨chs', hchs', -, -, hgainers, hdecliners⟩ := comparePeriods_eq_some hall
      obtain rfl := Option.some_inj.mp (hchs.symm.trans hchs')
      have hshown := shown_of_delta_ne_zero hch ((delta_ne_zero_iff hsome).mpr hshows)
      rw [← hgainers, ← hdecliners] at hshown
      obtain ⟨hdelta, hpct⟩ := mkChange_eq_some hsome
      exact ((signsAgree_change_iff hdelta hpct).mp ((hagrees _ all hall).2 ch hshown)).1 hshows
    · rw [not_or] at hk
      apply measurable_of_still
      rw [keySum, keySum, Dict.amount_eq_zero hk.1, Dict.amount_eq_zero hk.2]
      norm_num [python, roundTo_zero]
  · rintro ⟨hkeys, hwhole⟩ topN c h
    obtain ⟨chs, hchs, hdelta, hpct, hgainers, hdecliners⟩ := comparePeriods_eq_some h
    refine ⟨(signsAgree_change_iff hdelta hpct).mpr hwhole, fun ch hch => ?_⟩
    rw [hgainers, hdecliners] at hch
    obtain ⟨hmem, hne⟩ := delta_ne_zero_of_shown hch
    obtain ⟨k, hsome⟩ := (mem_changes hchs).1 ch hmem
    obtain ⟨hdelta, hpct⟩ := mkChange_eq_some hsome
    exact (signsAgree_change_iff hdelta hpct).mpr
      ⟨hkeys k, still_of_shows ((delta_ne_zero_iff hsome).mp hne)⟩

end Pairs

instance (a b : ℚ) : Decidable (Negligible a b) := inferInstanceAs (Decidable (_ ∧ _))

instance (a b : ℚ) : Decidable (Measurable a b) := inferInstanceAs (Decidable (_ → _))

instance (a b : ℚ) : Decidable (Still a b) := inferInstanceAs (Decidable (_ → _))

instance (delta pct : ℚ) : Decidable (SignsAgree delta pct) := inferInstanceAs (Decidable (_ ∧ _))

/-- A loss that shrinks by a cent in 200.00 does so by 0.00%. -/
theorem cent_agrees : PctAgrees [("Чай", -200)] [("Чай", -19999 / 100)] := by
  have hreturns : (Computed.comparePeriods python [("Чай", -200)] [("Чай", -19999 / 100)] 10).isSome := by
    decide +kernel
  obtain ⟨c, hc⟩ := Option.isSome_iff_exists.mp hreturns
  refine (pctAgrees_iff hc).mpr ⟨fun k => ?_, by decide +kernel, by decide +kernel⟩
  by_cases hk : k = "Чай"
  · subst hk
    decide +kernel
  · have hzero : ∀ v, keySum [("Чай", v)] k = 0 := fun v =>
      Dict.amount_eq_zero fun hmem => hk (List.mem_singleton.mp hmem)
    rw [hzero, hzero]
    decide +kernel

/-- Tea loses less than before; coffee begins to lose. -/
theorem losses_disagree :
    ((Computed.comparePeriods python [("Чай", -100)] [("Чай", -50)] 10).map
        (fun c => c.topGainers.map fun ch => (ch.delta, ch.deltaPct)) = some [(50, -50)] ∧
      ¬ PctAgrees [("Чай", -100)] [("Чай", -50)]) ∧
    ((Computed.comparePeriods python [("Кофе", 0)] [("Кофе", -50)] 10).map
        (fun c => c.topDecliners.map fun ch => (ch.delta, ch.deltaPct)) = some [(-50, 100)] ∧
      ¬ PctAgrees [("Кофе", 0)] [("Кофе", -50)]) := by
  have hnot : ∀ {a b : List (String × ℚ)},
      ((Computed.comparePeriods python a b 10).all fun c => SignsAgree c.delta c.deltaPct) = false →
        ¬ PctAgrees a b := by
    intro a b hfalse h
    cases hc : Computed.comparePeriods python a b 10 with
    | none =>
      rw [hc] at hfalse
      cases hfalse
    | some c =>
      rw [hc] at hfalse
      exact of_decide_eq_false hfalse (h 10 c hc).1
  refine ⟨⟨by decide +kernel, hnot ?_⟩, by decide +kernel, hnot ?_⟩
  · decide +kernel
  · decide +kernel

end Chic.Periods
