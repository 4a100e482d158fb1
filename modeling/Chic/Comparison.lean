import Chic.History
import Chic.Reports
import Chic.Tally

namespace Chic.Periods
open Money

structure Change where
  key : String
  valueA : ℚ
  valueB : ℚ
  delta : ℚ
  deltaPct : ℚ

structure Comparison where
  totalA : ℚ
  totalB : ℚ
  delta : ℚ
  deltaPct : ℚ
  topGainers : List Change
  topDecliners : List Change

def pctChange (a b : ℚ) : ℚ :=
  if a = 0 then (if b = 0 then 0 else 100) else round2 ((b - a) / a * 100)

def fold (pairs : List (String × ℚ)) : Dict String ℚ := Dict.tally pairs

def mkChange (k : String) (a b : ℚ) : Change where
  key := k
  valueA := moneyRound a
  valueB := moneyRound b
  delta := moneyRound (b - a)
  deltaPct := pctChange a b

def changes (ma mb : Dict String ℚ) : List Change :=
  (ma.entries.map fun e => mkChange e.1 e.2 (mb.amount e.1)) ++
    (mb.entries.filter fun e => e.1 ∉ ma.keys).map fun e => mkChange e.1 0 e.2

/-- `sorted(rows, key=key)`. -/
def sortedAsc {α κ : Type*} [LinearOrder κ] (key : α → κ) (rows : List α) : List α :=
  rows.insertionSort fun a b => key a ≤ key b

def comparePeriods (a b : List (String × ℚ)) (topN : ℤ) : Comparison :=
  let ma := fold a
  let mb := fold b
  let totalA := ma.values.sum
  let totalB := mb.values.sum
  let gainers := sortedDesc (·.delta) (changes ma mb)
  let decliners := sortedAsc (·.delta) (changes ma mb)
  { totalA := moneyRound totalA
    totalB := moneyRound totalB
    delta := moneyRound (totalB - totalA)
    deltaPct := pctChange totalA totalB
    topGainers := History.sliceTo topN (gainers.filter (0 < ·.delta))
    topDecliners := History.sliceTo topN (decliners.filter (·.delta < 0)) }

section Changes
variable (a b : List (String × ℚ))

def changeKeys : List String := (fold a).keys ++ (fold b).keys.filter (· ∉ (fold a).keys)

theorem changeKeys_nodup : (changeKeys a b).Nodup := by
  refine (Dict.keys_nodup _).append ((Dict.keys_nodup _).filter _) ?_
  intro k hk hk'
  exact of_decide_eq_true (List.mem_filter.mp hk').2 hk

theorem mem_changeKeys {k : String} : k ∈ changeKeys a b ↔ k ∈ (a ++ b).map Prod.fst := by
  rw [changeKeys, List.mem_append, List.mem_filter, decide_eq_true_eq, List.map_append,
    List.mem_append, fold, fold, Dict.mem_keys_tally, Dict.mem_keys_tally]
  exact or_and_left.trans (and_iff_left (em _))

theorem changes_eq :
    changes (fold a) (fold b) =
      (changeKeys a b).map fun k => mkChange k (Dict.sumOf a k) (Dict.sumOf b k) := by
  rw [changes, changeKeys, List.map_append]
  congr 1
  · rw [Dict.keys, List.map_map]
    refine List.map_congr_left fun e he => ?_
    rw [Function.comp_apply, ← Dict.amount_of_mem_entries he, fold, fold, Dict.amount_tally,
      Dict.amount_tally]
  · have hkeys : (fold b).keys = (fold b).entries.map Prod.fst := rfl
    rw [hkeys, List.filter_map, List.map_map]
    refine List.map_congr_left fun e he => ?_
    obtain ⟨he, hnew⟩ := List.mem_filter.mp he
    have hzero : Dict.sumOf a e.1 = 0 := by
      rw [← Dict.amount_tally]
      exact Dict.amount_eq_zero (of_decide_eq_true hnew)
    rw [Function.comp_apply, hzero, ← Dict.amount_of_mem_entries he, fold, Dict.amount_tally]

theorem sum_changeKeys :
    ((changeKeys a b).map (Dict.sumOf a)).sum = (a.map Prod.snd).sum ∧
      ((changeKeys a b).map (Dict.sumOf b)).sum = (b.map Prod.snd).sum := by
  have hmem := fun {k : String} => (mem_changeKeys a b (k := k)).mpr
  constructor
  · refine Dict.sum_sumOf (changeKeys_nodup a b) fun p hp => hmem ?_
    exact List.mem_map_of_mem (List.mem_append_left b hp)
  · refine Dict.sum_sumOf (changeKeys_nodup a b) fun p hp => hmem ?_
    exact List.mem_map_of_mem (List.mem_append_right a hp)

end Changes

section Top
variable {α : Type*} {key : α → ℚ} {rows : List α} {p : α → Bool} {n : ℤ}

theorem sliceTo_eq_take (n : ℤ) (rows : List α) : ∃ m, History.sliceTo n rows = rows.take m := by
  unfold History.sliceTo
  split_ifs
  · exact ⟨_, rfl⟩
  · exact ⟨_, rfl⟩

theorem sliceTo_of_length_le (h : (rows.length : ℤ) ≤ n) : History.sliceTo n rows = rows := by
  rw [History.sliceTo, if_pos (by omega), List.take_of_length_le (by omega)]

theorem perm_sortedAsc (key : α → ℚ) (rows : List α) : (sortedAsc key rows).Perm rows :=
  List.perm_insertionSort _ rows

theorem pairwise_sortedAsc (key : α → ℚ) (rows : List α) :
    (sortedAsc key rows).Pairwise fun x y => key x ≤ key y := by
  have : Std.Total fun x y : α => key x ≤ key y := ⟨fun x y => le_total (key x) (key y)⟩
  have : IsTrans α fun x y => key x ≤ key y := ⟨fun _ _ _ hxy hyz => hxy.trans hyz⟩
  exact List.pairwise_insertionSort _ rows

/-- The top rows of an ordered list in which those of one kind come before the others. -/
theorem top_spec {r : α → α → Prop} {sorted : List α} (hperm : sorted.Perm rows)
    (hsorted : sorted.Pairwise r) (hkind : ∀ x y, p x → ¬ p y → r x y) (n : ℤ) :
    let top := History.sliceTo n (sorted.filter p)
    top.Pairwise r ∧ (∀ x ∈ top, x ∈ rows ∧ p x) ∧
      (∀ name : α → String, (rows.map name).Nodup → (top.map name).Nodup) ∧
      ∀ x ∈ rows, x ∉ top → ∀ y ∈ top, r y x := by
  intro top
  obtain ⟨m, hm⟩ := sliceTo_eq_take n (sorted.filter p)
  have htop : top = (sorted.filter p).take m := hm
  have hfilter := hsorted.filter p
  have hmem : ∀ x ∈ top, x ∈ rows ∧ p x := by
    intro x hx
    obtain ⟨hx, hpx⟩ := List.mem_filter.mp (List.mem_of_mem_take (htop ▸ hx))
    exact ⟨hperm.subset hx, hpx⟩
  refine ⟨htop ▸ hfilter.sublist (List.take_sublist _ _), hmem, ?_, ?_⟩
  · intro name hnodup
    have hsub := (List.take_sublist m (sorted.filter p)).trans List.filter_sublist
    rw [htop]
    exact ((hperm.map name).nodup_iff.mpr hnodup).sublist (hsub.map name)
  · intro x hx hnot y hy
    by_cases hpx : p x
    · have hx' : x ∈ sorted.filter p := List.mem_filter.mpr ⟨hperm.symm.subset hx, hpx⟩
      exact StableSort.rel_of_mem_take hfilter (htop ▸ hy) hx' (htop ▸ hnot)
    · exact hkind y x (hmem y hy).2 hpx

/-- With room for all of them the top rows are all rows of their kind. -/
theorem top_perm {sorted : List α} (hperm : sorted.Perm rows) (p : α → Bool)
    (hroom : (rows.length : ℤ) ≤ n) :
    (History.sliceTo n (sorted.filter p)).Perm (rows.filter p) := by
  have hlen := (List.length_filter_le p sorted).trans_eq hperm.length_eq
  rw [sliceTo_of_length_le (by omega)]
  exact hperm.filter p

end Top

theorem sum_pos_add_sum_neg (vs : List ℚ) :
    (vs.filter (0 < ·)).sum + (vs.filter (· < 0)).sum = vs.sum := by
  induction vs with
  | nil => exact add_zero 0
  | cons v vs ih =>
    rcases lt_trichotomy v 0 with hv | rfl | hv
    · simp [hv, hv.not_gt, ← ih, add_left_comm]
    · simpa using ih
    · simp [hv, hv.not_gt, ← ih, add_assoc]

theorem wholeCents_sumOf {pairs : List (String × ℚ)} (h : ∀ p ∈ pairs, WholeCents p.2) (k : String) :
    WholeCents (Dict.sumOf pairs k) :=
  wholeCents_sum (List.forall_mem_map.mpr fun p hp => h p (List.mem_filter.mp hp).1)

section WholeCents
variable {a b : List (String × ℚ)} (ha : ∀ p ∈ a, WholeCents p.2) (hb : ∀ p ∈ b, WholeCents p.2)
include ha hb

theorem change_amounts {ch : Change} (hch : ch ∈ changes (fold a) (fold b)) :
    ch.valueA = Dict.sumOf a ch.key ∧ ch.valueB = Dict.sumOf b ch.key ∧
      ch.delta = Dict.sumOf b ch.key - Dict.sumOf a ch.key := by
  rw [changes_eq] at hch
  obtain ⟨k, -, rfl⟩ := List.mem_map.mp hch
  have hka := wholeCents_sumOf ha k
  have hkb := wholeCents_sumOf hb k
  exact ⟨hka.moneyRound_eq, hkb.moneyRound_eq, (hkb.sub hka).moneyRound_eq⟩

theorem sum_deltas :
    ((changes (fold a) (fold b)).map (·.delta)).sum = (b.map Prod.snd).sum - (a.map Prod.snd).sum := by
  obtain ⟨hsumA, hsumB⟩ := sum_changeKeys a b
  have hdeltas : (changes (fold a) (fold b)).map (·.delta) =
      (changeKeys a b).map fun k => Dict.sumOf b k - Dict.sumOf a k := by
    rw [changes_eq, List.map_map]
    refine List.map_congr_left fun k _ => ?_
    exact ((wholeCents_sumOf hb k).sub (wholeCents_sumOf ha k)).moneyRound_eq
  have hsplit := List.sum_map_add (l := changeKeys a b) (f := Dict.sumOf a)
    (g := fun k => Dict.sumOf b k - Dict.sumOf a k)
  simp only [add_sub_cancel] at hsplit
  rw [hdeltas]
  linarith

theorem comparison_totals (topN : ℤ) :
    (comparePeriods a b topN).totalA = (a.map Prod.snd).sum ∧
      (comparePeriods a b topN).totalB = (b.map Prod.snd).sum ∧
      (comparePeriods a b topN).delta = (b.map Prod.snd).sum - (a.map Prod.snd).sum := by
  have hsumA : WholeCents (a.map Prod.snd).sum := wholeCents_sum (List.forall_mem_map.mpr ha)
  have hsumB : WholeCents (b.map Prod.snd).sum := wholeCents_sum (List.forall_mem_map.mpr hb)
  dsimp only [comparePeriods, fold]
  rw [Dict.sum_values_tally, Dict.sum_values_tally, hsumA.moneyRound_eq, hsumB.moneyRound_eq,
    (hsumB.sub hsumA).moneyRound_eq]
  exact ⟨rfl, rfl, rfl⟩

end WholeCents

section Comparing
variable (a b : List (String × ℚ)) (topN : ℤ)

theorem changes_keys_nodup : ((changes (fold a) (fold b)).map (·.key)).Nodup := by
  rw [changes_eq, List.map_map]
  exact (List.map_id (changeKeys a b)).symm ▸ changeKeys_nodup a b

theorem topGainers_spec :
    let shown := (comparePeriods a b topN).topGainers
    shown.Pairwise (fun x y => y.delta ≤ x.delta) ∧
      (∀ ch ∈ shown, ch ∈ changes (fold a) (fold b) ∧ 0 < ch.delta) ∧
      (shown.map (·.key)).Nodup ∧
      ∀ ch ∈ changes (fold a) (fold b), ch ∉ shown → ∀ x ∈ shown, ch.delta ≤ x.delta := by
  have hkind : ∀ x y : Change, decide (0 < x.delta) → ¬ decide (0 < y.delta) →
      y.delta ≤ x.delta := by
    intro x y hx hy
    rw [decide_eq_true_eq] at hx hy
    exact (not_lt.mp hy).trans hx.le
  obtain ⟨hsorted, hmem, hnodup, hcut⟩ := top_spec
    (perm_sortedDesc (·.delta) (changes (fold a) (fold b))) (pairwise_sortedDesc _ _) hkind topN
  exact ⟨hsorted, fun ch hch => ⟨(hmem ch hch).1, of_decide_eq_true (hmem ch hch).2⟩,
    hnodup (·.key) (changes_keys_nodup a b), hcut⟩

theorem topDecliners_spec :
    let shown := (comparePeriods a b topN).topDecliners
    shown.Pairwise (fun x y => x.delta ≤ y.delta) ∧
      (∀ ch ∈ shown, ch ∈ changes (fold a) (fold b) ∧ ch.delta < 0) ∧
      (shown.map (·.key)).Nodup ∧
      ∀ ch ∈ changes (fold a) (fold b), ch ∉ shown → ∀ x ∈ shown, x.delta ≤ ch.delta := by
  have hkind : ∀ x y : Change, decide (x.delta < 0) → ¬ decide (y.delta < 0) →
      x.delta ≤ y.delta := by
    intro x y hx hy
    rw [decide_eq_true_eq] at hx hy
    exact hx.le.trans (not_lt.mp hy)
  obtain ⟨hsorted, hmem, hnodup, hcut⟩ := top_spec
    (perm_sortedAsc (·.delta) (changes (fold a) (fold b))) (pairwise_sortedAsc _ _) hkind topN
  exact ⟨hsorted, fun ch hch => ⟨(hmem ch hch).1, of_decide_eq_true (hmem ch hch).2⟩,
    hnodup (·.key) (changes_keys_nodup a b), hcut⟩

/-- With room for all keys every rise is among the gainers, every fall among the decliners. -/
theorem shown_perm (h : ((changes (fold a) (fold b)).length : ℤ) ≤ topN) :
    (comparePeriods a b topN).topGainers.Perm
        ((changes (fold a) (fold b)).filter (0 < ·.delta)) ∧
      (comparePeriods a b topN).topDecliners.Perm
        ((changes (fold a) (fold b)).filter (·.delta < 0)) :=
  ⟨top_perm (perm_sortedDesc _ _) _ h, top_perm (perm_sortedAsc _ _) _ h⟩

theorem shown_nodup :
    (((comparePeriods a b topN).topGainers ++ (comparePeriods a b topN).topDecliners).map
      (·.key)).Nodup := by
  have hnodup := changes_keys_nodup a b
  obtain ⟨-, hgain, hgainers, -⟩ := topGainers_spec a b topN
  obtain ⟨-, hdecline, hdecliners, -⟩ := topDecliners_spec a b topN
  rw [List.map_append]
  refine List.Nodup.append hgainers hdecliners ?_
  intro k hk hk'
  obtain ⟨g, hg, rfl⟩ := List.mem_map.mp hk
  obtain ⟨d, hd, heq⟩ := List.mem_map.mp hk'
  have hsame : d = g := List.inj_on_of_nodup_map hnodup (hdecline d hd).1 (hgain g hg).1 heq
  exact absurd (hdecline d hd).2 (hsame ▸ (hgain g hg).2.not_gt)

/-- With room for all keys the gainers and the decliners make up all that changed. -/
theorem sum_shown (h : ((changes (fold a) (fold b)).length : ℤ) ≤ topN) :
    ((comparePeriods a b topN).topGainers.map (·.delta)).sum +
        ((comparePeriods a b topN).topDecliners.map (·.delta)).sum =
      ((changes (fold a) (fold b)).map (·.delta)).sum := by
  obtain ⟨hgainers, hdecliners⟩ := shown_perm a b topN h
  have hsplit := sum_pos_add_sum_neg ((changes (fold a) (fold b)).map (·.delta))
  rw [List.filter_map, List.filter_map] at hsplit
  rw [(hgainers.map _).sum_eq, (hdecliners.map _).sum_eq]
  exact hsplit

end Comparing

def earlier : List (String × ℚ) := [("Чай", 10), ("Кофе", 40), ("Чай", 5)]

def later : List (String × ℚ) := [("Кофе", 25), ("Мёд", 7), ("Чай", 20)]

example : (comparePeriods earlier later 3).topGainers.map (fun ch => (ch.key, ch.delta)) =
    [("Мёд", 7), ("Чай", 5)] := by decide +kernel

end Chic.Periods
