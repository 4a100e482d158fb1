import Chic.BridgeDrivers
import Chic.StableSort

namespace Chic.Bridge
open Money

/-- The groups are walked in this order, so among equal changes they stand in it. -/
def DriverKind.place : DriverKind → ℕ
  | .common => 0
  | .new => 1
  | .discontinued => 2

section
variable (a b : Dict String ProfitProductLine)

def groupKeys : DriverKind → List String
  | .common => commonKeys a b
  | .new => onlyKeys b a
  | .discontinued => onlyKeys a b

def walk (ord : SetOrder) : List String :=
  ord.order (groupKeys a b .common) ++ ord.order (groupKeys a b .new) ++
    ord.order (groupKeys a b .discontinued)

def soldKeys : List String :=
  groupKeys a b .common ++ groupKeys a b .new ++ groupKeys a b .discontinued

def groupOf (key : String) : DriverKind :=
  if key ∈ a.keys then if key ∈ b.keys then .common else .discontinued else .new

def changeOf (key : String) : ℚ := moneyRound (gross (lineAt b key) - gross (lineAt a key))

/-- Larger changes first, equal ones by group. -/
def rank (key : String) : ℚ ×ₗ ℕ := toLex (-|changeOf a b key|, (groupOf a b key).place)

/-- Two products that a reader of the bridge cannot tell apart. -/
@[mk_iff]
structure LookAlike (k k' : String) : Prop where
  name : (if k ∈ a.keys then lineAt a k else lineAt b k).name =
    (if k' ∈ a.keys then lineAt a k' else lineAt b k').name
  soldA : (lineAt a k).sellQuantity = (lineAt a k').sellQuantity
  soldB : (lineAt b k).sellQuantity = (lineAt b k').sellQuantity
  profitA : moneyRound (gross (lineAt a k)) = moneyRound (gross (lineAt a k'))
  profitB : moneyRound (gross (lineAt b k)) = moneyRound (gross (lineAt b k'))
  change : changeOf a b k = changeOf a b k'
  effects : groupOf a b k = .common → ∀ effect ∈ [priceOf, costOf, qtyOf],
    moneyRound (effect (lineAt a k) (lineAt b k)) = moneyRound (effect (lineAt a k') (lineAt b k'))

/-- Products of one group with changes of one size look alike, or the cut is above them. -/
def TiesHidden (topN : ℤ) : Prop :=
  ∀ k ∈ soldKeys a b, ∀ k' ∈ soldKeys a b, rank a b k = rank a b k' → ¬ LookAlike a b k k' →
    0 < topN ∧ topN ≤ (soldKeys a b).countP fun p => rank a b p < rank a b k

def rowAt (key : String) : BridgeDriver :=
  match groupOf a b key with
  | .common => commonDriver (lineAt a key) (lineAt b key)
  | .new => newDriver (lineAt b key)
  | .discontinued => discDriver (lineAt a key)

end

def BridgeDriver.rank (d : BridgeDriver) : ℚ ×ₗ ℕ := toLex (-|d.delta|, d.kind.place)

section Rows
variable {a b : Dict String ProfitProductLine} {k k' : String}

theorem DriverKind.place_injective : Function.Injective DriverKind.place := by
  intro g g' h
  cases g <;> cases g' <;> first | rfl | cases h

theorem lineAt_of_notMem (h : k ∉ a.keys) : lineAt a k = ⟨k, "", "", 0, 0, 0, 0, 0, 0⟩ := by
  rw [lineAt, Dict.not_mem_keys_iff.mp h, Option.getD_none]

theorem gross_lineAt_of_notMem (h : k ∉ a.keys) : gross (lineAt a k) = 0 := by
  rw [lineAt_of_notMem h, gross, sub_zero]

theorem quantity_lineAt_of_notMem (h : k ∉ a.keys) : (lineAt a k).sellQuantity = 0 := by
  rw [lineAt_of_notMem h]

theorem groupOf_eq_common : groupOf a b k = .common ↔ k ∈ a.keys ∧ k ∈ b.keys := by
  unfold groupOf
  split_ifs with ha hb <;> simp [*]

theorem groupOf_eq_new : groupOf a b k = .new ↔ k ∉ a.keys := by
  unfold groupOf
  split_ifs with ha hb <;> simp [*]

theorem groupOf_eq_discontinued : groupOf a b k = .discontinued ↔ k ∈ a.keys ∧ k ∉ b.keys := by
  unfold groupOf
  split_ifs with ha hb <;> simp [*]

theorem groupOf_of_mem {g : DriverKind} (h : k ∈ groupKeys a b g) : groupOf a b k = g := by
  cases g with
  | common => exact groupOf_eq_common.mpr (mem_commonKeys.mp h)
  | new => exact groupOf_eq_new.mpr (mem_onlyKeys.mp h).2
  | discontinued => exact groupOf_eq_discontinued.mpr (mem_onlyKeys.mp h)

theorem mem_groupKeys_groupOf (h : k ∈ soldKeys a b) : k ∈ groupKeys a b (groupOf a b k) := by
  rw [soldKeys, List.mem_append, List.mem_append] at h
  rcases h with (h | h) | h <;> rwa [groupOf_of_mem h]

@[simp] theorem rowAt_kind : (rowAt a b k).kind = groupOf a b k := by
  unfold rowAt
  split <;> simp [commonDriver, newDriver, discDriver, absentDriver, *]

@[simp] theorem rowAt_delta : (rowAt a b k).delta = changeOf a b k := by
  unfold rowAt changeOf
  split
  · rfl
  · rename_i h
    rw [gross_lineAt_of_notMem (groupOf_eq_new.mp h), sub_zero]
    rfl
  · rename_i h
    rw [gross_lineAt_of_notMem (groupOf_eq_discontinued.mp h).2, zero_sub]
    rfl

theorem rank_rowAt : (rowAt a b k).rank = rank a b k := by
  rw [BridgeDriver.rank, rowAt_kind, rowAt_delta, rank]

theorem groupOf_of_rank (h : rank a b k = rank a b k') : groupOf a b k = groupOf a b k' :=
  DriverKind.place_injective (Prod.mk.inj (toLex_inj.mp h)).2

/-- Products of one group have the same row exactly when they look alike. -/
theorem rowAt_eq_iff (h : groupOf a b k = groupOf a b k') :
    rowAt a b k = rowAt a b k' ↔ LookAlike a b k k' := by
  cases hk : groupOf a b k with
  | common =>
    have hmem := groupOf_eq_common.mp hk
    have hmem' := groupOf_eq_common.mp (h.symm.trans hk)
    simp [rowAt, lookAlike_iff, hk, h ▸ hk, commonDriver, changeOf, hmem, hmem']
  | new =>
    have hmem := groupOf_eq_new.mp hk
    have hmem' := groupOf_eq_new.mp (h.symm.trans hk)
    simp [rowAt, lookAlike_iff, hk, h ▸ hk, newDriver, absentDriver, changeOf, hmem, hmem',
      gross_lineAt_of_notMem, quantity_lineAt_of_notMem]
  | discontinued =>
    have hmem := groupOf_eq_discontinued.mp hk
    have hmem' := groupOf_eq_discontinued.mp (h.symm.trans hk)
    simp [rowAt, lookAlike_iff, hk, h ▸ hk, discDriver, absentDriver, changeOf, hmem, hmem',
      gross_lineAt_of_notMem, quantity_lineAt_of_notMem]

end Rows

section Walk
variable {a b : Dict String ProfitProductLine} {k : String} (ord : SetOrder)

theorem walk_perm : (walk a b ord).Perm (soldKeys a b) :=
  ((ord.perm _).append (ord.perm _)).append (ord.perm _)

theorem mem_order {g : DriverKind} (h : k ∈ ord.order (groupKeys a b g)) : groupOf a b k = g :=
  groupOf_of_mem ((ord.perm _).subset h)

theorem walk_place : (walk a b ord).Pairwise fun x y =>
    (groupOf a b x).place ≤ (groupOf a b y).place := by
  have hgroup : ∀ g, (ord.order (groupKeys a b g)).Pairwise fun x y =>
      (groupOf a b x).place ≤ (groupOf a b y).place := by
    intro g
    apply List.pairwise_of_forall_mem_list
    intro x hx y hy
    rw [mem_order ord hx, mem_order ord hy]
  rw [walk, List.pairwise_append, List.pairwise_append]
  refine ⟨⟨hgroup _, hgroup _, ?_⟩, hgroup _, ?_⟩
  · intro x hx y hy
    rw [mem_order ord hx, mem_order ord hy]
    decide
  · intro x hx y hy
    rw [List.mem_append] at hx
    rw [mem_order ord hy]
    rcases hx with hx | hx <;> rw [mem_order ord hx] <;> decide

theorem filter_walk (g : DriverKind) :
    (walk a b ord).filter (fun x => groupOf a b x = g) = ord.order (groupKeys a b g) := by
  have hgroup : ∀ g', (ord.order (groupKeys a b g')).filter (fun x => groupOf a b x = g) =
      if g' = g then ord.order (groupKeys a b g') else [] := by
    intro g'
    split_ifs with hg
    · apply List.filter_eq_self.mpr
      intro x hx
      exact decide_eq_true ((mem_order ord hx).trans hg)
    · apply List.filter_eq_nil_iff.mpr
      intro x hx
      rw [mem_order ord hx, decide_eq_true_eq]
      exact hg
  rw [walk, List.filter_append, List.filter_append, hgroup, hgroup, hgroup]
  cases g <;> simp

theorem driversOf_eq_map : driversOf a b (ord.order (commonKeys a b)) (ord.order (onlyKeys b a))
    (ord.order (onlyKeys a b)) = (walk a b ord).map (rowAt a b) := by
  rw [driversOf, walk, List.map_append, List.map_append]
  congr 1
  · congr 1
    · apply List.map_congr_left
      intro x hx
      rw [rowAt, mem_order ord (g := .common) hx]
    · apply List.map_congr_left
      intro x hx
      rw [rowAt, mem_order ord (g := .new) hx]
  · apply List.map_congr_left
    intro x hx
    rw [rowAt, mem_order ord (g := .discontinued) hx]

/-- A set that happens to be enumerated from `k` on. -/
def bring (k : String) : SetOrder where
  order keys := if k ∈ keys then k :: keys.erase k else keys
  perm keys := by
    split_ifs with h
    · exact (List.perm_cons_erase h).symm
    · exact .refl _

end Walk

section Cut
variable {topN : ℤ} {e : Effects}

def shown (topN : ℤ) (count : ℕ) : ℕ := if 0 < topN then topN.toNat else count

theorem shown_le_iff {count c : ℕ} (h : c < count) :
    shown topN count ≤ c ↔ 0 < topN ∧ topN ≤ c := by
  unfold shown
  split_ifs with htop <;> omega

theorem publish_topDrivers : (publish topN e).topDrivers =
    (e.drivers.mergeSort fun x y => -|x.delta| ≤ -|y.delta|).take (shown topN e.drivers.length) := by
  simp only [publish, neg_le_neg_iff, shown]
  split_ifs with htop
  · rfl
  · rw [List.take_of_length_le (List.length_mergeSort _).le]

end Cut

section Sums
variable {a b : Dict String ProfitProductLine} {keys keys' : List String} (ord : SetOrder)

theorem commonSums_perm (h : keys.Perm keys') : commonSums a b keys =
    { commonSums a b keys' with
      drivers := keys.map fun k => commonDriver (lineAt a k) (lineAt b k) } := by
  simp only [commonSums, (h.map _).sum_eq]

/-- Only the order of the drivers depends on how the key sets are enumerated. -/
theorem effectsOf_order :
    effectsOf a b (ord.order (commonKeys a b)) (ord.order (onlyKeys b a))
        (ord.order (onlyKeys a b)) =
      { effectsOf a b (commonKeys a b) (onlyKeys b a) (onlyKeys a b) with
        drivers := (walk a b ord).map (rowAt a b) } := by
  rw [← driversOf_eq_map]
  simp only [effectsOf, commonSums_perm (ord.perm (commonKeys a b)),
    ((ord.perm (onlyKeys b a)).map _).sum_eq, ((ord.perm (onlyKeys a b)).map _).sum_eq,
    (ord.perm _).length_eq]
  rfl

end Sums

section Ranking
variable (a b : Dict String ProfitProductLine) (topN : ℤ) (ord : SetOrder)

def ranking : List BridgeDriver :=
  ((walk a b ord).map (rowAt a b)).mergeSort fun x y => -|x.delta| ≤ -|y.delta|

def topRows : List BridgeDriver := (ranking a b ord).take (shown topN (soldKeys a b).length)

variable {a b topN ord}

theorem ranking_perm : (ranking a b ord).Perm ((soldKeys a b).map (rowAt a b)) :=
  (List.mergeSort_perm _ _).trans ((walk_perm ord).map _)

theorem ranking_pairwise : (ranking a b ord).Pairwise fun x y => x.rank ≤ y.rank := by
  apply StableSort.pairwise_mergeSort_lex
  rw [List.pairwise_map]
  simpa using walk_place ord

theorem countP_ranking (k : String) :
    (ranking a b ord).countP (fun d => d.rank < (rowAt a b k).rank) =
      (soldKeys a b).countP fun p => rank a b p < rank a b k := by
  rw [ranking_perm.countP_eq, List.countP_map]
  simp only [rank_rowAt, Function.comp_def]

theorem rank_eq_iff {x y : BridgeDriver} :
    x.rank = y.rank ↔ -|x.delta| = -|y.delta| ∧ x.kind = y.kind := by
  rw [BridgeDriver.rank, BridgeDriver.rank, toLex_inj, Prod.mk_inj,
    DriverKind.place_injective.eq_iff]

theorem filter_rows (g : DriverKind) :
    ((walk a b ord).map (rowAt a b)).filter (fun d => d.kind = g) =
      (ord.order (groupKeys a b g)).map (rowAt a b) := by
  rw [← filter_walk, List.filter_map]
  simp only [Function.comp_def, rowAt_kind]

/-- The rows of one rank, in the order their products are enumerated. -/
theorem filter_ranking (k : String) :
    (ranking a b ord).filter (fun d => d.rank = (rowAt a b k).rank) =
      ((ord.order (groupKeys a b (groupOf a b k))).map (rowAt a b)).filter
        fun d => -|d.delta| = -|(rowAt a b k).delta| := by
  calc (ranking a b ord).filter (fun d => d.rank = (rowAt a b k).rank)
    _ = ((ranking a b ord).filter fun d => -|d.delta| = -|(rowAt a b k).delta|).filter
        fun d => d.kind = groupOf a b k := by
      rw [List.filter_filter]
      apply List.filter_congr
      intro d _
      rw [Bool.eq_iff_iff]
      simp [rank_eq_iff, and_comm]
    _ = (((walk a b ord).map (rowAt a b)).filter
          fun d => -|d.delta| = -|(rowAt a b k).delta|).filter fun d => d.kind = groupOf a b k := by
      rw [ranking, StableSort.filter_mergeSort_key]
    _ = _ := by
      rw [List.filter_filter, ← filter_rows, List.filter_filter]
      apply List.filter_congr
      intro d _
      exact Bool.and_comm _ _

/-- Among the rows of its rank, a product enumerated first comes first. -/
theorem ranking_bring {k : String} (h : k ∈ soldKeys a b) :
    (ranking a b (bring k))[(soldKeys a b).countP fun p => rank a b p < rank a b k]? =
      some (rowAt a b k) := by
  have hfirst : (bring k).order (groupKeys a b (groupOf a b k)) =
      k :: (groupKeys a b (groupOf a b k)).erase k := if_pos (mem_groupKeys_groupOf h)
  rw [← (countP_ranking k : (ranking a b (bring k)).countP _ = _)]
  apply StableSort.getElem?_countP_lt ranking_pairwise
  rw [filter_ranking, hfirst, List.map_cons, List.filter_cons_of_pos (by simp), List.head?_cons]

/-- The rows shown do not depend on the enumeration exactly when ties are hidden. -/
theorem topRows_eq_iff :
    (∀ ord ord', topRows a b topN ord = topRows a b topN ord') ↔ TiesHidden a b topN := by
  have hcount : ∀ k ∈ soldKeys a b,
      (soldKeys a b).countP (fun p => rank a b p < rank a b k) < (soldKeys a b).length := by
    intro k hk
    apply lt_of_le_of_ne List.countP_le_length
    intro hall
    exact lt_irrefl _ (of_decide_eq_true (List.countP_eq_length.mp hall k hk))
  constructor
  · intro h k hk k' hk' hrank hlook
    rw [← shown_le_iff (hcount k hk)]
    by_contra hcut
    -- each of the two takes the same place when it is enumerated first
    have hrows := congrArg (·[(soldKeys a b).countP fun p => rank a b p < rank a b k]?)
      (h (bring k) (bring k'))
    dsimp only [topRows] at hrows
    rw [List.getElem?_take_of_lt (not_le.mp hcut), List.getElem?_take_of_lt (not_le.mp hcut),
      ranking_bring hk, hrank, ranking_bring hk', Option.some_inj] at hrows
    exact hlook ((rowAt_eq_iff (groupOf_of_rank hrank)).mp hrows)
  · intro h ord ord'
    apply StableSort.take_eq_take (ranking_perm.trans ranking_perm.symm) ranking_pairwise
      ranking_pairwise
    intro x hx y hy hrank hne
    obtain ⟨k, hk, rfl⟩ := List.mem_map.mp (ranking_perm.subset hx)
    obtain ⟨k', hk', rfl⟩ := List.mem_map.mp (ranking_perm.subset hy)
    rw [rank_rowAt, rank_rowAt] at hrank
    rw [countP_ranking, shown_le_iff (hcount k hk)]
    apply h k hk k' hk' hrank
    intro hlook
    exact hne ((rowAt_eq_iff (groupOf_of_rank hrank)).mpr hlook)

theorem topRows_bring_one {k : String} (h : k ∈ soldKeys a b)
    (htop : (soldKeys a b).countP (fun p => rank a b p < rank a b k) = 0) :
    topRows a b 1 (bring k) = [rowAt a b k] := by
  have hfirst := ranking_bring h
  rw [htop, ← List.head?_eq_getElem?] at hfirst
  rw [topRows, shown, if_pos one_pos, Int.toNat_one, List.take_one, hfirst, Option.toList_some]

theorem publish_walk (e : Effects) :
    (publish topN { e with drivers := (walk a b ord).map (rowAt a b) }).topDrivers =
      topRows a b topN ord := by
  rw [publish_topDrivers, List.length_map, (walk_perm ord).length_eq, topRows, ranking]

end Ranking

/-- The enumeration decides the rows shown and nothing else. -/
theorem profitBridge_eq_topRows (ord : SetOrder) (aLines bLines : List ProfitProductLine)
    (topN : ℤ) : profitBridge ord aLines bLines topN = some
      { publish topN (effectsOf (byId aLines) (byId bLines)
          (commonKeys (byId aLines) (byId bLines)) (onlyKeys (byId bLines) (byId aLines))
          (onlyKeys (byId aLines) (byId bLines))) with
        topDrivers := topRows (byId aLines) (byId bLines) topN ord } := by
  rw [profitBridge_eq, effectsOf_order, ← publish_walk]
  rfl

/-- The bridge is the same in every process exactly when the ties it shows look alike. -/
theorem orderIndependent_iff (aLines bLines : List ProfitProductLine) (topN : ℤ) :
    (∀ ord ord', profitBridge ord aLines bLines topN = profitBridge ord' aLines bLines topN) ↔
      TiesHidden (byId aLines) (byId bLines) topN := by
  rw [← topRows_eq_iff]
  simp only [profitBridge_eq_topRows, Option.some_inj, ProfitBridge.mk.injEq, true_and]

def newLine (name : String) : ProfitProductLine := ⟨name, name, "", 1, 10, 4, 0, 6, 60⟩

/-- Two new products that earned the same: which of them is the top one depends on the process. -/
theorem tiedTeaCoffee_differ :
    (profitBridge (bring "чай") [] [newLine "чай", newLine "кофе"] 1).map
        (fun r => r.topDrivers.map (·.name)) = some ["чай"] ∧
    (profitBridge (bring "кофе") [] [newLine "чай", newLine "кофе"] 1).map
        (fun r => r.topDrivers.map (·.name)) = some ["кофе"] ∧
    ¬ ∀ ord ord', profitBridge ord [] [newLine "чай", newLine "кофе"] 1 =
      profitBridge ord' [] [newLine "чай", newLine "кофе"] 1 := by
  have htea : (profitBridge (bring "чай") [] [newLine "чай", newLine "кофе"] 1).map
      (fun r => r.topDrivers.map (·.name)) = some ["чай"] := by
    rw [profitBridge_eq_topRows, topRows_bring_one (by decide +kernel) (by decide +kernel)]
    decide +kernel
  have hcoffee : (profitBridge (bring "кофе") [] [newLine "чай", newLine "кофе"] 1).map
      (fun r => r.topDrivers.map (·.name)) = some ["кофе"] := by
    rw [profitBridge_eq_topRows, topRows_bring_one (by decide +kernel) (by decide +kernel)]
    decide +kernel
  refine ⟨htea, hcoffee, fun h => ?_⟩
  rw [h (bring "чай") (bring "кофе"), hcoffee] at htea
  exact absurd htea (by decide)

end Chic.Bridge
