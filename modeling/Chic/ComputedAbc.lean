import Chic.Computed
import Chic.MatrixLaws

namespace Chic.Computed
open Arithmetic Binary64 Olap Xyz

section
variable (ar : Arithmetic)

/-- A number over the total: nothing over an infinite one, an error over zero. -/
def shareOf (x : ℚ) : Option ℚ → Option ℚ
  | none => some 0
  | some total => if total = 0 then none else ar.double (x / total)

def percent (ratio : ℚ) : Option ℚ := (ar.double (ratio * 100)).bind (round2 ar)

/-- The loop of `abc`: `total` is `none` where it is infinite; an infinite value or running sum has
no share that could be rounded. -/
def abcRank (aCut bCut : ℚ) (total : Option ℚ) : ℚ → List (String × ℚ) → Option (List ABCItem)
  | _, [] => some []
  | cum, (name, value) :: rest =>
    if 0 < value ∧ ar.double value ≠ some 0 then do
      let v ← ar.double value
      let share ← (shareOf ar v total).bind (percent ar)
      let cum ← ar.double (cum + v)
      let ratio ← shareOf ar cum total
      let cumulativeShare ← percent ar ratio
      let items ← abcRank aCut bCut total cum rest
      return {
        name, value, share, cumulativeShare
        abcClass := if ratio ≤ aCut then .A else if ratio ≤ bCut then .B else .C } :: items
    else do
      let items ← abcRank aCut bCut total cum rest
      return { name, value, cumulativeShare := 100, abcClass := .C } :: items

def abcCuts (aCut bCut : ℚ) : ℚ × ℚ :=
  let a := if aCut ≤ 0 ∨ 1 ≤ aCut then ar.float (8 / 10) else aCut
  let b := if bCut ≤ a ∨ 1 ≤ bCut then ar.float (95 / 100) else bCut
  (a, b)

/-- The total of the values that count, from the largest down. -/
def abcTotal (pairs : List (String × ℚ)) : ℚ :=
  total ar (((sortedDesc Prod.snd pairs).map Prod.snd).filter (0 < ·))

def abc (pairs : List (String × ℚ)) (aCut bCut : ℚ) : Option (List ABCItem) :=
  let (a, b) := abcCuts ar aCut bCut
  abcRank ar a b (ar.double (abcTotal ar pairs)) 0 (sortedDesc Prod.snd pairs)

def ranking (abcPairs : List (String × String × ℚ)) : Option (List ABCItem) :=
  abc ar (abcPairs.map fun pair => (pair.1, pair.2.2)) (ar.float (8 / 10)) (ar.float (95 / 100))

def abcXyzMatrix (abcPairs : List (String × String × ℚ)) (stats : List DemandStats)
    (p : XyzParams) (limit : ℤ) : Option ABCXYZMatrix :=
  (ranking ar abcPairs).map fun ranked => matrixOf ranked abcPairs stats p limit

end

section Exact
variable {aCut bCut total cum : ℚ} {pairs : List (String × ℚ)}

theorem percent_exact (ratio : ℚ) : percent exact ratio = some (Money.round2 (ratio * 100)) :=
  round2_exact _

theorem abcRank_exact (htotal : ∀ p ∈ pairs, 0 < p.2 → 0 < total) :
    abcRank exact aCut bCut (some total) cum pairs = some (Chic.abcRank aCut bCut total cum pairs) := by
  induction pairs generalizing cum with
  | nil => rfl
  | cons pair pairs ih =>
    obtain ⟨name, v⟩ := pair
    obtain ⟨hpair, hpairs⟩ := List.forall_mem_cons.mp htotal
    rw [abcRank, Chic.abcRank]
    by_cases hv : 0 < v
    · have hne : exact.double v ≠ some 0 := fun h => hv.ne' (Option.some_inj.mp h)
      have hshare : ∀ x, shareOf exact x (some total) = some (x / total) := fun x =>
        if_neg (hpair hv).ne'
      have hcounts : 0 < total ∧ 0 < v := ⟨hpair hv, hv⟩
      have hdouble : ∀ x, exact.double x = some x := fun x => rfl
      simp only [if_pos (And.intro hv hne), if_pos hcounts, if_neg hv.not_ge, hshare, percent_exact]
      simp only [hdouble, Option.bind_eq_bind, Option.bind_some, ih hpairs]
      rfl
    · have hnot : ¬ (0 < v ∧ exact.double v ≠ some 0) := fun h => hv h.1
      have hcounts : ¬ (0 < total ∧ 0 < v) := fun h => hv h.2
      simp only [if_neg hnot, if_neg hcounts, if_pos (not_lt.mp hv), ih hpairs]
      rfl

/-- In exact arithmetic nothing raises, and the shares are those of exact ratios. -/
theorem abc_exact (pairs : List (String × ℚ)) (aCut bCut : ℚ) :
    abc exact pairs aCut bCut = some (Chic.abc pairs aCut bCut) := by
  have htotal : abcTotal exact pairs = (((sortedDesc Prod.snd pairs).map Prod.snd).filter (0 < ·)).sum :=
    total_exact _
  dsimp only [abc, Chic.abc]
  rw [htotal]
  refine abcRank_exact fun p hp hv => ?_
  refine List.sum_pos _ (fun x hx => of_decide_eq_true (List.mem_filter.mp hx).2) ?_
  exact List.ne_nil_of_mem (List.mem_filter.mpr ⟨List.mem_map_of_mem hp, decide_eq_true hv⟩)

end Exact

section Loop
variable {ar : Arithmetic} {aCut bCut cum value : ℚ} {total : Option ℚ} {name : String}
  {pairs : List (String × ℚ)} {items : List ABCItem}

theorem abcRank_cons (h : abcRank ar aCut bCut total cum ((name, value) :: pairs) = some items) :
    ∃ item rest cum', items = item :: rest ∧ abcRank ar aCut bCut total cum' pairs = some rest ∧
      item.name = name ∧ item.value = value ∧
      if 0 < value ∧ ar.double value ≠ some 0 then
        ∃ v ratio, ar.double value = some v ∧ ar.double (cum + v) = some cum' ∧
          shareOf ar cum' total = some ratio ∧
          item.abcClass = if ratio ≤ aCut then .A else if ratio ≤ bCut then .B else .C
      else cum' = cum ∧ item.abcClass = .C := by
  rw [abcRank] at h
  split_ifs at h with hcounts
  · obtain ⟨v, hv, h⟩ := Option.bind_eq_some_iff.mp h
    obtain ⟨share, -, h⟩ := Option.bind_eq_some_iff.mp h
    obtain ⟨cum', hcum, h⟩ := Option.bind_eq_some_iff.mp h
    obtain ⟨ratio, hratio, h⟩ := Option.bind_eq_some_iff.mp h
    obtain ⟨cumulativeShare, -, h⟩ := Option.bind_eq_some_iff.mp h
    obtain ⟨rest, hrest, h⟩ := Option.bind_eq_some_iff.mp h
    obtain rfl := Option.some_inj.mp h
    refine ⟨_, rest, cum', rfl, hrest, rfl, rfl, ?_⟩
    rw [if_pos hcounts]
    exact ⟨v, ratio, hv, hcum, hratio, rfl⟩
  · obtain ⟨rest, hrest, h⟩ := Option.bind_eq_some_iff.mp h
    obtain rfl := Option.some_inj.mp h
    refine ⟨_, rest, cum, rfl, hrest, rfl, rfl, ?_⟩
    rw [if_neg hcounts]
    exact ⟨rfl, rfl⟩

theorem abcRank_pairs (h : abcRank ar aCut bCut total cum pairs = some items) :
    items.map (fun it => (it.name, it.value)) = pairs := by
  induction pairs generalizing cum items with
  | nil =>
    obtain rfl := Option.some_inj.mp h
    rfl
  | cons pair pairs ih =>
    obtain ⟨name, value⟩ := pair
    obtain ⟨item, rest, cum', rfl, hrest, rfl, rfl, -⟩ := abcRank_cons h
    rw [List.map_cons, ih hrest]

end Loop

section Python
variable {x v cum t S ratio aCut bCut : ℚ} {pairs : List (String × ℚ)} {vs : List ℚ}

/-- Rounding takes off less than a digit. -/
theorem div_ten_le_decimal (hx : 0 ≤ x) : x / 10 ≤ python.decimal x := by
  rcases hx.eq_or_lt with rfl | hx
  · rw [zero_div]
    exact (Decimal.roundTo_zero 28).ge
  · refine le_trans ?_ (Decimal.zpow_log_le_roundTo (by norm_num) hx)
    have hnext := Int.lt_zpow_succ_log_self (b := 10) (by norm_num) x
    rw [zpow_add_one₀ (by norm_num)] at hnext
    push_cast at hnext
    linarith

theorem decimal_nonneg (hx : 0 ≤ x) : 0 ≤ python.decimal x :=
  (div_nonneg hx (by norm_num)).trans (div_ten_le_decimal hx)

theorem total_nonneg (hvs : ∀ v ∈ vs, 0 ≤ v) : 0 ≤ total python vs := by
  have hfrom : ∀ x, 0 ≤ x → 0 ≤ vs.foldl (fun t v => python.decimal (t + v)) x := by
    induction vs with
    | nil => exact fun x hx => hx
    | cons v vs ih =>
      obtain ⟨hv, hvs⟩ := List.forall_mem_cons.mp hvs
      exact fun x hx => ih hvs _ (decimal_nonneg (add_nonneg hx hv))
  exact hfrom 0 le_rfl

/-- A total is not much less than its last summand. -/
theorem le_total {low : ℚ} (hlow : 0 < low) (hvs : ∀ v ∈ vs, low ≤ v) (hne : vs ≠ []) :
    low / 10 ≤ total python vs := by
  have hfrom : ∀ x, 0 ≤ x → low / 10 ≤ vs.foldl (fun t v => python.decimal (t + v)) x := by
    induction vs with
    | nil => exact absurd rfl hne
    | cons v vs ih =>
      obtain ⟨hv, hvs⟩ := List.forall_mem_cons.mp hvs
      intro x hx
      rw [List.foldl_cons]
      have hsum : 0 ≤ x + v := by linarith
      rcases eq_or_ne vs [] with rfl | hrest
      · refine le_trans ?_ (div_ten_le_decimal hsum)
        linarith
      · exact ih hvs hrest _ (decimal_nonneg hsum)
  exact hfrom 0 le_rfl

theorem percent_isSome (h0 : 0 ≤ ratio) (h : ratio ≤ 2 ^ 237) : ∃ r, percent python ratio = some r := by
  have hgrow : ∀ {x : ℚ} {n : ℕ}, x ≤ 2 ^ n → x * 100 ≤ 2 ^ (n + 7) := by
    intro x n hx
    rw [pow_add]
    linarith [pow_nonneg (two_pos (α := ℚ)).le n]
  obtain ⟨pct, hpct, hpct0, hpctLe⟩ := exists_ofRat_le (by norm_num) (by linarith) (hgrow h)
  obtain ⟨x, hx, hx0, hxLe⟩ := exists_ofRat_le (by norm_num) (by linarith) (hgrow hpctLe)
  have hxLe : x ≤ 2 ^ 251 := hxLe
  have hhalf : x + 1 / 2 ≤ 2 ^ 252 := by
    have hone : (1 : ℚ) ≤ 2 ^ 251 := one_le_pow₀ one_le_two
    have hdouble : (2 : ℚ) ^ 252 = 2 ^ 251 * 2 := pow_succ _ 251
    linarith
  obtain ⟨y, hy, hy0, hyLe⟩ := exists_ofRat_le (by norm_num) (by linarith) hhalf
  have hround : roundHalfAway python x = some ⌊y⌋ := by
    rw [roundHalfAway, if_pos hx0]
    show (ofRat (x + 1 / 2)).map _ = _
    rw [hy, Option.map_some]
  have hn : (0 : ℚ) ≤ ⌊y⌋ := by exact_mod_cast Int.floor_nonneg.mpr hy0
  have hnLe : (⌊y⌋ : ℚ) / 100 ≤ 2 ^ 252 := by linarith [Int.floor_le y]
  obtain ⟨r, hr, -, -⟩ := exists_ofRat_le (by norm_num) (by linarith) hnLe
  refine ⟨r, ?_⟩
  show (ofRat (ratio * 100)).bind (round2 python) = _
  rw [hpct, Option.bind_some]
  show (ofRat (pct * 100)).bind _ = _
  rw [hx, Option.bind_some, hround]
  exact hr

theorem shareOf_isSome {total : Option ℚ} (htotal : ∀ t, total = some t → 1 / 2 ^ 94 ≤ t)
    (h0 : 0 ≤ x) (h : x ≤ 2 ^ 143) :
    ∃ ratio, shareOf python x total = some ratio ∧ 0 ≤ ratio ∧ ratio ≤ 2 ^ 237 := by
  cases total with
  | none => exact ⟨0, rfl, le_rfl, by positivity⟩
  | some t =>
    have ht := htotal t rfl
    have htpos : 0 < t := lt_of_lt_of_le (by positivity) ht
    rw [shareOf, if_neg htpos.ne']
    refine exists_ofRat_le (by norm_num) (div_nonneg h0 htpos.le) ?_
    rw [div_le_iff₀ htpos]
    refine h.trans ?_
    norm_num at ht ⊢
    linarith

/-- The running sums are no more than values of the largest size would make. -/
theorem runningSum_le {k : ℕ} (hk : k < 2 ^ 53) (hcum0 : 0 ≤ cum) (hcum : cum ≤ k * 2 ^ 90)
    (hv0 : 0 ≤ v) (hv : v ≤ 2 ^ 90) :
    ∃ cum', python.double (cum + v) = some cum' ∧ 0 ≤ cum' ∧ cum' ≤ (k + 1 : ℕ) * 2 ^ 90 := by
  have hsum : cum + v ≤ (k + 1 : ℕ) * 2 ^ 90 := by
    push_cast
    linarith
  have hbound : ((k + 1 : ℕ) : ℚ) * 2 ^ 90 ≤ 2 ^ 143 := by
    have hk' : ((k + 1 : ℕ) : ℚ) ≤ 2 ^ 53 := by exact_mod_cast hk
    linarith
  obtain ⟨cum', hcum', hcum0, -⟩ :=
    exists_ofRat_le (by norm_num) (add_nonneg hcum0 hv0) (hsum.trans hbound)
  refine ⟨cum', hcum', hcum0, ?_⟩
  obtain ⟨-, rfl⟩ := ofRat_eq_some_iff.mp hcum'
  refine (nearest_mono hsum).trans_eq ?_
  have hself := nearest_eq_self (m := (k + 1 : ℕ)) (k := 90) (by rw [Nat.abs_cast]; omega) (by norm_num)
  exact_mod_cast hself

/-- With values of moderate size nothing on the way is infinite; `k` of them have been added up. -/
theorem abcRank_isSome {total : Option ℚ} {k : ℕ} (hk : k + pairs.length ≤ 2 ^ 53)
    (htotal : ∀ p ∈ pairs, 0 < p.2 → ∀ t, total = some t → 1 / 2 ^ 94 ≤ t)
    (hvalues : ∀ p ∈ pairs, p.2 ≤ 0 ∨ 1 / 2 ^ 90 ≤ p.2 ∧ p.2 ≤ 2 ^ 90)
    (hcum0 : 0 ≤ cum) (hcum : cum ≤ k * 2 ^ 90) :
    ∃ items, abcRank python aCut bCut total cum pairs = some items := by
  -- over the pairs, with a bound on the running sum that grows by a value each time
  induction pairs generalizing k cum with
  | nil => exact ⟨[], rfl⟩
  | cons pair pairs ih =>
    obtain ⟨name, value⟩ := pair
    obtain ⟨hvalue, hvalues⟩ := List.forall_mem_cons.mp hvalues
    obtain ⟨htotal, htotals⟩ := List.forall_mem_cons.mp htotal
    rw [List.length_cons] at hk
    rw [abcRank]
    split_ifs with hcounts
    · have hsize : value ≤ 2 ^ 90 := (hvalue.resolve_left hcounts.1.not_ge).2
      obtain ⟨v, hv, hv0, hvLe⟩ := exists_ofRat_le (by norm_num) hcounts.1.le hsize
      have hv : python.double value = some v := hv
      obtain ⟨cum', hcum', hcum0', hcumLe⟩ := runningSum_le (by omega) hcum0 hcum hv0 hvLe
      have hcumBound : cum' ≤ 2 ^ 143 := by
        have hk' : ((k + 1 : ℕ) : ℚ) ≤ 2 ^ 53 := by exact_mod_cast (by omega : k + 1 ≤ 2 ^ 53)
        linarith
      obtain ⟨ratio, hratio, hratio0, hratioLe⟩ := shareOf_isSome (htotal hcounts.1) hcum0' hcumBound
      obtain ⟨own, hown, hown0, hownLe⟩ := shareOf_isSome (htotal hcounts.1) hv0 (hvLe.trans (by norm_num))
      obtain ⟨share, hshare⟩ := percent_isSome hown0 hownLe
      obtain ⟨cumulativeShare, hcumulative⟩ := percent_isSome hratio0 hratioLe
      obtain ⟨rest, hrest⟩ := ih (k := k + 1) (by omega) htotals hvalues hcum0' hcumLe
      simp only [hv, Option.bind_eq_bind, Option.bind_some, hown, hshare, hcum', hratio, hcumulative,
        hrest]
      exact ⟨_, rfl⟩
    · obtain ⟨rest, hrest⟩ := ih (k := k) (by omega) htotals hvalues hcum0 hcum
      rw [hrest]
      exact ⟨_, rfl⟩

/-- At most `2 ^ 53` pairs whose positive values are neither tiny nor huge. -/
def Moderate (pairs : List (String × ℚ)) : Prop :=
  pairs.length ≤ 2 ^ 53 ∧ ∀ p ∈ pairs, p.2 ≤ 0 ∨ 1 / 2 ^ 90 ≤ p.2 ∧ p.2 ≤ 2 ^ 90

theorem abcTotal_nonneg (pairs : List (String × ℚ)) : 0 ≤ abcTotal python pairs :=
  total_nonneg fun _ hv => (of_decide_eq_true (List.mem_filter.mp hv).2).le

theorem abc_isSome (h : Moderate pairs) (aCut bCut : ℚ) : (abc python pairs aCut bCut).isSome := by
  have hperm := perm_sortedDesc Prod.snd pairs
  have hvalues : ∀ p ∈ sortedDesc Prod.snd pairs, p.2 ≤ 0 ∨ 1 / 2 ^ 90 ≤ p.2 ∧ p.2 ≤ 2 ^ 90 :=
    fun p hp => h.2 p (hperm.subset hp)
  -- the total is at least a tenth of its smallest summand
  have htotal : ∀ p ∈ sortedDesc Prod.snd pairs, 0 < p.2 →
      ∀ t, python.double (abcTotal python pairs) = some t → 1 / 2 ^ 94 ≤ t := by
    intro p hp hpos t ht
    have hlow : (1 / 2 ^ 90 : ℚ) / 10 ≤ abcTotal python pairs := by
      refine le_total (by positivity) (fun v hv => ?_) ?_
      · obtain ⟨hv, hpos⟩ := List.mem_filter.mp hv
        obtain ⟨q, hq, rfl⟩ := List.mem_map.mp hv
        exact ((hvalues q hq).resolve_left (of_decide_eq_true hpos).not_ge).1
      · exact List.ne_nil_of_mem
          (List.mem_filter.mpr ⟨List.mem_map_of_mem hp, decide_eq_true hpos⟩)
    obtain ⟨-, rfl⟩ := ofRat_eq_some_iff.mp ht
    have hpow : (2 : ℚ) ^ (-94 : ℤ) ≤ abcTotal python pairs := by
      norm_num at hlow ⊢
      linarith
    have hnearest := two_zpow_le_nearest_of_le (by norm_num) hpow
    norm_num at hnearest ⊢
    exact hnearest
  have hlength : 0 + (sortedDesc Prod.snd pairs).length ≤ 2 ^ 53 := by
    rw [zero_add, hperm.length_eq]
    exact h.1
  apply Option.isSome_iff_exists.mpr
  exact abcRank_isSome hlength htotal hvalues le_rfl (by simp)

end Python

end Chic.Computed
