import Mathlib.Algebra.BigOperators.Group.Finset.Basic
import Mathlib.Algebra.BigOperators.Ring.Finset
import Mathlib.Algebra.Order.Field.Rat
import Mathlib.Tactic.FieldSimp
import Chic.Olap

namespace Chic.Olap

section Definition
variable {δ : Type*} [LinearOrder δ] (demand : List (DemandDay δ))

def saleDates : Finset δ := (demand.map (·.snapshotDate)).toFinset

def spineDates (first : δ) : Finset δ := (saleDates demand).filter (first ≤ ·)

/-- What a product sold on a date: 0 without a row. -/
def quantityOn (href : String) (d : δ) : ℚ :=
  ((demand.filter fun r => r.productHref = href ∧ r.snapshotDate = d).map (·.sellQuantity)).sum

def totalQuantity (href : String) : ℚ :=
  ((demand.filter fun r => r.productHref = href).map (·.sellQuantity)).sum

def seriesVariance (dates : Finset δ) (qty : δ → ℚ) : ℚ :=
  (∑ d ∈ dates, (qty d - (∑ d ∈ dates, qty d) / dates.card) ^ 2) / dates.card

structure IsFirst (href : String) (r : DemandDay δ) : Prop where
  mem : r ∈ demand
  product : r.productHref = href
  le : ∀ r' ∈ demand, r'.productHref = href → r.snapshotDate ≤ r'.snapshotDate

structure IsLatest (href : String) (r : DemandDay δ) : Prop where
  mem : r ∈ demand
  product : r.productHref = href
  le : ∀ r' ∈ demand, r'.productHref = href → r'.snapshotDate ≤ r.snapshotDate

/-- What the statistics of a product are by definition, its series going over the sale dates
from its first one on. -/
structure Describes (sqrt : ℚ → ℚ) (first last : DemandDay δ) (s : DemandStats) : Prop where
  isFirst : IsFirst demand s.productHref first
  isLatest : IsLatest demand s.productHref last
  name : s.name = last.name
  code : s.code = last.code
  days : s.days = (spineDates demand first.snapshotDate).card
  mean : s.meanDemand * s.days = totalQuantity demand s.productHref
  variance : s.stdDemand = sqrt
    (seriesVariance (spineDates demand first.snapshotDate) (quantityOn demand s.productHref))

/-- A product sells at most once a day. -/
def UniqueRows : Prop := (demand.map fun r => (r.snapshotDate, r.productHref)).Nodup

end Definition

section
variable {δ : Type*} [LinearOrder δ] {demand demand' : List (DemandDay δ)}

theorem mem_spineDates {first d : δ} :
    d ∈ spineDates demand first ↔ (∃ r ∈ demand, r.snapshotDate = d) ∧ first ≤ d := by
  rw [spineDates, Finset.mem_filter, saleDates, List.mem_toFinset, List.mem_map]

theorem IsFirst.date_eq {href : String} {r r' : DemandDay δ} (h : IsFirst demand href r)
    (h' : IsFirst demand href r') : r.snapshotDate = r'.snapshotDate :=
  le_antisymm (h.le r' h'.mem h'.product) (h'.le r h.mem h.product)

/-- The sums over the days of a spine that has all the rows put together. -/
theorem sum_over_dates {dates : Finset δ} {rows : List (DemandDay δ)}
    (h : ∀ r ∈ rows, r.snapshotDate ∈ dates) :
    ∑ d ∈ dates, ((rows.filter fun r => r.snapshotDate = d).map (·.sellQuantity)).sum =
      (rows.map (·.sellQuantity)).sum := by
  induction rows with
  | nil => simp
  | cons r rows ih =>
    have hcons : ∀ d, (((r :: rows).filter fun r => r.snapshotDate = d).map (·.sellQuantity)).sum =
        (if r.snapshotDate = d then r.sellQuantity else 0) +
          ((rows.filter fun r => r.snapshotDate = d).map (·.sellQuantity)).sum := by
      intro d
      by_cases hd : r.snapshotDate = d
      · simp [hd]
      · simp [hd]
    have hr := h r List.mem_cons_self
    have hrows := fun r' hr' => h r' (List.mem_cons_of_mem r hr')
    rw [Finset.sum_congr rfl fun d _ => hcons d, Finset.sum_add_distrib, ih hrows,
      Finset.sum_ite_eq, if_pos hr, List.map_cons, List.sum_cons]

theorem sum_quantityOn {href : String} {first : DemandDay δ} (hfirst : IsFirst demand href first) :
    ∑ d ∈ spineDates demand first.snapshotDate, quantityOn demand href d =
      totalQuantity demand href := by
  have hspine : ∀ r ∈ demand.filter fun r => r.productHref = href,
      r.snapshotDate ∈ spineDates demand first.snapshotDate := by
    intro r hr
    obtain ⟨hmem, hhref⟩ := List.mem_filter.mp hr
    exact mem_spineDates.mpr ⟨⟨r, hmem, rfl⟩, hfirst.le r hmem (by simpa using hhref)⟩
  rw [totalQuantity, ← sum_over_dates hspine]
  apply Finset.sum_congr rfl
  intro d _
  rw [quantityOn, List.filter_filter]
  congr 3
  funext r
  simp [and_comm]

theorem length_rows_le_one (huniq : UniqueRows demand) (href : String) (d : δ) :
    (demand.filter fun r => r.productHref = href ∧ r.snapshotDate = d).length ≤ 1 := by
  let rows := demand.filter fun r => r.productHref = href ∧ r.snapshotDate = d
  have hsub : (rows.map fun r => (r.snapshotDate, r.productHref)).Sublist
      (demand.map fun r => (r.snapshotDate, r.productHref)) := List.filter_sublist.map _
  have hall : ∀ k ∈ rows.map fun r => (r.snapshotDate, r.productHref), k = (d, href) := by
    intro k hk
    obtain ⟨r, hr, rfl⟩ := List.mem_map.mp hk
    have hr := (List.mem_filter.mp hr).2
    simp only [decide_eq_true_eq] at hr
    rw [hr.1, hr.2]
  have hnodup := List.Nodup.sublist hsub huniq
  rw [List.eq_replicate_of_mem hall, List.length_map, List.nodup_replicate] at hnodup
  exact hnodup

theorem joined_eq (huniq : UniqueRows demand) (href : String) (d : δ) :
    joined demand href d = [quantityOn demand href d] := by
  unfold joined quantityOn
  rcases Nat.le_one_iff_eq_zero_or_eq_one.mp (length_rows_le_one huniq href d) with h | h
  · rw [List.length_eq_zero_iff.mp h]
    rfl
  · obtain ⟨r, hr⟩ := List.length_eq_one_iff.mp h
    rw [hr]
    simp

section
variable {f : FirstSeen δ}

theorem filled_eq (huniq : UniqueRows demand) :
    filled demand f = (spine demand f).map (quantityOn demand f.productHref) := by
  unfold filled
  rw [List.flatMap_congr fun d _ => joined_eq huniq f.productHref d, ← List.map_eq_flatMap]

theorem spine_nodup : (spine demand f).Nodup := (List.nodup_dedup _).filter _

theorem toFinset_spine : (spine demand f).toFinset = spineDates demand f.firstDate := by
  ext d
  simp [spine, allDates, mem_spineDates]

theorem length_spine : (spine demand f).length = (spineDates demand f.firstDate).card := by
  rw [← toFinset_spine, List.toFinset_card_of_nodup spine_nodup]

theorem sum_map_spine (q : δ → ℚ) :
    ((spine demand f).map q).sum = ∑ d ∈ spineDates demand f.firstDate, q d := by
  rw [← toFinset_spine, List.sum_toFinset q spine_nodup]

theorem mean_filled (huniq : UniqueRows demand) :
    mean (filled demand f) =
      (∑ d ∈ spineDates demand f.firstDate, quantityOn demand f.productHref d) /
        (spineDates demand f.firstDate).card := by
  rw [mean, filled_eq huniq, sum_map_spine, List.length_map, length_spine]

theorem variancePop_filled (huniq : UniqueRows demand) :
    variancePop (filled demand f) =
      seriesVariance (spineDates demand f.firstDate) (quantityOn demand f.productHref) := by
  rw [variancePop, mean_filled huniq, filled_eq huniq, List.map_map, sum_map_spine, List.length_map,
    length_spine]
  rfl

end

/-- A row of `first_seen`: the product's first date, and the name and code of its latest row. -/
theorem firstSeen_spec {f : FirstSeen δ} (hf : f ∈ firstSeen demand) :
    ∃ first last, IsFirst demand f.productHref first ∧ IsLatest demand f.productHref last ∧
      f.firstDate = first.snapshotDate ∧ f.name = last.name ∧ f.code = last.code := by
  obtain ⟨href, -, hf⟩ := List.mem_filterMap.mp hf
  dsimp only at hf
  split at hf
  case h_2 => cases hf
  case h_1 first last hfirst hlast =>
    cases hf
    have hgroup : ∀ r, r ∈ demand.filter (fun r => r.productHref = href) ↔
        r ∈ demand ∧ r.productHref = href := by
      intro r
      rw [List.mem_filter, decide_eq_true_eq]
    obtain ⟨hmem, hhref⟩ := (hgroup first).mp (List.argmin_mem hfirst)
    obtain ⟨hmem', hhref'⟩ := (hgroup last).mp (List.argmax_mem hlast)
    refine ⟨first, last, ⟨hmem, hhref, ?_⟩, ⟨hmem', hhref', ?_⟩, rfl, rfl, rfl⟩
    · intro r hr hrhref
      exact List.le_of_mem_argmin ((hgroup r).mpr ⟨hr, hrhref⟩) hfirst
    · intro r hr hrhref
      exact List.le_of_mem_argmax ((hgroup r).mpr ⟨hr, hrhref⟩) hlast

theorem firstSeen_products (demand : List (DemandDay δ)) :
    (firstSeen demand).map (·.productHref) = (demand.map (·.productHref)).dedup := by
  unfold firstSeen
  rw [List.map_filterMap]
  refine (List.filterMap_congr ?_).trans List.filterMap_some
  intro href hhref
  obtain ⟨r, hr, rfl⟩ := List.mem_map.mp (List.mem_dedup.mp hhref)
  have hgroup : demand.filter (fun r' => r'.productHref = r.productHref) ≠ [] :=
    List.ne_nil_of_mem (List.mem_filter.mpr ⟨hr, decide_eq_true rfl⟩)
  have hfirst := mt (List.argmin_eq_none (f := (·.snapshotDate))).mp hgroup
  have hlast := mt (List.argmax_eq_none (f := (·.snapshotDate))).mp hgroup
  obtain ⟨first, hfirst⟩ := Option.ne_none_iff_exists'.mp hfirst
  obtain ⟨last, hlast⟩ := Option.ne_none_iff_exists'.mp hlast
  dsimp only
  rw [hfirst, hlast]
  rfl

section
variable {sqrt : ℚ → ℚ} {first first' last last' : DemandDay δ} {s s' : DemandStats}

theorem demandStats_products (sqrt : ℚ → ℚ) (demand : List (DemandDay δ)) :
    (demandStats sqrt demand).map (·.productHref) = (demand.map (·.productHref)).dedup := by
  rw [← firstSeen_products, demandStats, List.map_map]
  rfl

theorem describes_of_mem (huniq : UniqueRows demand) (hs : s ∈ demandStats sqrt demand) :
    ∃ first last, Describes demand sqrt first last s := by
  obtain ⟨f, hf, rfl⟩ := List.mem_map.mp hs
  obtain ⟨first, last, hfirst, hlast, hdate, hname, hcode⟩ := firstSeen_spec hf
  refine ⟨first, last, hfirst, hlast, hname, hcode, ?_, ?_, ?_⟩
  · dsimp only
    rw [filled_eq huniq, List.length_map, length_spine, hdate]
  · have hne : (spineDates demand first.snapshotDate).Nonempty :=
      ⟨_, mem_spineDates.mpr ⟨⟨first, hfirst.mem, rfl⟩, le_rfl⟩⟩
    have hcard : ((spineDates demand first.snapshotDate).card : ℚ) ≠ 0 :=
      Nat.cast_ne_zero.mpr (Finset.card_ne_zero.mpr hne)
    dsimp only
    rw [mean_filled huniq, filled_eq huniq, List.length_map, length_spine, hdate,
      sum_quantityOn hfirst, div_mul_cancel₀ _ hcard]
  · dsimp only
    rw [variancePop_filled huniq, hdate]

theorem Describes.days_ne_zero (h : Describes demand sqrt first last s) : (s.days : ℚ) ≠ 0 := by
  rw [h.days]
  refine Nat.cast_ne_zero.mpr (Finset.card_ne_zero.mpr ⟨first.snapshotDate, ?_⟩)
  exact mem_spineDates.mpr ⟨⟨first, h.isFirst.mem, rfl⟩, le_rfl⟩

/-- The definition leaves no choice. -/
theorem Describes.unique (huniq : UniqueRows demand) (h : Describes demand sqrt first last s)
    (h' : Describes demand sqrt first' last' s') (hhref : s.productHref = s'.productHref) :
    s = s' := by
  obtain ⟨href, name, code, days, meanDemand, stdDemand⟩ := s
  obtain ⟨href', name', code', days', meanDemand', stdDemand'⟩ := s'
  dsimp only at hhref
  subst hhref
  have hfirst : first.snapshotDate = first'.snapshotDate := h.isFirst.date_eq h'.isFirst
  have hdate : last.snapshotDate = last'.snapshotDate :=
    le_antisymm (h'.isLatest.le _ h.isLatest.mem h.isLatest.product)
      (h.isLatest.le _ h'.isLatest.mem h'.isLatest.product)
  have hlast : last = last' := by
    refine List.inj_on_of_nodup_map huniq h.isLatest.mem h'.isLatest.mem ?_
    rw [hdate, h.isLatest.product, h'.isLatest.product]
  subst hlast
  have hname : name = name' := h.name.trans h'.name.symm
  have hcode : code = code' := h.code.trans h'.code.symm
  have hdays : days = days' := h.days.trans (hfirst ▸ h'.days.symm)
  subst hdays
  have hmean : meanDemand = meanDemand' := mul_right_cancel₀ h.days_ne_zero (h.mean.trans h'.mean.symm)
  have hstd : stdDemand = stdDemand' := h.variance.trans (hfirst ▸ h'.variance.symm)
  rw [hname, hcode, hmean, hstd]

/-- In which order the rows come makes no difference to what they mean. -/
theorem Describes.perm (h : Describes demand sqrt first last s) (hperm : demand.Perm demand') :
    Describes demand' sqrt first last s := by
  have hspine : ∀ d : δ, spineDates demand' d = spineDates demand d := by
    intro d
    rw [spineDates, spineDates, saleDates, saleDates, List.toFinset_eq_of_perm _ _ (hperm.map _)]
  have hqty : quantityOn demand' s.productHref = quantityOn demand s.productHref := by
    funext d
    exact (((hperm.filter _).map _).sum_eq).symm
  refine ⟨⟨hperm.mem_iff.mp h.isFirst.mem, h.isFirst.product, ?_⟩,
    ⟨hperm.mem_iff.mp h.isLatest.mem, h.isLatest.product, ?_⟩, h.name, h.code, ?_, ?_, ?_⟩
  · exact fun r hr => h.isFirst.le r (hperm.mem_iff.mpr hr)
  · exact fun r hr => h.isLatest.le r (hperm.mem_iff.mpr hr)
  · rw [hspine]
    exact h.days
  · exact h.mean.trans (((hperm.filter _).map _).sum_eq)
  · rw [hspine, hqty]
    exact h.variance

omit [LinearOrder δ] in
theorem UniqueRows.perm (huniq : UniqueRows demand) (hperm : demand.Perm demand') :
    UniqueRows demand' :=
  (hperm.map _).nodup_iff.mp huniq

theorem demandStats_subset_of_perm (huniq : UniqueRows demand) (hperm : demand.Perm demand')
    (hs : s ∈ demandStats sqrt demand) : s ∈ demandStats sqrt demand' := by
  obtain ⟨first, last, hdesc⟩ := describes_of_mem huniq hs
  have hhref : s.productHref ∈ (demandStats sqrt demand').map (·.productHref) := by
    rw [demandStats_products, List.mem_dedup, List.mem_map]
    exact ⟨first, hperm.mem_iff.mp hdesc.isFirst.mem, hdesc.isFirst.product⟩
  obtain ⟨s', hs', hhref⟩ := List.mem_map.mp hhref
  obtain ⟨first', last', hdesc'⟩ := describes_of_mem (huniq.perm hperm) hs'
  rw [Describes.unique (huniq.perm hperm) (hdesc.perm hperm) hdesc' hhref.symm]
  exact hs'

end

/-- One entry for each product, which is what its statistics are by definition, whatever the
order of the rows. -/
theorem demandStats_zero_filled (sqrt : ℚ → ℚ) (huniq : UniqueRows demand) :
    ((demandStats sqrt demand).map (·.productHref)).Nodup ∧
      (∀ href, href ∈ (demandStats sqrt demand).map (·.productHref) ↔
        ∃ r ∈ demand, r.productHref = href) ∧
      (∀ s ∈ demandStats sqrt demand, ∃ first last, Describes demand sqrt first last s) ∧
      ∀ demand', demand.Perm demand' →
        (demandStats sqrt demand).Perm (demandStats sqrt demand') := by
  have hnodup : ∀ demand : List (DemandDay δ),
      ((demandStats sqrt demand).map (·.productHref)).Nodup := by
    intro demand
    rw [demandStats_products]
    exact List.nodup_dedup _
  refine ⟨hnodup demand, ?_, fun s hs => describes_of_mem huniq hs, ?_⟩
  · intro href
    rw [demandStats_products, List.mem_dedup, List.mem_map]
  · intro demand' hperm
    rw [List.perm_ext_iff_of_nodup (hnodup demand).of_map (hnodup demand').of_map]
    intro s
    exact ⟨demandStats_subset_of_perm huniq hperm,
      demandStats_subset_of_perm (huniq.perm hperm) hperm.symm⟩

end

def sparseSales : List (DemandDay ℤ) :=
  [⟨1, "h1", "A", "", 5⟩, ⟨3, "h1", "A2", "", 5⟩, ⟨2, "h2", "B", "", 2⟩]

theorem sparseSales_zero_filled :
    ((demandStats id sparseSales).map (·.productHref)).Nodup ∧
      ∀ s ∈ demandStats id sparseSales, ∃ first last, Describes sparseSales id first last s :=
  have huniq : UniqueRows sparseSales := by unfold UniqueRows; decide
  have hspec := demandStats_zero_filled id huniq
  ⟨hspec.1, hspec.2.2.1⟩

example : (demandStats id sparseSales).map (fun s => (s.name, s.days, s.meanDemand, s.stdDemand)) =
    [("A2", 3, 10 / 3, 50 / 9), ("B", 2, 1, 1)] := by decide +kernel

end Chic.Olap
