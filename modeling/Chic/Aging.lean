import Mathlib.Data.Fin.VecNotation
import Mathlib.Data.List.FinRange
import Chic.Reports
import Chic.Tally

namespace Chic.Receivables
open Money

/-- A naive timestamp, in microseconds. -/
abbrev DateTime := ℤ

structure Invoice extends Document where
  paymentPlannedMoment : String

structure AgingItem where
  document : String
  counterparty : String := ""
  dueDate : String := ""
  outstanding : ℚ
  daysOverdue : ℤ

structure AgingBucket where
  label : String
  count : ℕ := 0
  amount : ℚ := 0
  deriving DecidableEq

structure Aging where
  totalOutstanding : ℚ
  totalOverdue : ℚ
  buckets : List AgingBucket
  itemCount : ℕ
  itemsTruncated : Bool := false
  items : List AgingItem

/-- `strptime` with the format of the service, which fails on any other text. -/
def parseTime (strptime : String → Option DateTime) (s : String) : Option DateTime :=
  if s = "" then none else strptime s

/-- Whole days, truncated toward zero. -/
def daysBetween (now earlier : DateTime) : ℤ :=
  let days : ℚ := (now - earlier) / 1000000 / 3600 / 24
  truncToInt days

def bucketLabels : Fin 5 → String := !["current", "1-30", "31-60", "61-90", "90+"]

def bucketIndex (daysOverdue : ℤ) : Fin 5 :=
  if daysOverdue ≤ 0 then 0
  else if daysOverdue ≤ 30 then 1
  else if daysOverdue ≤ 60 then 2
  else if daysOverdue ≤ 90 then 3
  else 4

def outstanding (d : Invoice) : ℚ := minorToMajor (d.sum - d.payedSum)

section
variable (strptime : String → Option DateTime) (now : DateTime)

def overdueDays (d : Invoice) : ℤ :=
  match parseTime strptime d.paymentPlannedMoment with
  | some due => if due < now then daysBetween now due else 0
  | none => 0

def agingItem (d : Invoice) : AgingItem where
  document := d.name
  counterparty := (d.agent.map (·.name)).getD ""
  dueDate := d.paymentPlannedMoment
  outstanding := outstanding d
  daysOverdue := overdueDays strptime now d

/-- What the loop over the documents builds. -/
@[ext] structure AgingState where
  buckets : Fin 5 → AgingBucket := fun i => { label := bucketLabels i }
  items : List AgingItem := []
  totalOutstanding : ℚ := 0
  totalOverdue : ℚ := 0

def AgingBucket.put (b : AgingBucket) (amount : ℚ) : AgingBucket :=
  { b with count := b.count + 1, amount := moneyRound (b.amount + amount) }

def agingStep (s : AgingState) (d : Invoice) : AgingState :=
  let outstanding := outstanding d
  if outstanding ≤ 0 then s
  else
    let days := overdueDays strptime now d
    let i := bucketIndex days
    { buckets := Function.update s.buckets i ((s.buckets i).put outstanding)
      items := s.items ++ [agingItem strptime now d]
      totalOutstanding := s.totalOutstanding + outstanding
      totalOverdue := if 0 < days then s.totalOverdue + outstanding else s.totalOverdue }

def receivablesAging (docs : List Invoice) (limit : ℤ) : Aging :=
  let s := docs.foldl (agingStep strptime now) {}
  let items := sortedDesc (·.daysOverdue) s.items
  let cut := 0 < limit ∧ limit < items.length
  { totalOutstanding := moneyRound s.totalOutstanding
    totalOverdue := moneyRound s.totalOverdue
    buckets := List.ofFn s.buckets
    itemCount := items.length
    itemsTruncated := cut
    items := if cut then items.take limit.toNat else items }

def bucketOf (d : Invoice) : Option (Fin 5) :=
  if 0 < outstanding d then some (bucketIndex (overdueDays strptime now d)) else none

end

theorem bucketIndex_eq_zero_iff (days : ℤ) : bucketIndex days = 0 ↔ days ≤ 0 := by
  unfold bucketIndex
  split_ifs with h <;> simp [h]

section Loop
variable {strptime : String → Option DateTime} {now : DateTime}

theorem bucketOf_of_nonpos {d : Invoice} (h : outstanding d ≤ 0) : bucketOf strptime now d = none :=
  if_neg h.not_gt

theorem bucketOf_of_pos {d : Invoice} (h : ¬ outstanding d ≤ 0) :
    bucketOf strptime now d = some (bucketIndex (overdueDays strptime now d)) :=
  if_pos (not_le.mp h)

theorem agingStep_buckets {s : AgingState} {d : Invoice} (h : ¬ outstanding d ≤ 0) (i : Fin 5)
    (hs : WholeCents (s.buckets i).amount) :
    (agingStep strptime now s d).buckets i =
      { label := (s.buckets i).label
        count := (s.buckets i).count + if bucketOf strptime now d = some i then 1 else 0
        amount := (s.buckets i).amount +
          if bucketOf strptime now d = some i then outstanding d else 0 } := by
  simp only [agingStep, if_neg h, bucketOf_of_pos h, Option.some_inj]
  by_cases hi : bucketIndex (overdueDays strptime now d) = i
  · have hsum : WholeCents ((s.buckets i).amount + outstanding d) :=
      hs.add (wholeCents_minorToMajor _)
    rw [hi, Function.update_self, AgingBucket.put, hsum.moneyRound_eq, if_pos rfl, if_pos rfl]
  · rw [Function.update_of_ne (Ne.symm hi), if_neg hi, if_neg hi, Nat.add_zero, add_zero]

theorem wholeCents_agingStep {s : AgingState} (hs : ∀ i, WholeCents (s.buckets i).amount)
    (d : Invoice) (i : Fin 5) : WholeCents ((agingStep strptime now s d).buckets i).amount := by
  by_cases h : outstanding d ≤ 0
  · rw [agingStep, if_pos h]
    exact hs i
  · rw [agingStep_buckets h i (hs i)]
    refine (hs i).add ?_
    split_ifs
    · exact wholeCents_minorToMajor _
    · exact wholeCents_zero

/-- What the loop adds to the state in which it starts. Whole cents stay whole, so rounding a
bucket after each document changes nothing. -/
theorem foldl_agingStep (docs : List Invoice) {s : AgingState}
    (hs : ∀ i, WholeCents (s.buckets i).amount) :
    let entries := Dict.labelled (bucketOf strptime now) outstanding docs
    docs.foldl (agingStep strptime now) s =
      { buckets := fun i =>
          { label := (s.buckets i).label
            count := (s.buckets i).count + docs.countP (bucketOf strptime now · = some i)
            amount := (s.buckets i).amount + Dict.sumOf entries i }
        items := s.items ++ (docs.filter fun d => 0 < outstanding d).map (agingItem strptime now)
        totalOutstanding := s.totalOutstanding + (entries.map Prod.snd).sum
        totalOverdue := s.totalOverdue + ((entries.filter (·.1 ≠ 0)).map Prod.snd).sum } := by
  intro entries
  -- over the documents, for any state that the loop has come to
  induction docs generalizing s with
  | nil => simp [entries, Dict.labelled, Dict.sumOf]
  | cons d docs ih =>
    rw [List.foldl_cons, ih (wholeCents_agingStep hs d)]
    by_cases h : outstanding d ≤ 0
    · have hstep : agingStep strptime now s d = s := if_pos h
      rw [hstep]
      simp [entries, Dict.labelled, bucketOf_of_nonpos h, h]
    · have hlabelled : Dict.labelled (bucketOf strptime now) outstanding (d :: docs) =
          (bucketIndex (overdueDays strptime now d), outstanding d) ::
            Dict.labelled (bucketOf strptime now) outstanding docs := by
        simp [Dict.labelled, bucketOf_of_pos h]
      simp only [entries, hlabelled]
      apply AgingState.ext
      -- of the buckets only that of `d` changes
      · funext i
        dsimp only
        rw [agingStep_buckets h i (hs i), List.countP_cons, Dict.sumOf_cons, add_assoc, add_assoc,
          Nat.add_comm (ite _ _ _)]
        simp only [bucketOf_of_pos h, Option.some_inj, decide_eq_true_eq]
      · simp [agingStep, h, not_le.mp h]
      · simp [agingStep, h, add_assoc]
      · by_cases hdays : 0 < overdueDays strptime now d
        · have hi := (bucketIndex_eq_zero_iff (overdueDays strptime now d)).not.mpr hdays.not_ge
          simp [agingStep, h, hdays, hi, add_assoc]
        · have hi := (bucketIndex_eq_zero_iff (overdueDays strptime now d)).mpr (not_lt.mp hdays)
          simp [agingStep, h, hdays, hi]

theorem sum_overdue (entries : List (Fin 5 × ℚ)) :
    (((List.finRange 5).drop 1).map (Dict.sumOf entries)).sum =
      ((entries.filter (·.1 ≠ 0)).map Prod.snd).sum := by
  have hkeys : ∀ i : Fin 5, i ∈ (List.finRange 5).drop 1 ↔ i ≠ 0 := by decide
  rw [Dict.sum_sumOf_filter ((List.nodup_finRange 5).sublist (List.drop_sublist 1 _))]
  simp only [hkeys]

end Loop

section Report
variable (strptime : String → Option DateTime) (now : DateTime) (docs : List Invoice) (limit : ℤ)

theorem isSome_bucketOf (d : Invoice) : (bucketOf strptime now d).isSome ↔ 0 < outstanding d := by
  unfold bucketOf
  split_ifs with h <;> simp [h]

theorem wholeCents_entries {c : Fin 5 × ℚ}
    (hc : c ∈ Dict.labelled (bucketOf strptime now) outstanding docs) : WholeCents c.2 := by
  have hvalue := List.mem_map_of_mem (f := Prod.snd) hc
  rw [Dict.values_labelled] at hvalue
  obtain ⟨d, -, hd⟩ := List.mem_map.mp hvalue
  exact hd ▸ wholeCents_minorToMajor _

/-- The report without its loop. -/
theorem receivablesAging_eq :
    let entries := Dict.labelled (bucketOf strptime now) outstanding docs
    let items := sortedDesc (·.daysOverdue)
      ((docs.filter fun d => 0 < outstanding d).map (agingItem strptime now))
    let cut := 0 < limit ∧ limit < items.length
    receivablesAging strptime now docs limit =
      { totalOutstanding := (entries.map Prod.snd).sum
        totalOverdue := ((entries.filter (·.1 ≠ 0)).map Prod.snd).sum
        buckets := (List.finRange 5).map fun i =>
          { label := bucketLabels i
            count := docs.countP (bucketOf strptime now · = some i)
            amount := Dict.sumOf entries i }
        itemCount := docs.countP fun d => (bucketOf strptime now d).isSome
        itemsTruncated := cut
        items := if cut then items.take limit.toNat else items } := by
  intro entries items cut
  have hstart : ∀ i, WholeCents (({} : AgingState).buckets i).amount := fun _ => wholeCents_zero
  have houtstanding : WholeCents (entries.map Prod.snd).sum :=
    wholeCents_sum (List.forall_mem_map.mpr fun c hc => wholeCents_entries strptime now docs hc)
  have hoverdue : WholeCents ((entries.filter (·.1 ≠ 0)).map Prod.snd).sum :=
    wholeCents_sum (List.forall_mem_map.mpr fun c hc =>
      wholeCents_entries strptime now docs (List.mem_filter.mp hc).1)
  have hcount : items.length = docs.countP fun d => (bucketOf strptime now d).isSome := by
    rw [(perm_sortedDesc _ _).length_eq, List.length_map, ← List.countP_eq_length_filter]
    refine List.countP_congr fun d _ => ?_
    rw [isSome_bucketOf, decide_eq_true_eq]
  dsimp only [receivablesAging]
  rw [foldl_agingStep docs hstart, ← hcount, List.ofFn_eq_map]
  simp only [zero_add, List.nil_append]
  rw [houtstanding.moneyRound_eq, hoverdue.moneyRound_eq]

theorem sum_bucket_counts :
    ((receivablesAging strptime now docs limit).buckets.map (·.count)).sum =
      (receivablesAging strptime now docs limit).itemCount := by
  have hcounts := Dict.sum_sumOf_labelled (bucketOf strptime now) (fun _ => 1)
    (List.nodup_finRange 5) fun d (_ : d ∈ docs) i _ => List.mem_finRange i
  rw [Dict.count_labelled] at hcounts
  rw [receivablesAging_eq]
  dsimp only
  rw [← hcounts, List.map_map]
  refine congrArg List.sum (List.map_congr_left fun i _ => ?_)
  exact (Dict.countOf_labelled (bucketOf strptime now) docs i).symm

theorem sum_bucket_amounts :
    ((receivablesAging strptime now docs limit).buckets.map (·.amount)).sum =
      (receivablesAging strptime now docs limit).totalOutstanding := by
  have hamounts := Dict.sum_sumOf_labelled (bucketOf strptime now) outstanding
    (List.nodup_finRange 5) fun d (_ : d ∈ docs) i _ => List.mem_finRange i
  rw [receivablesAging_eq]
  dsimp only
  rw [← hamounts, List.map_map]
  rfl

theorem sum_overdue_amounts :
    (((receivablesAging strptime now docs limit).buckets.drop 1).map (·.amount)).sum =
      (receivablesAging strptime now docs limit).totalOverdue := by
  rw [receivablesAging_eq]
  dsimp only
  rw [← sum_overdue, ← List.map_drop, List.map_map]
  rfl

theorem items_ordered :
    (receivablesAging strptime now docs limit).items.Pairwise
      fun x y => y.daysOverdue ≤ x.daysOverdue := by
  have hsorted := pairwise_sortedDesc (·.daysOverdue)
    ((docs.filter fun d => 0 < outstanding d).map (agingItem strptime now))
  rw [receivablesAging_eq]
  dsimp only
  split_ifs
  · exact hsorted.sublist (List.take_sublist _ _)
  · exact hsorted

end Report

/-- The buckets share out the documents with something outstanding on them, and the amounts. -/
theorem receivablesAging_partition (strptime : String → Option DateTime) (now : DateTime)
    (docs : List Invoice) (limit : ℤ) :
    let r := receivablesAging strptime now docs limit
    let group := bucketOf strptime now
    (∀ d, (group d).isSome ↔ 0 < outstanding d) ∧
    (r.buckets = List.ofFn fun i =>
      { label := bucketLabels i
        count := docs.countP (group · = some i)
        amount := ((docs.filter (group · = some i)).map outstanding).sum }) ∧
    (r.buckets.map (·.count)).sum = r.itemCount ∧
    (r.buckets.map (·.amount)).sum = r.totalOutstanding ∧
    ((r.buckets.drop 1).map (·.amount)).sum = r.totalOverdue ∧
    r.items.Pairwise (fun x y => y.daysOverdue ≤ x.daysOverdue) ∧
    ∀ docs' limit', docs'.Perm docs →
      let r' := receivablesAging strptime now docs' limit'
      r' = { r with items := r'.items, itemsTruncated := r'.itemsTruncated } := by
  intro r group
  refine ⟨isSome_bucketOf strptime now, ?_, sum_bucket_counts strptime now docs limit,
    sum_bucket_amounts strptime now docs limit, sum_overdue_amounts strptime now docs limit,
    items_ordered strptime now docs limit, ?_⟩
  · dsimp only [r]
    rw [receivablesAging_eq, List.ofFn_eq_map]
    refine List.map_congr_left fun i _ => ?_
    rw [Dict.sumOf_labelled]
  · intro docs' limit' hperm r'
    have hentries : (Dict.labelled (bucketOf strptime now) outstanding docs').Perm
        (Dict.labelled (bucketOf strptime now) outstanding docs) := hperm.filterMap _
    dsimp only [r, r']
    rw [receivablesAging_eq, receivablesAging_eq]
    simp only [(hentries.map Prod.snd).sum_eq, ((hentries.filter _).map Prod.snd).sum_eq,
      hperm.countP_eq, Dict.sumOf_perm hentries]

end Chic.Receivables
