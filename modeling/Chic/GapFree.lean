import Chic.CaptureMarks

namespace Chic.Snapshot
open History Trace

def World.fresh (today : Day) : World := { World.init with now := today }

/-- The captures all have the window `n`, the account date does not go back, yesterday is at
most `n` days after the last marked day, and no run is aborted between the rows of a day and its
mark. -/
def Regular (n : ℤ) (w : World) : Event → Prop
  | .capture now maxBackfillDays => maxBackfillDays = n ∧ w.now ≤ now ∧
      ∀ last, w.history.salesCapture.keys.max? = some last → now - 1 ≤ last + n
  | .cut => ∀ d rows rest, w.pc ≠ .marking d rows rest
  | _ => True

instance (n : ℤ) (w : World) : ∀ e, Decidable (Regular n w e)
  | .capture now maxBackfillDays =>
    match h : w.history.salesCapture.keys.max? with
    | none =>
      decidable_of_iff (maxBackfillDays = n ∧ w.now ≤ now) (by simp [Regular, h])
    | some last =>
      decidable_of_iff (maxBackfillDays = n ∧ w.now ≤ now ∧ now - 1 ≤ last + n)
        (by simp [Regular, h])
  | .cut =>
    match h : w.pc with
    | .marking d rows rest => isFalse fun hcut => hcut d rows rest h
    | .idle | .returned | .checkingStock | .askingStock | .savingStock _ | .readingLatest
    | .askingSales _ _ | .savingSales _ _ _ => isTrue (by simp [Regular, h])
  | .advance | .stockAnswer _ | .salesAnswer _ => isTrue trivial

/-- The days from `d` to yesterday go on where the marks from `first` to `last` end, or begin
the window. -/
def Onward (n first last now d : ℤ) (rest : List ℤ) : Prop :=
  rest = dayRange (d + 1) (now - 1) ∧ d < now ∧ (first ≤ last → first ≤ d ∧ d ≤ last + 1) ∧
    (last < first → d = now - n)

/-- What the place of a run says when the days from `first` to `last` are marked. -/
def Pc.Continues (n first last now maxBackfillDays : ℤ) : Pc → Prop
  | .idle => True
  | .returned => first ≤ last ∧ last = now - 1
  | .checkingStock | .askingStock | .savingStock _ | .readingLatest =>
    maxBackfillDays = n ∧ (first ≤ last → now - 1 ≤ last + n)
  | .askingSales d rest | .savingSales d _ rest | .marking d _ rest =>
    Onward n first last now d rest

/-- The days from `first` to `last` are marked and no others, none of them is after yesterday,
and the rows are theirs or of the day whose mark is the next write. -/
structure Span (n first last : ℤ) (w : World) : Prop where
  marked : ∀ d : ℤ, d ∈ w.history.salesCapture.keys ↔ first ≤ d ∧ d ≤ last
  sales : ∀ d : ℤ, d ∈ w.history.salesDates →
    (first ≤ d ∧ d ≤ last) ∨ ∃ rows rest, w.pc = .marking d rows rest
  complete : last < w.now
  window : first ≤ last → first ≤ w.now - n
  place : w.pc.Continues n first last w.now w.maxBackfillDays

def GapFree (n : ℤ) (w : World) : Prop := ∃ first last, Span n first last w

section
variable {n first last now maxBackfillDays d : ℤ} {w w' : World} {e : Event}

theorem nextDay_continues (hd : d < now) (hmarked : first ≤ d ∧ d ≤ last) (hlast : last < now) :
    (nextDay (dayRange (d + 1) (now - 1))).Continues n first last now maxBackfillDays := by
  by_cases h : d + 1 ≤ now - 1
  · rw [dayRange_cons h]
    refine ⟨rfl, ?_, ?_, ?_⟩ <;> omega
  · rw [dayRange_eq_nil (by omega)]
    refine ⟨?_, ?_⟩ <;> omega

/-- A run that resumes after a marked day, but not before the window, goes on where the marks
end. -/
theorem resume_continues {latest : ℤ} (hn : 1 ≤ n) (hlatest : first ≤ latest ∧ latest ≤ last)
    (hlast : last < now) (hwindow : first ≤ now - n) (hbackfill : now - 1 ≤ last + n) :
    (nextDay (dayRange (max (latest + 1) (now - n)) (now - 1))).Continues n first last now
      maxBackfillDays := by
  by_cases h : max (latest + 1) (now - n) ≤ now - 1
  · rw [dayRange_cons h]
    refine ⟨rfl, ?_, ?_, ?_⟩ <;> omega
  · rw [dayRange_eq_nil (by omega)]
    refine ⟨?_, ?_⟩ <;> omega

theorem seed_continues (hn : 1 ≤ n) (hwindow : first ≤ last → first ≤ now - n)
    (hbackfill : first ≤ last → now - 1 ≤ last + n) :
    (nextDay (dayRange (now - n) (now - 1))).Continues n first last now maxBackfillDays := by
  rw [dayRange_cons (by omega)]
  refine ⟨rfl, ?_, ?_, ?_⟩ <;> omega

theorem planned_continues (hn : 1 ≤ n) (hspan : Span n first last w)
    (hpc : w.pc = .readingLatest) :
    (nextDay (salesDays w.now w.maxBackfillDays w.history.latestSalesDate)).Continues n first last
      w.now w.maxBackfillDays := by
  obtain ⟨-, hsales, hcomplete, hwindow, hplace⟩ := hspan
  rw [hpc] at hsales hplace
  obtain ⟨hmax, hbackfill⟩ := hplace
  rw [salesDays_eq, hmax, max_eq_left hn]
  cases hlatest : w.history.latestSalesDate with
  | none =>
    rw [Option.map_none, Option.getD_none, max_self]
    exact seed_continues hn hwindow hbackfill
  | some latest =>
    have hmarked : first ≤ latest ∧ latest ≤ last := by
      rcases hsales latest (List.max?_mem hlatest) with h | ⟨_, _, h⟩
      · exact h
      · cases h
    have hsome : first ≤ last := hmarked.1.trans hmarked.2
    exact resume_continues hn hmarked hcomplete (hwindow hsome) (hbackfill hsome)

theorem Span.mark {rows : ℕ} {rest : List Day} (hspan : Span n first last w)
    (hpc : w.pc = .marking d rows rest) :
    GapFree n
      { w with
        history := w.history.markSalesCaptured d rows
        written := w.written + rows
        pc := nextDay rest } := by
  obtain ⟨hmarked, hsales, hcomplete, hwindow, hplace⟩ := hspan
  rw [hpc] at hsales hplace
  obtain ⟨rfl, hd, hsome, hnone⟩ := hplace
  have hsales' : ∀ d' : ℤ, d' ∈ w.history.salesDates → (first ≤ d' ∧ d' ≤ last) ∨ d' = d := by
    intro d' hd'
    rcases hsales d' hd' with h | ⟨_, _, h⟩
    · exact .inl h
    · cases h
      exact .inr rfl
  by_cases h : first ≤ last
  · refine ⟨first, max last d, ?_, ?_, ?_, ?_, ?_⟩
    · intro d'
      rw [mem_captured_mark, hmarked]
      have := hsome h
      show (d' = d ∨ _) ↔ _
      omega
    · intro d' hd'
      have := hsome h
      rcases hsales' d' hd' with hd' | rfl
      · exact .inl ⟨hd'.1, hd'.2.trans (le_max_left _ _)⟩
      · exact .inl ⟨this.1, le_max_right _ _⟩
    · exact max_lt hcomplete hd
    · exact fun _ => hwindow h
    · have := hsome h
      exact nextDay_continues hd (by omega) (max_lt hcomplete hd)
  · refine ⟨d, d, ?_, ?_, hd, ?_, nextDay_continues hd ⟨le_rfl, le_rfl⟩ hd⟩
    · intro d'
      rw [mem_captured_mark, hmarked]
      show (d' = d ∨ _) ↔ _
      omega
    · intro d' hd'
      rcases hsales' d' hd' with hd' | rfl
      · exact (h (hd'.1.trans hd'.2)).elim
      · exact .inl ⟨le_rfl, le_rfl⟩
    · exact fun _ => (hnone (not_le.mp h)).le

theorem GapFree.step (hn : 1 ≤ n) (hgapFree : GapFree n w) (hregular : Regular n w e)
    (hstep : step w e = some w') : GapFree n w' := by
  obtain ⟨first, last, hmarked, hsales, hcomplete, hwindow, hplace⟩ := hgapFree
  -- between two marks the rows are those of the marked days
  have hquiet : (∀ d rows rest, w.pc ≠ .marking d rows rest) →
      ∀ d : ℤ, d ∈ w.history.salesDates → first ≤ d ∧ d ≤ last := by
    intro hpc d hd
    rcases hsales d hd with h | ⟨rows, rest, h⟩
    · exact h
    · exact (hpc d rows rest h).elim
  cases step_moves hstep with
  | @started now maxBackfillDays hpc =>
    obtain ⟨rfl, hnow, hlast⟩ := hregular
    refine ⟨first, last, hmarked, ?_, hcomplete.trans_le hnow,
      fun h => (hwindow h).trans (sub_le_sub_right hnow _), rfl, ?_⟩
    · intro d hd
      refine .inl (hquiet ?_ d hd)
      intro d rows rest h
      rw [h] at hpc
      exact hpc
    · intro h
      refine hlast last (List.max?_eq_some_iff.mpr ⟨(hmarked last).mpr ⟨h, le_rfl⟩, ?_⟩)
      intro d hd
      exact ((hmarked d).mp hd).2
  | planned hpc =>
    have hplan := planned_continues hn ⟨hmarked, hsales, hcomplete, hwindow, hplace⟩ hpc
    exact ⟨first, last, hmarked, fun d hd => .inl (hquiet (by simp [hpc]) d hd), hcomplete, hwindow,
      hplan⟩
  | @salesSaved day rows rest hpc =>
    refine ⟨first, last, hmarked, ?_, hcomplete, hwindow, ?_⟩
    · intro d hd
      rcases mem_salesDates_saveSales.mp hd with hd | ⟨rfl, -⟩
      · exact .inl (hquiet (by simp [hpc]) d hd)
      · exact .inr ⟨_, _, rfl⟩
    · rw [hpc] at hplace
      exact hplace
  | marked hpc => exact Span.mark ⟨hmarked, hsales, hcomplete, hwindow, hplace⟩ hpc
  | aborted =>
    exact ⟨first, last, hmarked, fun d hd => .inl (hquiet hregular d hd), hcomplete, hwindow,
      trivial⟩
  | stockThere hpc | stockMissing hpc | stockSaved hpc | stockAnswered hpc | salesAnswered hpc =>
    refine ⟨first, last, hmarked, fun d hd => .inl (hquiet (by simp [hpc]) d hd), hcomplete,
      hwindow, ?_⟩
    rw [hpc] at hplace
    exact hplace

end

/-- The marked days are always one interval that does not reach past yesterday, a run that
returns ends it at yesterday, and no run asks for or stores a day that is not over. -/
theorem capture_gap_free {n : ℤ} (hn : 1 ≤ n) {today : Day} {es : List Event} {w : World}
    (hrun : run step (World.fresh today) es = some w)
    (hregular : Along step (Regular n) (World.fresh today) es) :
    (∃ first last : ℤ, (∀ d : ℤ, d ∈ w.history.salesCapture.keys ↔ first ≤ d ∧ d ≤ last) ∧
      last ≤ w.now - 1 ∧ (w.pc = .returned → first ≤ last ∧ last = w.now - 1)) ∧
      (∀ (d : ℤ) rest, w.pc = .askingSales d rest → d ≤ w.now - 1) ∧
        ∀ d : ℤ, d ∈ w.history.salesDates → d ≤ w.now - 1 := by
  have hfresh : GapFree n (World.fresh today) := by
    refine ⟨today, today - 1, ?_, ?_, ?_, ?_, trivial⟩
    · intro d
      exact iff_of_false List.not_mem_nil (by omega)
    · exact fun d hd => (List.not_mem_nil hd).elim
    · exact sub_one_lt today
    · omega
  obtain ⟨first, last, hmarked, hsales, hcomplete, -, hplace⟩ :=
    along_invariant (fun _ _ _ hs hC hstep => GapFree.step hn hs hC hstep) hfresh hrun hregular
  refine ⟨⟨first, last, hmarked, by omega, ?_⟩, ?_, ?_⟩
  · intro hret
    rw [hret] at hplace
    exact hplace
  · intro d rest hpc
    rw [hpc] at hplace
    have := hplace.2.1
    omega
  · intro d hd
    rcases hsales d hd with h | ⟨rows, rest, hpc⟩
    · omega
    · rw [hpc] at hplace
      have := hplace.2.1
      omega

/-- Days 8 and 9 have no sales; the run of day 10 fails at day 9, and the one of day 11 walks the
window anew. -/
def closedDaysRun : List Event :=
  [.capture 10 3, .advance, .stockAnswer [], .advance, .advance, .salesAnswer [cappuccino],
    .advance, .advance, .salesAnswer [], .advance, .advance, .cut,
    .capture 11 3, .advance, .stockAnswer [], .advance, .advance, .salesAnswer [], .advance,
    .advance, .salesAnswer [], .advance, .advance, .salesAnswer [], .advance, .advance]

theorem closedDaysRun_gap_free : ∃ w, run step (World.fresh 10) closedDaysRun = some w ∧
    w.history.salesCapture.keys = [7, 8, 9, 10] ∧
      ∃ first last : ℤ, (∀ d : ℤ, d ∈ w.history.salesCapture.keys ↔ first ≤ d ∧ d ≤ last) ∧
        last = w.now - 1 := by
  have h : ((run step (World.fresh 10) closedDaysRun).map fun w =>
      ((match w.pc with
        | .returned => true
        | _ => false), w.history.salesCapture.keys)) = some (true, [7, 8, 9, 10]) := by
    decide +kernel
  obtain ⟨w, hrun, hw⟩ := Option.map_eq_some_iff.mp h
  simp only [Prod.mk.injEq] at hw
  obtain ⟨hpc, hkeys⟩ := hw
  have hret : w.pc = .returned := by
    cases hw : w.pc <;> simp [hw] at hpc
    rfl
  have hregular : Along step (Regular 3) (World.fresh 10) closedDaysRun := by decide +kernel
  obtain ⟨⟨first, last, hmarked, -, hyesterday⟩, -⟩ :=
    capture_gap_free (n := 3) (by decide) hrun hregular
  exact ⟨w, hrun, hkeys, first, last, hmarked, (hyesterday hret).2⟩

end Chic.Snapshot
