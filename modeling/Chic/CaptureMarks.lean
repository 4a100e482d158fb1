import Chic.Snapshot

namespace Chic.Snapshot
open History Trace

def Pc.pending : Pc → List Day
  | .askingSales day rest | .savingSales day _ rest => day :: rest
  | .marking _ _ rest => rest
  | _ => []

/-- A run goes forward: what it still has to save is ascending and after all that is stored. -/
structure Forward (w : World) : Prop where
  sorted : w.pc.pending.Pairwise (· < ·)
  ahead : ∀ d ∈ w.history.salesDates, ∀ day ∈ w.pc.pending, d < day

/-- Every day with sales rows is marked, or its mark is the next write. -/
def Marked (w : World) : Prop :=
  ∀ d ∈ w.history.salesDates,
    d ∈ w.history.salesCapture.keys ∨ ∃ rows rest, w.pc = .marking d rows rest

/-- No run is aborted between the rows of a day and its mark, unless the day has no rows or was
marked before. -/
def MarkFollows (w : World) : Event → Prop
  | .cut => ∀ d rows rest, w.pc = .marking d rows rest → d ∈ w.history.salesDates →
      d ∈ w.history.salesCapture.keys
  | _ => True

theorem nextDay_pending (days : List Day) : (nextDay days).pending = days := by
  cases days <;> rfl

theorem nextDay_ne_marking (days : List Day) (d : Day) (rows : ℕ) (rest : List Day) :
    nextDay days ≠ .marking d rows rest := by
  cases days <;> simp [nextDay]

section
variable {w w' : World} {e : Event}

theorem Forward.step (hw : Forward w) (hstep : Snapshot.step w e = some w') : Forward w' := by
  obtain ⟨hsorted, hahead⟩ := hw
  cases step_moves hstep with
  | planned hpc =>
    -- the days to save begin after the last one with sales rows
    refine ⟨?_, ?_⟩
    · change (nextDay _).pending.Pairwise _
      rw [nextDay_pending]
      exact salesDays_sorted _ _ _
    · intro d hd day hday
      change day ∈ (nextDay _).pending at hday
      rw [nextDay_pending] at hday
      change d ∈ w.history.salesDates at hd
      cases hlast : w.history.latestSalesDate with
      | none => exact (latestSalesDate_eq_none hlast hd).elim
      | some last =>
        rw [hlast] at hday
        exact lt_of_le_of_lt (le_latestSalesDate hlast hd) (lt_of_mem_salesDays hday)
  | @salesSaved day rows rest hpc =>
    rw [hpc] at hsorted hahead
    obtain ⟨hfirst, hrest⟩ := List.pairwise_cons.mp hsorted
    refine ⟨hrest, ?_⟩
    intro d hd day' hday'
    rcases mem_salesDates_saveSales.mp hd with hd | ⟨rfl, -⟩
    · exact hahead d hd day' (List.mem_cons_of_mem _ hday')
    · exact hfirst day' hday'
  | marked hpc =>
    rw [hpc] at hsorted hahead
    refine ⟨?_, ?_⟩
    · change (nextDay _).pending.Pairwise _
      rw [nextDay_pending]
      exact hsorted
    · intro d hd day hday
      change day ∈ (nextDay _).pending at hday
      rw [nextDay_pending] at hday
      exact hahead d hd day hday
  | salesAnswered hpc =>
    rw [hpc] at hsorted hahead
    exact ⟨hsorted, hahead⟩
  | _ => exact ⟨List.Pairwise.nil, fun _ _ _ h => (by cases h)⟩

theorem Forward.not_stored {day : Day} {rows : List (String × SalesSnapshot)} {rest : List Day}
    (hforward : Forward w) (hpc : w.pc = .savingSales day rows rest) :
    day ∉ w.history.salesDates := by
  intro hday
  refine lt_irrefl day (hforward.ahead day hday day ?_)
  rw [hpc]
  exact List.mem_cons_self

theorem Marked.step (hw : Marked w) (hfollows : MarkFollows w e)
    (hstep : Snapshot.step w e = some w') : Marked w' := by
  -- a step that changes no table, from a place before no mark
  have hsame : w'.history.salesSnapshot = w.history.salesSnapshot →
      w'.history.salesCapture = w.history.salesCapture →
        (∀ d rows rest, w.pc ≠ .marking d rows rest) → Marked w' := by
    intro hsales hcapture hpc d hd
    rw [Store.salesDates, hsales] at hd
    rw [hcapture]
    rcases hw d hd with h | ⟨rows, rest, h⟩
    · exact .inl h
    · exact (hpc d rows rest h).elim
  cases step_moves hstep with
  | salesSaved hpc =>
    intro d hd
    rcases mem_salesDates_saveSales.mp hd with hd | ⟨rfl, -⟩
    · rcases hw d hd with h | ⟨rows, rest, h⟩
      · exact .inl h
      · rw [hpc] at h
        cases h
    · exact .inr ⟨_, _, rfl⟩
  | marked hpc =>
    intro d hd
    refine .inl (mem_captured_mark.mpr ?_)
    rcases hw d hd with h | ⟨rows, rest, h⟩
    · exact .inr h
    · rw [hpc] at h
      cases h
      exact .inl rfl
  | aborted =>
    intro d hd
    rcases hw d hd with h | ⟨rows, rest, h⟩
    · exact .inl h
    · exact .inl (hfollows d rows rest h hd)
  | started hpc =>
    refine hsame rfl rfl ?_
    intro d rows rest h
    rw [h] at hpc
    exact hpc
  | stockThere hpc | stockMissing hpc | stockSaved hpc | planned hpc | stockAnswered hpc
  | salesAnswered hpc =>
    refine hsame rfl rfl ?_
    simp [hpc]

/-- A run aborted before the mark leaves its day behind. -/
theorem not_marked_of_cut (hcut : ¬ MarkFollows w e) (hstep : Snapshot.step w e = some w') :
    ¬ Marked w' := by
  cases step_moves hstep with
  | aborted =>
    simp only [MarkFollows, not_forall] at hcut
    obtain ⟨d, rows, rest, hpc, hd, hnot⟩ := hcut
    intro hmarked
    rcases hmarked d hd with h | ⟨_, _, h⟩
    · exact hnot h
    · cases h
  | _ => exact (hcut trivial).elim

/-- A day left behind is never gone back to: later runs start after it. -/
theorem not_marked_step (hforward : Forward w) (hw : ¬ Marked w)
    (hstep : Snapshot.step w e = some w') : ¬ Marked w' := by
  simp only [Marked, not_forall, not_or, not_exists] at hw
  obtain ⟨d, hd, hnot, hpending⟩ := hw
  intro hmarked
  cases step_moves hstep with
  | @salesSaved day rows rest hpc =>
    rcases hmarked d (mem_salesDates_saveSales.mpr (.inl hd)) with h | ⟨_, _, h⟩
    · exact hnot h
    · cases h
      exact hforward.not_stored hpc hd
  | @marked day rows rest hpc =>
    rcases hmarked d hd with h | ⟨_, _, h⟩
    · rcases mem_captured_mark.mp h with rfl | h
      · exact hpending rows rest hpc
      · exact hnot h
    · exact nextDay_ne_marking _ _ _ _ h
  | planned =>
    rcases hmarked d hd with h | ⟨_, _, h⟩
    · exact hnot h
    · exact nextDay_ne_marking _ _ _ _ h
  | _ =>
    rcases hmarked d hd with h | ⟨_, _, h⟩
    · exact hnot h
    · cases h

end

theorem forward_init : Forward World.init := ⟨List.Pairwise.nil, fun _ _ _ h => (by cases h)⟩

theorem marked_init : Marked World.init := fun _ h => (by cases h)

/-- After a capture that returned, every day with stored sales is marked, and so is no outage
gap, exactly when no run so far was aborted between the rows of a day and its mark. -/
theorem captured_days_marked_iff {es : List Event} {w : World}
    (hrun : run step World.init es = some w) (hret : w.pc = .returned) :
    ((∀ d ∈ w.history.salesDates, d ∈ w.history.salesCapture.keys) ∧
      ∀ maxGaps, ∀ d ∈ (w.history.salesCoverage maxGaps).gaps, d ∉ w.history.salesDates) ↔
      Along step MarkFollows World.init es := by
  have hmarked : Marked w ↔ ∀ d ∈ w.history.salesDates, d ∈ w.history.salesCapture.keys := by
    simp [Marked, hret]
  have hgaps : (∀ d ∈ w.history.salesDates, d ∈ w.history.salesCapture.keys) →
      ∀ maxGaps, ∀ d ∈ (w.history.salesCoverage maxGaps).gaps, d ∉ w.history.salesDates :=
    fun h maxGaps d hgap hd => not_mem_of_gap hgap (h d hd)
  rcases good_or_bad (C := MarkFollows) (fun _ _ _ hs h => Forward.step hs h)
    (fun _ _ _ _ hg hC h => Marked.step hg hC h) (fun _ _ _ _ _ hC h => not_marked_of_cut hC h)
    (fun _ _ _ hs hb h => not_marked_step hs hb h) forward_init marked_init hrun with h | h
  · exact iff_of_true ⟨hmarked.mp h.2, hgaps (hmarked.mp h.2)⟩ h.1
  · exact iff_of_false (fun hall => h.2 (hmarked.mpr hall.1)) h.1

def cappuccino : ProfitByProductRow :=
  ⟨⟨"href", "Cappuccino", "01"⟩, 3, 900, 300, 0, 0, 600⟩

/-- The condition can be checked in a given state. -/
instance (w : World) : ∀ e, Decidable (MarkFollows w e)
  | .cut =>
    match hpc : w.pc with
    | .marking d _ _ =>
      decidable_of_iff (d ∈ w.history.salesDates → d ∈ w.history.salesCapture.keys)
        (by simp [MarkFollows, hpc])
    | .idle | .returned | .checkingStock | .askingStock | .savingStock _ | .readingLatest
    | .askingSales _ _ | .savingSales _ _ _ => isTrue (by simp [MarkFollows, hpc])
  | .capture _ _ | .advance | .stockAnswer _ | .salesAnswer _ => isTrue trivial

/-- A run marks day 7 and dies with the rows of day 8 in hand; the next run fetches them again. -/
def retriedRun : List Event :=
  [.capture 9 2, .advance, .stockAnswer [], .advance, .advance, .salesAnswer [], .advance,
    .advance, .salesAnswer [cappuccino], .cut,
    .capture 10 2, .advance, .stockAnswer [], .advance, .advance, .salesAnswer [cappuccino], .advance,
    .advance, .salesAnswer [], .advance, .advance]

theorem retriedRun_marked : ∃ w, run step World.init retriedRun = some w ∧
    w.history.salesDates = [8] ∧
    ((∀ d ∈ w.history.salesDates, d ∈ w.history.salesCapture.keys) ∧
      ∀ maxGaps, ∀ d ∈ (w.history.salesCoverage maxGaps).gaps, d ∉ w.history.salesDates) := by
  have h : ((run step World.init retriedRun).map fun w =>
      ((match w.pc with
        | .returned => true
        | _ => false), w.history.salesDates)) = some (true, [8]) := by decide +kernel
  obtain ⟨w, hrun, hw⟩ := Option.map_eq_some_iff.mp h
  obtain ⟨hpc, hdates⟩ := Prod.mk.inj hw
  have hret : w.pc = .returned := by
    cases hw : w.pc <;> simp [hw] at hpc
    rfl
  exact ⟨w, hrun, hdates, (captured_days_marked_iff hrun hret).mpr (by decide +kernel)⟩

/-- A run marks day 7 and dies between the rows of day 8 and its mark; the next run returns. -/
def cutRun : List Event :=
  [.capture 9 2, .advance, .stockAnswer [], .advance, .advance, .salesAnswer [], .advance,
    .advance, .salesAnswer [cappuccino], .advance, .cut,
    .capture 10 2, .advance, .stockAnswer [], .advance, .advance, .salesAnswer [], .advance,
    .advance]

/-- The stored sales of day 8 count as an outage from then on. -/
theorem cutRun_unmarked : ∃ w, run step World.init cutRun = some w ∧ w.pc = .returned ∧
    8 ∈ w.history.salesDates ∧ 8 ∉ w.history.salesCapture.keys ∧
      (w.history.salesCoverage 10).gaps = [8] := by
  have h : ((run step World.init cutRun).map fun w =>
      ((match w.pc with
        | .returned => true
        | _ => false),
        w.history.salesDates, w.history.salesCapture.keys,
        (w.history.salesCoverage 10).gaps)) = some (true, [8], [7, 9], [8]) := by decide +kernel
  obtain ⟨w, hrun, hw⟩ := Option.map_eq_some_iff.mp h
  simp only [Prod.mk.injEq] at hw
  obtain ⟨hpc, hdates, hcaptured, hgaps⟩ := hw
  have hret : w.pc = .returned := by
    cases hw : w.pc <;> simp [hw] at hpc
    rfl
  refine ⟨w, hrun, hret, ?_, ?_, hgaps⟩
  · rw [hdates]
    decide
  · rw [hcaptured]
    decide

end Chic.Snapshot
