import Chic.Snapshot

namespace Chic.Snapshot
open History Trace

inductive Request
  | getStock
  | profitByProduct (day : Day)
  deriving DecidableEq

/-- What a capture leaves: the history, the number of rows written and the requests made. -/
structure Captured where
  history : Store
  written : ℕ
  requests : List Request

def captureStock (api : Source) (date : Day) (c : Captured) : Captured :=
  let rows := dedupe ((api.getStock .positiveOnly).map stockRow)
  { history := c.history.saveStock date rows
    written := c.written + rows.length
    requests := c.requests ++ [.getStock] }

def captureSales (api : Source) (c : Captured) (date : Day) : Captured :=
  let rows := dedupe ((api.profitByProduct date date).map salesRow)
  { history := (c.history.saveSales date rows).markSalesCaptured date rows.length
    written := c.written + rows.length
    requests := c.requests ++ [.profitByProduct date] }

/-- A `capture` none of whose requests fails. -/
def capture (api : Source) (db : Store) (now : Day) (maxBackfillDays : ℤ) : Captured :=
  let c : Captured := { history := db, written := 0, requests := [] }
  let c := if db.hasStock now then c else captureStock api now c
  (salesDays now maxBackfillDays c.history.latestSalesDate).foldl (captureSales api) c

section Run
variable (api : Source) (now maxBackfillDays : ℤ)

def captureEvents (db : Store) : List Event :=
  let stock : List Event :=
    if db.hasStock now then [] else [.stockAnswer (api.getStock .positiveOnly), .advance]
  .capture now maxBackfillDays :: .advance :: stock ++
    .advance :: (salesDays now maxBackfillDays db.latestSalesDate).flatMap fun day =>
      [.salesAnswer (api.profitByProduct day day), .advance, .advance]

def Captured.world (c : Captured) (pc : Pc) : World :=
  { history := c.history, now, maxBackfillDays, written := c.written, pc }

theorem run_salesEvents (c : Captured) (days : List Day) :
    run step (c.world now maxBackfillDays (nextDay days)) (days.flatMap fun day =>
      [.salesAnswer (api.profitByProduct day day), .advance, .advance]) =
      some ((days.foldl (captureSales api) c).world now maxBackfillDays .returned) := by
  induction days generalizing c with
  | nil => rfl
  | cons day days ih =>
    rw [List.foldl_cons, ← ih]
    rfl

theorem run_captureEvents {w : World} (hpc : w.pc.ended) :
    run step w (captureEvents api now maxBackfillDays w.history) =
      some ((capture api w.history now maxBackfillDays).world now maxBackfillDays .returned) := by
  let c : Captured := { history := w.history, written := 0, requests := [] }
  have hstart : step w (.capture now maxBackfillDays) =
      some (c.world now maxBackfillDays .checkingStock) := by
    cases hw : w.pc with
    | idle | returned => simp [step, hw, c, Captured.world]
    | _ => simp [hw, Pc.ended] at hpc
  have hplan : ∀ c : Captured, step (c.world now maxBackfillDays .readingLatest) .advance =
      some (c.world now maxBackfillDays
        (nextDay (salesDays now maxBackfillDays c.history.latestSalesDate))) := fun _ => rfl
  unfold captureEvents
  dsimp only [capture]
  rw [List.cons_append, List.cons_append, run_cons, hstart, Option.bind_some, run_cons]
  -- with the stock stored already the run goes on to the sales
  by_cases h : w.history.hasStock now = true
  · have hcheck : step (c.world now maxBackfillDays .checkingStock) .advance =
        some (c.world now maxBackfillDays .readingLatest) := by
      simp [step, World.advance, Captured.world, c, h]
    rw [if_pos h, if_pos h, hcheck, Option.bind_some, List.nil_append, run_cons, hplan,
      Option.bind_some]
    exact run_salesEvents api now maxBackfillDays c _
  · have hcheck : step (c.world now maxBackfillDays .checkingStock) .advance =
        some (c.world now maxBackfillDays .askingStock) := by
      simp [step, World.advance, Captured.world, c, h]
    have hask : step (c.world now maxBackfillDays .askingStock)
          (.stockAnswer (api.getStock .positiveOnly)) =
        some (c.world now maxBackfillDays
          (.savingStock (dedupe ((api.getStock .positiveOnly).map stockRow)))) := rfl
    have hsave : step (c.world now maxBackfillDays
          (.savingStock (dedupe ((api.getStock .positiveOnly).map stockRow)))) .advance =
        some ((captureStock api now c).world now maxBackfillDays .readingLatest) := rfl
    rw [if_neg h, if_neg h, hcheck, Option.bind_some, List.cons_append, List.cons_append,
      List.nil_append, run_cons, hask, Option.bind_some, run_cons, hsave, Option.bind_some, run_cons,
      hplan, Option.bind_some]
    exact run_salesEvents api now maxBackfillDays (captureStock api now c) _

end Run

section
variable (api : Source) (c : Captured) (days : List Day)

theorem requests_foldl_captureSales :
    (days.foldl (captureSales api) c).requests = c.requests ++ days.map .profitByProduct := by
  induction days generalizing c with
  | nil => simp
  | cons day days ih =>
    rw [List.foldl_cons, ih, List.map_cons, List.append_cons]
    rfl

theorem stockSnapshot_foldl_captureSales :
    (days.foldl (captureSales api) c).history.stockSnapshot = c.history.stockSnapshot := by
  induction days generalizing c with
  | nil => rfl
  | cons day days ih => rw [List.foldl_cons, ih]; rfl

theorem mem_salesDates_foldl_captureSales {d : Day} :
    d ∈ (days.foldl (captureSales api) c).history.salesDates ↔
      d ∈ c.history.salesDates ∨ (d ∈ days ∧ api.profitByProduct d d ≠ []) := by
  induction days generalizing c with
  | nil => simp
  | cons day days ih =>
    have hday : d ∈ (captureSales api c day).history.salesDates ↔
        d ∈ c.history.salesDates ∨ (d = day ∧ api.profitByProduct d d ≠ []) := by
      refine mem_salesDates_saveSales.trans (or_congr_right (and_congr_right ?_))
      rintro rfl
      rw [ne_eq, dedupe_eq_nil_iff, List.map_eq_nil_iff]
    rw [List.foldl_cons, ih, hday, List.mem_cons]
    tauto

end

/-- Some day from yesterday on has sales rows. -/
def UpToDate (db : Store) (now : Day) : Prop := ∃ d ∈ db.salesDates, now - 1 ≤ d

/-- No day is left to fetch exactly when yesterday, or a later day, has sales rows. -/
theorem salesDays_eq_nil_iff {db : Store} {now maxBackfillDays : ℤ} :
    salesDays now maxBackfillDays db.latestSalesDate = [] ↔ UpToDate db now := by
  rw [salesDays_eq, dayRange_eq_nil_iff]
  cases hlatest : (db.latestSalesDate : Option ℤ) with
  | none =>
    have hnone : ¬ UpToDate db now := fun h => h.elim fun d hd =>
      latestSalesDate_eq_none hlatest hd.1
    refine iff_of_false ?_ hnone
    rw [Option.map_none, Option.getD_none]
    omega
  | some latest =>
    have hlast : UpToDate db now ↔ now - 1 ≤ latest := by
      refine ⟨?_, fun h => ⟨latest, List.max?_mem hlatest, h⟩⟩
      rintro ⟨d, hd, hnow⟩
      exact hnow.trans (le_latestSalesDate hlatest hd)
    rw [hlast, Option.map_some, Option.getD_some]
    omega

section
variable (api : Source) (db : Store) (now maxBackfillDays : ℤ)

/-- A capture asks for the stock unless it is there, and for the planned days. -/
theorem capture_requests :
    (capture api db now maxBackfillDays).requests =
      (if db.hasStock now then [] else [.getStock]) ++
        (salesDays now maxBackfillDays db.latestSalesDate).map .profitByProduct := by
  unfold capture
  rw [requests_foldl_captureSales]
  split_ifs <;> rfl

theorem capture_hasStock :
    (capture api db now maxBackfillDays).history.hasStock now = true ↔
      db.hasStock now = true ∨ api.getStock .positiveOnly ≠ [] := by
  unfold capture
  rw [Store.hasStock, stockSnapshot_foldl_captureSales]
  by_cases h : db.hasStock now = true
  · rw [if_pos h]
    exact iff_of_true h (.inl h)
  · have hsaved : now ∈ (captureStock api now ⟨db, 0, []⟩).history.stockSnapshot.keys.map Prod.fst ↔
        now ∈ db.stockSnapshot.keys.map Prod.fst ∨
          (now = now ∧ dedupe ((api.getStock .positiveOnly).map stockRow) ≠ []) :=
      mem_upsert_dates
    rw [if_neg h, ← Store.hasStock, hasStock_iff, hsaved, ← hasStock_iff, ne_eq, dedupe_eq_nil_iff,
      List.map_eq_nil_iff, and_iff_right rfl]

/-- Afterwards the history is up to date exactly when it was before, or the report of yesterday,
the last day of the window, has a row. -/
theorem capture_upToDate :
    UpToDate (capture api db now maxBackfillDays).history now ↔
      UpToDate db now ∨ api.profitByProduct (now - 1) (now - 1) ≠ [] := by
  let c : Captured := ⟨db, 0, []⟩
  have hdates : ∀ d, d ∈ (capture api db now maxBackfillDays).history.salesDates ↔
      d ∈ db.salesDates ∨
        (d ∈ salesDays now maxBackfillDays db.latestSalesDate ∧ api.profitByProduct d d ≠ []) := by
    intro d
    have hsales : (if db.hasStock now then c else captureStock api now c).history.salesSnapshot =
        db.salesSnapshot := by
      split_ifs <;> rfl
    unfold capture
    rw [mem_salesDates_foldl_captureSales, Store.latestSalesDate, Store.salesDates, hsales]
    rfl
  refine ⟨?_, ?_⟩
  · rintro ⟨d, hd, hnow⟩
    rcases (hdates d).mp hd with hd | ⟨hd, hrows⟩
    · exact .inl ⟨d, hd, hnow⟩
    -- of the planned days only the last is yesterday or later
    · rw [salesDays_eq, mem_dayRange] at hd
      rw [le_antisymm hd.2 hnow] at hrows
      exact .inr hrows
  · intro h
    by_cases hdb : UpToDate db now
    · obtain ⟨d, hd, hnow⟩ := hdb
      exact ⟨d, (hdates d).mpr (.inl hd), hnow⟩
    · have hrows := h.resolve_left hdb
      have hne : salesDays now maxBackfillDays db.latestSalesDate ≠ [] :=
        mt salesDays_eq_nil_iff.mp hdb
      refine ⟨now - 1, (hdates _).mpr (.inr ⟨?_, hrows⟩), le_rfl⟩
      rw [salesDays_eq, ne_eq, dayRange_eq_nil_iff, not_lt] at hne
      rw [salesDays_eq, mem_dayRange]
      exact ⟨hne, le_rfl⟩

end

/-- After a capture a second one of the same day asks for nothing and changes nothing exactly
when the stock and the sales of yesterday are stored: a report without rows is asked for again,
although the day is marked. -/
theorem capture_idempotent_iff (api api' : Source) (db : Store)
    (now maxBackfillDays maxBackfillDays' : ℤ) :
    ((capture api' (capture api db now maxBackfillDays).history now maxBackfillDays').requests =
        [] ∧
      (capture api' (capture api db now maxBackfillDays).history now maxBackfillDays').history =
        (capture api db now maxBackfillDays).history) ↔
      (db.hasStock now = true ∨ api.getStock .positiveOnly ≠ []) ∧
        (UpToDate db now ∨ api.profitByProduct (now - 1) (now - 1) ≠ []) := by
  rw [← capture_hasStock api db now maxBackfillDays, ← capture_upToDate api db now maxBackfillDays,
    capture_requests, List.append_eq_nil_iff, List.map_eq_nil_iff, salesDays_eq_nil_iff]
  generalize (capture api db now maxBackfillDays).history = first
  refine ⟨?_, ?_⟩
  · rintro ⟨⟨hstock, hsales⟩, -⟩
    refine ⟨?_, hsales⟩
    by_contra h
    rw [if_neg h] at hstock
    cases hstock
  · rintro ⟨hstock, hsales⟩
    refine ⟨⟨if_pos hstock, hsales⟩, ?_⟩
    dsimp only [capture]
    rw [if_pos hstock, salesDays_eq_nil_iff.mpr hsales]
    rfl

/-- Yesterday was closed: it is marked, and asked for again. -/
theorem closedYesterday_asked_again :
    let api : Source := ⟨fun _ => [⟨"href", "Beans", "01", "", 0, 0, 1, 0, 0, 0⟩], fun _ _ => []⟩
    let first := (capture api Store.empty 10 1).history
    first.salesCapture.keys = [9] ∧
      (capture api first 10 1).requests = [.profitByProduct 9] := by
  decide +kernel

end Chic.Snapshot
