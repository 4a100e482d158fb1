import Chic.CaptureMarks

namespace Chic.Snapshot
open History Trace

/-- In the run from `w₀` the API returned these rows when it was asked for the sales of a day. -/
def SalesAnswered (w₀ : World) (es : List Event) (day : Day) (rows : List ProfitByProductRow) :
    Prop :=
  ∃ before after w rest, es = before ++ .salesAnswer rows :: after ∧
    run step w₀ before = some w ∧ w.pc = .askingSales day rest

/-- In the run from `w₀` the API returned these rows to a capture of a day that asked for the
stock. -/
def StockAnswered (w₀ : World) (es : List Event) (day : Day) (rows : List StockRow) : Prop :=
  ∃ before after w, es = before ++ .stockAnswer rows :: after ∧
    run step w₀ before = some w ∧ w.pc = .askingStock ∧ w.now = day

/-- One row for each product of the answer, the last one, and no others. -/
structure LastWins {ρ : Type*} (answer stored : List (String × ρ)) : Prop where
  nodup : (stored.map Prod.fst).Nodup
  mem_iff : ∀ r, r ∈ stored ↔ (answer.filter fun a => a.1 = r.1).getLast? = some r

section Dedupe
variable {ρ : Type*}

theorem dedupe_lastWins (rows : List (String × ρ)) : LastWins rows (dedupe rows) := by
  refine ⟨dedupe_nodup rows, ?_⟩
  intro r
  obtain ⟨k, v⟩ := r
  rw [dedupe, Dict.mem_entries_iff, Dict.get?_foldl_set, Dict.get?_empty, Option.or_none,
    Option.map_eq_some_iff]
  refine ⟨?_, fun h => ⟨_, h, rfl⟩⟩
  intro h
  obtain ⟨a, ha, rfl⟩ := h
  have hmem := List.mem_of_getLast? ha
  have hk : a.1 = k := by simpa using (List.mem_filter.mp hmem).2
  rw [ha, ← hk]

end Dedupe

section
variable {w₀ w w' : World} {es fs : List Event} {e : Event} {day : Day}

theorem SalesAnswered.append {rows : List ProfitByProductRow} (h : SalesAnswered w₀ es day rows)
    (fs : List Event) : SalesAnswered w₀ (es ++ fs) day rows := by
  obtain ⟨before, after, w, rest, rfl, hrun, hpc⟩ := h
  exact ⟨before, after ++ fs, w, rest, by simp, hrun, hpc⟩

theorem StockAnswered.append {rows : List StockRow} (h : StockAnswered w₀ es day rows)
    (fs : List Event) : StockAnswered w₀ (es ++ fs) day rows := by
  obtain ⟨before, after, w, rfl, hrun, hpc⟩ := h
  exact ⟨before, after ++ fs, w, by simp, hrun, hpc⟩

/-- All rows come from one answer each, those about to be written too, and what is about to be
written is of a day without stock rows. -/
structure Sourced (w₀ : World) (es : List Event) (w : World) : Prop where
  sales : ∀ d, (w.history.salesOn d).entries ≠ [] → ∃ rows, SalesAnswered w₀ es d rows ∧
    (w.history.salesOn d).entries = dedupe (rows.map salesRow)
  stock : ∀ d, (w.history.stockOn d).entries ≠ [] → ∃ rows, StockAnswered w₀ es d rows ∧
    (w.history.stockOn d).entries = dedupe (rows.map stockRow)
  savingSales : ∀ d rows rest, w.pc = .savingSales d rows rest →
    ∃ answer, SalesAnswered w₀ es d answer ∧ rows = dedupe (answer.map salesRow)
  savingStock : ∀ rows, w.pc = .savingStock rows →
    ∃ answer, StockAnswered w₀ es w.now answer ∧ rows = dedupe (answer.map stockRow)
  missing : w.pc = .askingStock ∨ (∃ rows, w.pc = .savingStock rows) →
    (w.history.stockOn w.now).entries = []

theorem salesOn_step (hforward : Forward w) (hstep : step w e = some w') {d : Day}
    (hd : (w.history.salesOn d).entries ≠ []) : w'.history.salesOn d = w.history.salesOn d := by
  cases step_moves hstep with
  | @salesSaved day rows rest hpc =>
    have hne : d ≠ day := by
      rintro rfl
      exact hd (salesOn_eq_nil_iff.mpr (hforward.not_stored hpc))
    exact slice_upsert_of_ne _ _ hne
  | _ => rfl

theorem stockOn_step (hsourced : Sourced w₀ es w) (hstep : step w e = some w') {d : Day}
    (hd : (w.history.stockOn d).entries ≠ []) : w'.history.stockOn d = w.history.stockOn d := by
  cases step_moves hstep with
  | stockSaved hpc =>
    have hne : d ≠ w.now := by
      rintro rfl
      exact hd (hsourced.missing (.inr ⟨_, hpc⟩))
    exact slice_upsert_of_ne _ _ hne
  | _ => rfl

def Pc.holdsAnswer : Pc → Prop
  | .askingStock | .savingStock _ | .savingSales _ _ _ => True
  | _ => False

theorem nextDay_holdsAnswer (days : List Day) : ¬ (nextDay days).holdsAnswer := by
  cases days <;> exact id

theorem Sourced.of_not_holdsAnswer
    (hsales : ∀ d, (w.history.salesOn d).entries ≠ [] → ∃ rows, SalesAnswered w₀ es d rows ∧
      (w.history.salesOn d).entries = dedupe (rows.map salesRow))
    (hstock : ∀ d, (w.history.stockOn d).entries ≠ [] → ∃ rows, StockAnswered w₀ es d rows ∧
      (w.history.stockOn d).entries = dedupe (rows.map stockRow))
    (hpc : ¬ w.pc.holdsAnswer) : Sourced w₀ es w where
  sales := hsales
  stock := hstock
  savingSales d rows rest h := (hpc (by rw [h]; trivial)).elim
  savingStock rows h := (hpc (by rw [h]; trivial)).elim
  missing h := by
    rcases h with h | ⟨rows, h⟩ <;> exact (hpc (by rw [h]; trivial)).elim

theorem Sourced.step (hsourced : Sourced w₀ es w) (hforward : Forward w)
    (hrun : run step w₀ es = some w) (hstep : step w e = some w') : Sourced w₀ (es ++ [e]) w' := by
  have hsales : ∀ d, (w.history.salesOn d).entries ≠ [] →
      ∃ rows, SalesAnswered w₀ (es ++ [e]) d rows ∧
        (w.history.salesOn d).entries = dedupe (rows.map salesRow) := by
    intro d hd
    obtain ⟨rows, hrows, heq⟩ := hsourced.sales d hd
    exact ⟨rows, hrows.append _, heq⟩
  have hstock : ∀ d, (w.history.stockOn d).entries ≠ [] →
      ∃ rows, StockAnswered w₀ (es ++ [e]) d rows ∧
        (w.history.stockOn d).entries = dedupe (rows.map stockRow) := by
    intro d hd
    obtain ⟨rows, hrows, heq⟩ := hsourced.stock d hd
    exact ⟨rows, hrows.append _, heq⟩
  -- only the answers and the two saves touch what the rows come from
  cases step_moves hstep with
  | stockMissing hpc hmissing =>
    refine ⟨hsales, hstock, by simp, by simp, ?_⟩
    intro _
    exact stockOn_eq_nil_iff.mpr hmissing
  | @stockSaved rows hpc =>
    obtain ⟨answer, hanswer, rfl⟩ := hsourced.savingStock rows hpc
    have hfresh := hsourced.missing (.inr ⟨_, hpc⟩)
    refine .of_not_holdsAnswer hsales ?_ id
    exact forall_slice_upsert (P := fun d stored => ∃ rows,
      StockAnswered w₀ (es ++ [Event.advance]) d rows ∧ stored = dedupe (rows.map stockRow))
      (dedupe_nodup _) hfresh ⟨answer, hanswer.append _, rfl⟩ hstock
  | @salesSaved day rows rest hpc =>
    obtain ⟨answer, hanswer, rfl⟩ := hsourced.savingSales day rows rest hpc
    have hfresh := salesOn_eq_nil_iff.mpr (hforward.not_stored hpc)
    refine .of_not_holdsAnswer ?_ hstock id
    exact forall_slice_upsert (P := fun d stored => ∃ rows,
      SalesAnswered w₀ (es ++ [Event.advance]) d rows ∧ stored = dedupe (rows.map salesRow))
      (dedupe_nodup _) hfresh ⟨answer, hanswer.append _, rfl⟩ hsales
  | @stockAnswered rows hpc =>
    refine ⟨hsales, hstock, by simp, ?_, ?_⟩
    · intro saved hsaved
      cases hsaved
      exact ⟨rows, ⟨es, [], w, rfl, hrun, hpc, rfl⟩, rfl⟩
    · intro _
      exact hsourced.missing (.inl hpc)
  | @salesAnswered rows day rest hpc =>
    refine ⟨hsales, hstock, ?_, by simp, ?_⟩
    · intro d saved rest' hsaved
      cases hsaved
      exact ⟨rows, ⟨es, [], w, rest, rfl, hrun, hpc⟩, rfl⟩
    · intro h
      rcases h with h | ⟨_, h⟩ <;> cases h
  | planned | marked => exact .of_not_holdsAnswer hsales hstock (nextDay_holdsAnswer _)
  | started | stockThere | aborted => exact .of_not_holdsAnswer hsales hstock id

end

theorem sourced_of_run {es : List Event} {w : World} (hrun : run step World.init es = some w) :
    Forward w ∧ Sourced World.init es w := by
  refine run_induction (P := fun es w => Forward w ∧ Sourced World.init es w) ?_ ?_ hrun
  · exact ⟨forward_init, .of_not_holdsAnswer (fun d hd => (hd rfl).elim) (fun d hd => (hd rfl).elim) id⟩
  · intro es w e w' hes hw hstep
    exact ⟨hw.1.step hstep, hw.2.step hw.1 hes hstep⟩

def espresso : ProfitByProductRow := ⟨⟨"href", "Espresso", "02"⟩, 1, 200, 100, 0, 0, 100⟩

/-- The answer for day 9 lists one product twice, and the answer for day 10 is other. -/
def twiceListedRun : List Event :=
  [.capture 10 1, .advance, .stockAnswer [], .advance, .advance,
    .salesAnswer [espresso, cappuccino], .advance, .advance]

def dayAfterRun : List Event :=
  [.capture 11 5, .advance, .stockAnswer [], .advance, .advance, .salesAnswer [espresso],
    .advance, .advance]

end Chic.Snapshot
