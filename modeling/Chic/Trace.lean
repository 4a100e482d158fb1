import Mathlib.Data.List.Induction
import Mathlib.Tactic.Common

namespace Chic.Trace

variable {σ ε : Type*}

/-- Fire a list of events one after the other; `none` once one of them is not enabled. -/
def run (step : σ → ε → Option σ) : σ → List ε → Option σ
  | s, [] => some s
  | s, e :: es => (step s e).bind fun s' => run step s' es

section
variable {step : σ → ε → Option σ}

@[simp] theorem run_nil (s : σ) : run step s [] = some s := rfl

theorem run_cons (s : σ) (e : ε) (es : List ε) :
    run step s (e :: es) = (step s e).bind fun s' => run step s' es := rfl

theorem run_cons_some {s t : σ} {e : ε} {es : List ε} :
    run step s (e :: es) = some t ↔ ∃ s', step s e = some s' ∧ run step s' es = some t := by
  rw [run_cons, Option.bind_eq_some_iff]

theorem run_append (s : σ) (es fs : List ε) :
    run step s (es ++ fs) = (run step s es).bind fun s' => run step s' fs := by
  induction es generalizing s with
  | nil => rfl
  | cons e es ih =>
    simp only [List.cons_append, run_cons, Option.bind_assoc]
    congr 1
    funext s'
    exact ih s'

theorem run_concat_some {s t : σ} {e : ε} {es : List ε} :
    run step s (es ++ [e]) = some t ↔ ∃ s', run step s es = some s' ∧ step s' e = some t := by
  rw [run_append, Option.bind_eq_some_iff]
  simp [run_cons]

/-- What every enabled event preserves, every run preserves. -/
theorem run_invariant {Inv : σ → Prop} (hstep : ∀ s e s', Inv s → step s e = some s' → Inv s')
    {s t : σ} {es : List ε} (hs : Inv s) (hrun : run step s es = some t) : Inv t := by
  induction es generalizing s with
  | nil => cases hrun; exact hs
  | cons e es ih =>
    obtain ⟨s', hse, hrest⟩ := run_cons_some.mp hrun
    exact ih (hstep s e s' hs hse) hrest

/-- Induction over a run, its last event taken off; the property may speak of the events. -/
theorem run_induction {s : σ} {P : List ε → σ → Prop} (h0 : P [] s)
    (hnext : ∀ es t e t', run step s es = some t → P es t → step t e = some t' → P (es ++ [e]) t')
    {es : List ε} {t : σ} (hrun : run step s es = some t) : P es t := by
  induction es using List.reverseRecOn generalizing t with
  | nil => cases hrun; exact h0
  | append_singleton es e ih =>
    obtain ⟨t', ht', he⟩ := run_concat_some.mp hrun
    exact hnext es t' e t ht' (ih ht') he

/-- A run of a system is one of a part of it, if every step is some steps of the part. -/
theorem run_simulates {σ' ε' : Type*} {step : σ → ε → Option σ} {step' : σ' → ε' → Option σ'}
    {f : σ → σ'} (hstep : ∀ s e s', step s e = some s' → ∃ es', run step' (f s) es' = some (f s'))
    {s t : σ} {es : List ε} (hrun : run step s es = some t) :
    ∃ es', run step' (f s) es' = some (f t) := by
  induction es generalizing s with
  | nil =>
    cases hrun
    exact ⟨[], rfl⟩
  | cons e es ih =>
    obtain ⟨s', he, hrest⟩ := run_cons_some.mp hrun
    obtain ⟨es₁, h₁⟩ := hstep s e s' he
    obtain ⟨es₂, h₂⟩ := ih hrest
    exact ⟨es₁ ++ es₂, by rw [run_append, h₁]; exact h₂⟩

end

/-- The states that some list of events leads to. -/
def Reachable (step : σ → ε → Option σ) (init s : σ) : Prop := ∃ es, run step init es = some s

section
variable {step : σ → ε → Option σ} {init : σ}

theorem Reachable.refl : Reachable step init init := ⟨[], rfl⟩

theorem Reachable.run {s s' : σ} {es : List ε} (hs : Reachable step init s)
    (hrun : Trace.run step s es = some s') : Reachable step init s' := by
  obtain ⟨es₀, h₀⟩ := hs
  exact ⟨es₀ ++ es, by rw [run_append, h₀]; exact hrun⟩

/-- Induction over a run from the initial state, its last event taken off. -/
theorem Reachable.induction {P : σ → Prop} (h0 : P init)
    (hnext : ∀ s e s', Reachable step init s → P s → step s e = some s' → P s') {s : σ}
    (hs : Reachable step init s) : P s := by
  obtain ⟨es, hes⟩ := hs
  exact run_induction (P := fun _ s => P s) h0 (fun es t e t' ht => hnext t e t' ⟨es, ht⟩) hes

theorem Reachable.invariant {Inv : σ → Prop} (h0 : Inv init)
    (hstep : ∀ s e s', Inv s → step s e = some s' → Inv s') {s : σ}
    (hs : Reachable step init s) : Inv s :=
  hs.induction h0 fun s e s' _ => hstep s e s'

end

/-- Every event of the run is fired in a state that meets the condition. -/
def Along (step : σ → ε → Option σ) (C : σ → ε → Prop) : σ → List ε → Prop
  | _, [] => True
  | s, e :: es => C s e ∧ ∀ s', step s e = some s' → Along step C s' es

section
variable {step : σ → ε → Option σ} {C : σ → ε → Prop}

theorem along_cons {s s' : σ} {e : ε} {es : List ε} (h : step s e = some s') :
    Along step C s (e :: es) ↔ C s e ∧ Along step C s' es := by
  simp [Along, h]

/-- The condition can be checked along a given run. -/
instance [∀ s e, Decidable (C s e)] : ∀ s es, Decidable (Along step C s es)
  | _, [] => isTrue trivial
  | s, e :: es =>
    match h : step s e with
    | none => decidable_of_iff (C s e) (by simp [Along, h])
    | some s' =>
      have : Decidable (Along step C s' es) := instDecidableAlong s' es
      decidable_of_iff (C s e ∧ Along step C s' es) (along_cons h).symm

/-- What the events that meet the condition preserve, a run of such events preserves. -/
theorem along_invariant {Inv : σ → Prop}
    (hstep : ∀ s e s', Inv s → C s e → step s e = some s' → Inv s') {s t : σ} {es : List ε}
    (hs : Inv s) (hrun : run step s es = some t) (hall : Along step C s es) : Inv t := by
  induction es generalizing s with
  | nil => cases hrun; exact hs
  | cons e es ih =>
    obtain ⟨s', hse, hrest⟩ := run_cons_some.mp hrun
    obtain ⟨he, hall⟩ := (along_cons hse).mp hall
    exact ih (hstep s e s' hs he hse) hrest hall

/-- Two conditions that agree wherever the invariant holds agree on whole runs. -/
theorem along_iff {D : σ → ε → Prop} {Inv : σ → Prop}
    (hstep : ∀ s e s', Inv s → step s e = some s' → Inv s')
    (hiff : ∀ s e s', Inv s → step s e = some s' → (C s e ↔ D s e)) {s t : σ} {es : List ε}
    (hs : Inv s) (hrun : run step s es = some t) : Along step C s es ↔ Along step D s es := by
  induction es generalizing s with
  | nil => exact Iff.rfl
  | cons e es ih =>
    obtain ⟨s', he, hrest⟩ := run_cons_some.mp hrun
    rw [along_cons he, along_cons he, hiff s e s' hs he, ih (hstep s e s' hs he) hrest]

end

section
variable {step : σ → ε → Option σ} {C : σ → ε → Prop}

/-- The exact condition for a property of the end of a run: good states stay good as long as
the events meet the condition, the first event that does not makes the state bad, and a bad
state stays bad. -/
theorem good_or_bad {Inv Good Bad : σ → Prop}
    (hinv : ∀ s e s', Inv s → step s e = some s' → Inv s')
    (hgood : ∀ s e s', Inv s → Good s → C s e → step s e = some s' → Good s')
    (hfail : ∀ s e s', Inv s → Good s → ¬ C s e → step s e = some s' → Bad s')
    (hbad : ∀ s e s', Inv s → Bad s → step s e = some s' → Bad s') {s t : σ} {es : List ε}
    (hs : Inv s) (hg : Good s) (hrun : run step s es = some t) :
    (Along step C s es ∧ Good t) ∨ (¬ Along step C s es ∧ Bad t) := by
  induction es generalizing s with
  | nil =>
    cases hrun
    exact .inl ⟨trivial, hg⟩
  | cons e es ih =>
    obtain ⟨s', he, hrest⟩ := run_cons_some.mp hrun
    rw [along_cons he]
    have hs' := hinv s e s' hs he
    by_cases hC : C s e
    · rcases ih hs' (hgood s e s' hs hg hC he) hrest with h | h
      · exact .inl ⟨⟨hC, h.1⟩, h.2⟩
      · exact .inr ⟨fun hall => h.1 hall.2, h.2⟩
    · refine .inr ⟨fun hall => hC hall.1, ?_⟩
      have hkeep : ∀ v e v', Inv v ∧ Bad v → step v e = some v' → Inv v' ∧ Bad v' :=
        fun v e v' hv hstep => ⟨hinv v e v' hv.1 hstep, hbad v e v' hv.1 hv.2 hstep⟩
      exact (run_invariant hkeep ⟨hs', hfail s e s' hs hg hC he⟩ hrest).2

/-- A property that a step keeps exactly when its event meets the condition holds at the end
exactly when it held at the start and all events meet the condition. -/
theorem end_iff_along {Inv P : σ → Prop}
    (hinv : ∀ s e s', Inv s → step s e = some s' → Inv s')
    (hiff : ∀ s e s', Inv s → step s e = some s' → (P s' ↔ P s ∧ C s e)) {s t : σ} {es : List ε}
    (hs : Inv s) (hrun : run step s es = some t) : P t ↔ P s ∧ Along step C s es := by
  induction es generalizing s with
  | nil =>
    cases hrun
    exact (and_iff_left trivial).symm
  | cons e es ih =>
    obtain ⟨s', he, hrest⟩ := run_cons_some.mp hrun
    rw [ih (hinv s e s' hs he) hrest, hiff s e s' hs he, along_cons he, and_assoc]

end

section
variable {step : σ → ε → Option σ} {R : σ → σ → Prop} {keep : ε → Bool}

/-- Events that the relation does not notice can be taken out of a run. -/
theorem run_filter
    (hkeep : ∀ s s' e t, R s s' → keep e = true → step s e = some t →
      ∃ t', step s' e = some t' ∧ R t t')
    (hdrop : ∀ s s' e t, R s s' → keep e = false → step s e = some t → R t s')
    {s s' t : σ} {es : List ε} (hs : R s s') (hrun : run step s es = some t) :
    ∃ t', run step s' (es.filter keep) = some t' ∧ R t t' := by
  induction es generalizing s s' with
  | nil =>
    cases hrun
    exact ⟨s', rfl, hs⟩
  | cons e es ih =>
    obtain ⟨u, he, hrest⟩ := run_cons_some.mp hrun
    by_cases hk : keep e = true
    · obtain ⟨u', he', hu⟩ := hkeep s s' e u hs hk he
      obtain ⟨t', hrun', ht⟩ := ih hu hrest
      rw [List.filter_cons_of_pos hk]
      exact ⟨t', run_cons_some.mpr ⟨u', he', hrun'⟩, ht⟩
    · rw [List.filter_cons_of_neg hk]
      exact ih (hdrop s s' e u hs (Bool.not_eq_true _ ▸ hk) he) hrest

/-- Events that are always enabled and that the relation does not notice can be put into a
run. -/
theorem run_of_filter
    (hkeep : ∀ s s' e t, R s s' → keep e = true → step s e = some t →
      ∃ t', step s' e = some t' ∧ R t t')
    (hadd : ∀ s s' e, R s s' → keep e = false → ∃ t', step s' e = some t' ∧ R s t')
    {s s' t : σ} {es : List ε} (hs : R s s') (hrun : run step s (es.filter keep) = some t) :
    ∃ t', run step s' es = some t' ∧ R t t' := by
  induction es generalizing s s' with
  | nil =>
    cases hrun
    exact ⟨s', rfl, hs⟩
  | cons e es ih =>
    by_cases hk : keep e = true
    · rw [List.filter_cons_of_pos hk] at hrun
      obtain ⟨u, he, hrest⟩ := run_cons_some.mp hrun
      obtain ⟨u', he', hu⟩ := hkeep s s' e u hs hk he
      obtain ⟨t', hrun', ht⟩ := ih hu hrest
      exact ⟨t', run_cons_some.mpr ⟨u', he', hrun'⟩, ht⟩
    · rw [List.filter_cons_of_neg hk] at hrun
      obtain ⟨u', he', hu⟩ := hadd s s' e hs (Bool.not_eq_true _ ▸ hk)
      obtain ⟨t', hrun', ht⟩ := ih hu hrun
      exact ⟨t', run_cons_some.mpr ⟨u', he', hrun'⟩, ht⟩

end

/-- Every state of the run has the property, the first one included. -/
def Throughout (step : σ → ε → Option σ) (P : σ → Prop) : σ → List ε → Prop
  | s, [] => P s
  | s, e :: es => P s ∧ ∀ s', step s e = some s' → Throughout step P s' es

section
variable {step : σ → ε → Option σ} {P : σ → Prop}

theorem throughout_cons {s s' : σ} {e : ε} {es : List ε} (h : step s e = some s') :
    Throughout step P s (e :: es) ↔ P s ∧ Throughout step P s' es := by
  simp [Throughout, h]

theorem Throughout.head {s : σ} {es : List ε} (h : Throughout step P s es) : P s := by
  cases es with
  | nil => exact h
  | cons e es => exact h.1

/-- What the events that meet the condition preserve holds in every state of a run of such
events. -/
theorem Along.throughout {C : σ → ε → Prop} {Inv : σ → Prop} (hP : ∀ s, Inv s → P s)
    (hkeep : ∀ s e s', Inv s → C s e → step s e = some s' → Inv s') {s : σ} {es : List ε}
    (hs : Inv s) (hall : Along step C s es) : Throughout step P s es := by
  induction es generalizing s with
  | nil => exact hP s hs
  | cons e es ih =>
    refine ⟨hP s hs, ?_⟩
    intro s' he
    exact ih (hkeep s e s' hs hall.1 he) (hall.2 s' he)

/-- The exact condition for a property of all states of a run: an invariant gives the property,
the events that meet the condition keep the invariant, and an event that does not meet it
breaks the property at once. -/
theorem throughout_iff_along {C : σ → ε → Prop} {Inv : σ → Prop} (hP : ∀ s, Inv s → P s)
    (hkeep : ∀ s e s', Inv s → C s e → step s e = some s' → Inv s')
    (hbreak : ∀ s e s', Inv s → ¬ C s e → step s e = some s' → ¬ P s') {s t : σ} {es : List ε}
    (hs : Inv s) (hrun : run step s es = some t) :
    Throughout step P s es ↔ Along step C s es := by
  induction es generalizing s with
  | nil => exact iff_of_true (hP s hs) trivial
  | cons e es ih =>
    obtain ⟨s', he, hrest⟩ := run_cons_some.mp hrun
    rw [throughout_cons he, along_cons he]
    by_cases hC : C s e
    · rw [ih (hkeep s e s' hs hC he) hrest]
      simp only [hP s hs, hC, true_and]
    · refine iff_of_false ?_ ?_
      · rintro ⟨-, hall⟩
        exact hbreak s e s' hs hC he hall.head
      · rintro ⟨hC', -⟩
        exact hC hC'

theorem Throughout.last {s t : σ} {es : List ε} (h : Throughout step P s es)
    (hrun : run step s es = some t) : P t := by
  induction es generalizing s with
  | nil =>
    cases hrun
    exact h
  | cons e es ih =>
    obtain ⟨s', he, hrest⟩ := run_cons_some.mp hrun
    exact ih ((throughout_cons he).mp h).2 hrest

end

end Chic.Trace
