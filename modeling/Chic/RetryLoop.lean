import Mathlib.Data.List.Basic
import Mathlib.Tactic.Common

namespace Chic.RetryLoop

inductive Step (ρ ε δ : Type*)
  | done (result : ρ)
  | again (error : ε) (delay : δ)

inductive Event (δ : Type*)
  | attempt
  | wait (delay : δ)

/-- What was done, in order, and how it ended: with a result, or with the last error when no
attempt was left. -/
structure Run (ρ ε δ : Type*) where
  trace : List (Event δ)
  ended : ρ ⊕ Option ε

variable {ρ ε δ : Type*}

def Step.IsAgain (s : Step ρ ε δ) : Prop := ∃ e d, s = .again e d

def Event.isAttempt : Event δ → Bool
  | .attempt => true
  | .wait _ => false

/-- The attempts numbered from `i`, of which `left` are allowed. -/
def run (step : ℕ → Step ρ ε δ) : (i left : ℕ) → Option ε → Run ρ ε δ
  | _, 0, last => ⟨[], .inr last⟩
  | i, left + 1, _ =>
    match step i with
    | .done r => ⟨[.attempt], .inl r⟩
    | .again e d =>
      let rest := run step (i + 1) left (some e)
      ⟨.attempt :: .wait d :: rest.trace, rest.ended⟩

def rounds (n : ℕ) : List Bool := (List.replicate n [true, false]).flatten

def Run.shape (r : Run ρ ε δ) : List Bool := r.trace.map Event.isAttempt

section
variable {step : ℕ → Step ρ ε δ} {i left : ℕ} {last : Option ε}

theorem rounds_succ (n : ℕ) : rounds (n + 1) = true :: false :: rounds n := by
  simp [rounds, List.replicate_succ]

theorem count_rounds (n : ℕ) (b : Bool) : (rounds n).count b = n := by
  induction n with
  | zero => rfl
  | succ n ih => cases b <;> simp [rounds_succ, ih]

/-- A run that ends with an attempt shows how many there were. -/
theorem rounds_append_inj {n m : ℕ} (h : rounds n ++ [true] = rounds m ++ [true]) : n = m := by
  have := congrArg (List.count false) (List.append_cancel_right h)
  rwa [count_rounds, count_rounds] at this

theorem rounds_ne_append {n m : ℕ} : rounds n ≠ rounds m ++ [true] := by
  intro h
  have htrue := congrArg (List.count true) h
  have hfalse := congrArg (List.count false) h
  rw [List.count_append, count_rounds, count_rounds] at htrue hfalse
  simp at htrue hfalse
  omega

/-- The attempts end one after another in a wait until one is done, or there is none left. -/
inductive Ends (step : ℕ → Step ρ ε δ) (i left : ℕ) (last : Option ε) (r : Run ρ ε δ) : Prop
  | done (k : ℕ) (result : ρ) (hk : k < left) (hagain : ∀ j < k, (step (i + j)).IsAgain)
      (hdone : step (i + k) = .done result) (hended : r.ended = .inl result)
      (hshape : r.shape = rounds k ++ [true])
  | exhausted (error : Option ε) (hagain : ∀ j < left, (step (i + j)).IsAgain)
      (hended : r.ended = .inr error)
      (herror : (left = 0 ∧ error = last) ∨ ∃ j e d, step j = .again e d ∧ error = some e)
      (hshape : r.shape = rounds left)

theorem run_ends (step : ℕ → Step ρ ε δ) (i left : ℕ) (last : Option ε) :
    Ends step i left last (run step i left last) := by
  -- over the attempts that are left; the next one has the next index
  induction left generalizing i last with
  | zero => exact .exhausted last (fun j hj => absurd hj (Nat.not_lt_zero j)) rfl (.inl ⟨rfl, rfl⟩) rfl
  | succ left ih =>
    cases hs : step i with
    | done r =>
      refine .done 0 r (Nat.succ_pos left) (fun j hj => absurd hj (Nat.not_lt_zero j)) hs ?_ ?_
      · simp only [run, hs]
      · simp only [Run.shape, run, hs]
        rfl
    | again e d =>
      have hcons : (run step i (left + 1) last).shape =
          true :: false :: (run step (i + 1) left (some e)).shape := by
        simp only [Run.shape, run, hs]
        rfl
      have hended : (run step i (left + 1) last).ended =
          (run step (i + 1) left (some e)).ended := by
        simp only [run, hs]
      have hagain : ∀ n, (∀ j < n, (step (i + 1 + j)).IsAgain) →
          ∀ j < n + 1, (step (i + j)).IsAgain := by
        intro n h j hj
        cases j with
        | zero => exact ⟨e, d, hs⟩
        | succ j =>
          rw [← Nat.add_assoc, Nat.add_right_comm]
          exact h j (Nat.lt_of_succ_lt_succ hj)
      cases ih (i + 1) (some e) with
      | done k r hk hrest hdone hrended hshape =>
        refine .done (k + 1) r (Nat.succ_lt_succ hk) (hagain k hrest) ?_ (hended.trans hrended) ?_
        · rw [← Nat.add_assoc, Nat.add_right_comm]
          exact hdone
        · rw [hcons, hshape, rounds_succ]
          rfl
      | exhausted error hrest hrended herror hshape =>
        refine .exhausted error (hagain left hrest) (hended.trans hrended) (.inr ?_) ?_
        · rcases herror with ⟨-, rfl⟩ | herror
          · exact ⟨i, e, d, hs, rfl⟩
          · exact herror
        · rw [hcons, hshape, rounds_succ]

/-- The first attempt that is done ends the run. -/
theorem run_of_done (step : ℕ → Step ρ ε δ) (i : ℕ) (last : Option ε) {k : ℕ} {r : ρ}
    (hk : k < left) (hagain : ∀ j < k, (step (i + j)).IsAgain) (hdone : step (i + k) = .done r) :
    (run step i left last).ended = .inl r ∧
      (run step i left last).shape = rounds k ++ [true] := by
  have hnot : ∀ {s : Step ρ ε δ} {r : ρ}, s = .done r → ¬ s.IsAgain := by
    rintro _ r rfl ⟨e, d, h⟩
    cases h
  cases run_ends step i left last with
  | done k' r' hk' hagain' hdone' hended hshape =>
    have hkk : k' = k := by
      rcases Nat.lt_trichotomy k' k with hlt | heq | hlt
      · exact absurd (hagain k' hlt) (hnot hdone')
      · exact heq
      · exact absurd (hagain' k hlt) (hnot hdone)
    subst hkk
    cases hdone'.symm.trans hdone
    exact ⟨hended, hshape⟩
  | exhausted error hall => exact absurd (hall k hk) (hnot hdone)

end

end Chic.RetryLoop
