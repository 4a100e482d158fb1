import Mathlib.Order.Lattice
import Mathlib.Data.Nat.Basic
import Mathlib.Tactic.Common

namespace Chic.While

variable {σ ρ : Type*}

/-- A `while` loop by its body: `.inl` goes round again, `.inr` leaves with a result.
`none` says that the fuel ran out first. -/
def loop (body : σ → σ ⊕ ρ) : ℕ → σ → Option ρ
  | 0, _ => none
  | n + 1, s =>
    match body s with
    | .inl s' => loop body n s'
    | .inr r => some r

/-- The loop started in `s` leaves with `r`. -/
def Returns (body : σ → σ ⊕ ρ) (s : σ) (r : ρ) : Prop := ∃ n, loop body n s = some r

theorem loop_succ_inl {body : σ → σ ⊕ ρ} {s s' : σ} (h : body s = .inl s') (n : ℕ) :
    loop body (n + 1) s = loop body n s' := by
  simp only [loop, h]

theorem loop_succ_inr {body : σ → σ ⊕ ρ} {s : σ} {r : ρ} (h : body s = .inr r) (n : ℕ) :
    loop body (n + 1) s = some r := by
  simp only [loop, h]

/-- More fuel changes no result. -/
theorem loop_mono {body : σ → σ ⊕ ρ} {n m : ℕ} {s : σ} {r : ρ} (hnm : n ≤ m)
    (h : loop body n s = some r) : loop body m s = some r := by
  induction n generalizing m s with
  | zero => simp [loop] at h
  | succ n ih =>
    obtain ⟨m, rfl⟩ : ∃ k, m = k + 1 := ⟨m - 1, by omega⟩
    cases hb : body s with
    | inl s' =>
      rw [loop_succ_inl hb] at h ⊢
      exact ih (by omega) h
    | inr r' =>
      rw [loop_succ_inr hb] at h ⊢
      exact h

theorem Returns.unique {body : σ → σ ⊕ ρ} {s : σ} {r r' : ρ}
    (h : Returns body s r) (h' : Returns body s r') : r = r' := by
  obtain ⟨n, hn⟩ := h
  obtain ⟨m, hm⟩ := h'
  have hl := loop_mono (le_max_left n m) hn
  rw [loop_mono (le_max_right n m) hm] at hl
  exact (Option.some.inj hl).symm

theorem Returns.of_stop {body : σ → σ ⊕ ρ} {s : σ} {r : ρ} (h : body s = .inr r) :
    Returns body s r := ⟨1, loop_succ_inr h 0⟩

theorem Returns.of_again {body : σ → σ ⊕ ρ} {s s' : σ} {r : ρ} (h : body s = .inl s')
    (hr : Returns body s' r) : Returns body s r := by
  obtain ⟨n, hn⟩ := hr
  exact ⟨n + 1, by rw [loop_succ_inl h, hn]⟩

/-- Partial correctness: an invariant, and a postcondition that every way out establishes. -/
theorem Returns.post {body : σ → σ ⊕ ρ} {s : σ} {r : ρ} (Inv : σ → Prop) (Post : ρ → Prop)
    (hagain : ∀ s s', Inv s → body s = .inl s' → Inv s')
    (hstop : ∀ s r, Inv s → body s = .inr r → Post r) (hs : Inv s) (h : Returns body s r) :
    Post r := by
  obtain ⟨n, hn⟩ := h
  induction n generalizing s with
  | zero => cases hn
  | succ n ih =>
    cases hb : body s with
    | inl s' =>
      rw [loop_succ_inl hb] at hn
      exact ih (hagain s s' hs hb) hn
    | inr r' =>
      rw [loop_succ_inr hb] at hn
      cases hn
      exact hstop s r hs hb

/-- Total correctness: an invariant, a variant that every round decreases, and a
postcondition that every way out establishes. -/
theorem returns_of_variant {body : σ → σ ⊕ ρ} (Inv : σ → Prop) (Post : ρ → Prop) (μ : σ → ℕ)
    (hagain : ∀ s s', Inv s → body s = .inl s' → Inv s' ∧ μ s' < μ s)
    (hstop : ∀ s r, Inv s → body s = .inr r → Post r) (s : σ) (hs : Inv s) :
    ∃ r, Returns body s r ∧ Post r := by
  induction hn : μ s using Nat.strongRecOn generalizing s with
  | _ n ih =>
    cases hb : body s with
    | inl s' =>
      obtain ⟨hs', hlt⟩ := hagain s s' hs hb
      obtain ⟨r, hr, hpost⟩ := ih (μ s') (hn ▸ hlt) s' hs' rfl
      exact ⟨r, hr.of_again hb, hpost⟩
    | inr r => exact ⟨r, .of_stop hb, hstop s r hs hb⟩

/-- The same rule where the result is known beforehand. -/
theorem returns_of_variant_eq {body : σ → σ ⊕ ρ} (Inv : σ → Prop) (r : ρ) (μ : σ → ℕ)
    (hagain : ∀ s s', Inv s → body s = .inl s' → Inv s' ∧ μ s' < μ s)
    (hstop : ∀ s r', Inv s → body s = .inr r' → r' = r) (s : σ) (hs : Inv s) :
    Returns body s r := by
  obtain ⟨r', hr', rfl⟩ := returns_of_variant Inv (· = r) μ hagain hstop s hs
  exact hr'

end Chic.While
