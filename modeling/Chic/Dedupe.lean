import Mathlib.Data.Finset.Card
import Mathlib.Data.Finset.Dedup
import Chic.RingWindow

namespace Chic.Telegram
open RingWindow

/-- The last update ids, in a ring and as a set; 0 marks an empty cell. -/
structure Dedupe where
  seen : Finset ℤ
  ring : List ℤ
  next : ℕ

def Dedupe.init (n : ℕ) : Dedupe := ⟨∅, List.replicate n 0, 0⟩

/-- `first_seen`; `none` would be the index out of range. -/
def Dedupe.firstSeen (d : Dedupe) (updateId : ℤ) : Option (Bool × Dedupe) :=
  if updateId ∈ d.seen then some (false, d)
  else
    d.ring[d.next]?.map fun old =>
      let seen := if old ≠ 0 then d.seen.erase old else d.seen
      (true,
        { seen := insert updateId seen
          ring := d.ring.set d.next updateId
          next := (d.next + 1) % d.ring.length })

def Dedupe.deliver : Dedupe → List ℤ → Option (List (ℤ × Bool) × Dedupe)
  | d, [] => some ([], d)
  | d, id :: ids =>
    (d.firstSeen id).bind fun (fresh, d') =>
      (d'.deliver ids).map fun (answers, t) => ((id, fresh) :: answers, t)

def accepted (answers : List (ℤ × Bool)) : List ℤ := (answers.filter (·.2)).map Prod.fst

/-- The non-empty cells, from the cursor on. -/
def Dedupe.held (d : Dedupe) : List ℤ := (d.ring.rotate d.next).filter (· ≠ 0)

/-- The set has what the ring holds, each id once, and the ring is a window of the log. -/
structure Dedupe.Inv (n : ℕ) (log : List ℤ) (d : Dedupe) : Prop where
  pos : ∀ x ∈ log, 0 < x
  next : d.next < d.ring.length
  window : d.ring.rotate d.next = window 0 n log
  seen : ∀ x, x ∈ d.seen ↔ x ∈ d.held
  nodup : d.held.Nodup

namespace Dedupe
variable {n : ℕ} {log : List ℤ} {d : Dedupe} {x : ℤ}

theorem inv_init (hn : 0 < n) : Inv n [] (init n) := by
  have hheld : (init n).held = [] := by simp [held, init]
  refine ⟨List.forall_mem_nil _, ?_, ?_, ?_, ?_⟩
  · simpa [init] using hn
  · simp [init]
  · intro x
    rw [hheld]
    simp [init]
  · rw [hheld]
    exact List.nodup_nil

theorem Inv.length (h : d.Inv n log) : d.ring.length = n := by
  rw [← List.length_rotate d.ring d.next, h.window, length_window]

theorem Inv.held (h : d.Inv n log) : d.held = log.rtake n := by
  rw [Dedupe.held, h.window, filter_window fun y hy => (h.pos y hy).ne']

theorem Inv.firstSeen_of_mem (h : d.Inv n log) (hx : x ∈ log.rtake n) :
    d.firstSeen x = some (false, d) := by
  rw [← h.held, ← h.seen] at hx
  exact if_pos hx

/-- Without its oldest cell the ring holds what the set holds after the oldest id has left it. -/
theorem Inv.drop_oldest (h : d.Inv n log) {old : ℤ} {rest : List ℤ}
    (hring : d.ring.rotate d.next = old :: rest) (hx : x ∉ d.held) :
    x ∉ rest.filter (· ≠ 0) ∧ (rest.filter (· ≠ 0)).Nodup ∧
      ∀ y, y ∈ (if old ≠ 0 then d.seen.erase old else d.seen) ↔ y ∈ rest.filter (· ≠ 0) := by
  have hnodup := h.nodup
  have hseen := h.seen
  have hheld : d.held = if old ≠ 0 then old :: rest.filter (· ≠ 0) else rest.filter (· ≠ 0) := by
    rw [Dedupe.held, hring, List.filter_cons]
    simp
  rw [hheld] at hx hnodup hseen
  by_cases hempty : old = 0
  · rw [if_neg (not_not.mpr hempty)] at hx hnodup hseen ⊢
    exact ⟨hx, hnodup, hseen⟩
  · rw [if_pos hempty] at hx hnodup hseen ⊢
    -- the id is held once, so it leaves the set with its cell
    have hold : old ∉ rest.filter (· ≠ 0) := (List.nodup_cons.mp hnodup).1
    refine ⟨fun hmem => hx (List.mem_cons_of_mem old hmem), (List.nodup_cons.mp hnodup).2, ?_⟩
    intro y
    rw [Finset.mem_erase, hseen, List.mem_cons]
    exact ⟨fun hy => hy.2.resolve_left hy.1, fun hy => ⟨fun heq => hold (heq ▸ hy), .inr hy⟩⟩

theorem Inv.accept (h : d.Inv n log) (hpos : 0 < x) (hx : x ∉ log.rtake n) :
    ∃ d', d.firstSeen x = some (true, d') ∧ d'.Inv n (log ++ [x]) := by
  -- the cell under the cursor has the oldest id, which the new one displaces
  obtain ⟨old, rest, hold, hring⟩ := rotate_eq_cons h.next
  rw [← h.held] at hx
  obtain ⟨hxrest, hnodup, herased⟩ := h.drop_oldest hring hx
  have hnew : x ∉ d.seen := (h.seen x).not.mpr hx
  have hset : (d.ring.set d.next x).rotate ((d.next + 1) % d.ring.length) = rest ++ [x] := by
    rw [rotate_set h.next, hring, List.tail_cons]
  rw [firstSeen, if_neg hnew, hold, Option.map_some]
  refine ⟨_, rfl, ?_⟩
  have hheld : Dedupe.held
      { seen := insert x (if old ≠ 0 then d.seen.erase old else d.seen)
        ring := d.ring.set d.next x
        next := (d.next + 1) % d.ring.length } = rest.filter (· ≠ 0) ++ [x] := by
    rw [Dedupe.held, hset, List.filter_append]
    simp [hpos.ne']
  constructor
  case pos =>
    intro y hy
    rcases List.mem_append.mp hy with hy | hy
    · exact h.pos y hy
    · exact List.mem_singleton.mp hy ▸ hpos
  case next =>
    rw [List.length_set]
    exact Nat.mod_lt _ (Nat.zero_lt_of_lt h.next)
  case window =>
    have hn : 0 < n := h.length ▸ Nat.zero_lt_of_lt h.next
    rw [hset, window_concat hn, ← h.window, hring, List.tail_cons]
  case seen =>
    intro y
    rw [hheld, Finset.mem_insert, herased, List.mem_append, List.mem_singleton, or_comm]
  case nodup =>
    rw [hheld, ← List.concat_eq_append]
    exact hnodup.concat hxrest

/-- An id is new when it is not among the last accepted ones. -/
theorem Inv.firstSeen (h : d.Inv n log) (hpos : 0 < x) :
    ∃ d', d.firstSeen x = some (decide (x ∉ log.rtake n), d') ∧
      d'.Inv n (log ++ accepted [(x, decide (x ∉ log.rtake n))]) := by
  by_cases hx : x ∈ log.rtake n
  · refine ⟨d, ?_, ?_⟩
    · rw [h.firstSeen_of_mem hx, decide_eq_false (not_not.mpr hx)]
    · simpa [accepted, hx] using h
  · obtain ⟨d', hd', hinv⟩ := h.accept hpos hx
    refine ⟨d', ?_, ?_⟩
    · rw [hd', decide_eq_true hx]
    · simpa [accepted, hx] using hinv

theorem accepted_cons (a : ℤ × Bool) (answers : List (ℤ × Bool)) :
    accepted (a :: answers) = accepted [a] ++ accepted answers := by
  rw [accepted, ← List.singleton_append, List.filter_append, List.map_append]
  rfl

theorem Inv.deliver (h : d.Inv n log) {ids : List ℤ} (hpos : ∀ id ∈ ids, 0 < id) :
    ∃ answers t, d.deliver ids = some (answers, t) ∧ answers.map Prod.fst = ids ∧
      t.Inv n (log ++ accepted answers) := by
  induction ids generalizing d log with
  | nil => exact ⟨[], d, rfl, rfl, (List.append_nil log).symm ▸ h⟩
  | cons id ids ih =>
    obtain ⟨hid, hids⟩ := List.forall_mem_cons.mp hpos
    obtain ⟨d', hd', hinv⟩ := h.firstSeen hid
    obtain ⟨answers, t, ht, hanswers, hinv'⟩ := ih hinv hids
    refine ⟨(id, decide (id ∉ log.rtake n)) :: answers, t, ?_, ?_, ?_⟩
    · simp only [Dedupe.deliver, hd', Option.bind_some, ht, Option.map_some]
    · rw [List.map_cons, hanswers]
    · rw [accepted_cons, ← List.append_assoc]
      exact hinv'

end Dedupe

/-- After any deliveries an id is a duplicate exactly when it is among the last `n` accepted ones;
the set is the non-empty cells of the ring, which are different, and at most `n`. -/
theorem dedupe_window {n : ℕ} (hn : 1 ≤ n) {ids : List ℤ} (hpos : ∀ id ∈ ids, 0 < id) :
    ∃ answers d, (Dedupe.init n).deliver ids = some (answers, d) ∧ answers.map Prod.fst = ids ∧
      (∀ x, 0 < x →
        (d.firstSeen x).map Prod.fst = some (decide (x ∉ (accepted answers).rtake n))) ∧
      d.seen = (d.ring.filter (· ≠ 0)).toFinset ∧ (d.ring.filter (· ≠ 0)).Nodup ∧
      d.seen.card ≤ n := by
  obtain ⟨answers, d, hd, hanswers, hinv⟩ := (Dedupe.inv_init hn).deliver hpos
  rw [List.nil_append] at hinv
  have hperm : d.held.Perm (d.ring.filter (· ≠ 0)) :=
    (List.rotate_perm d.ring d.next).filter _
  have hnodup : (d.ring.filter (· ≠ 0)).Nodup := hperm.nodup_iff.mp hinv.nodup
  have hseen : d.seen = (d.ring.filter (· ≠ 0)).toFinset := by
    ext x
    rw [hinv.seen, List.mem_toFinset, hperm.mem_iff]
  refine ⟨answers, d, hd, hanswers, ?_, hseen, hnodup, ?_⟩
  · intro x hx
    obtain ⟨d', hd', -⟩ := hinv.firstSeen hx
    rw [hd', Option.map_some]
  · rw [hseen, List.toFinset_card_of_nodup hnodup, ← hinv.length]
    exact List.length_filter_le _ _

/-- Five ids in a ring of two, one of them delivered again at once and once more at the end. -/
theorem ringOfTwo_window : ∃ answers d,
    (Dedupe.init 2).deliver [7, 8, 7, 9, 10, 7] = some (answers, d) ∧
      answers.map Prod.snd = [true, true, false, true, true, true] ∧ d.seen.card ≤ 2 := by
  have h : ((Dedupe.init 2).deliver [7, 8, 7, 9, 10, 7]).map (fun r => r.1.map Prod.snd) =
      some [true, true, false, true, true, true] := by decide +kernel
  have hpos : ∀ id ∈ [7, 8, 7, 9, 10, 7], (0 : ℤ) < id := by decide
  obtain ⟨answers, d, hd, -, -, -, -, hcard⟩ := dedupe_window (n := 2) (by decide) hpos
  rw [hd, Option.map_some, Option.some_inj] at h
  exact ⟨answers, d, hd, h, hcard⟩

end Chic.Telegram
