import Chic.SummaryFolding

namespace Chic.Dialog
open AppDb

/-- The agent run is over, or will not come. -/
def TurnPc.decided : TurnPc → Bool
  | .finished | .persisting _ => true
  | _ => false

/-- What a turn is about stays as it is. -/
structure Turn.Kept (t t' : Turn) : Prop where
  userId : t'.userId = t.userId
  text : t'.text = t.text
  image : t'.image = t.image

inductive Progress (e : Event) (i : ℕ) (t : Turn) : TurnPc → Prop
  | same : Progress e i t t.pc
  | reading {pc} (h : t.pc.decided = false) (hpc : pc.decided = false) : Progress e i t pc
  | raised (he : e = .raises i) (h : t.pc.decided = false) : Progress e i t .finished
  | failed {outcome} (he : e = .ran i outcome) (h : t.pc.decided = false)
    (hout : outcome = .usageLimit ∨ outcome = .raised) : Progress e i t .finished
  | answered {outcome answer} (he : e = .ran i outcome) (h : t.pc.decided = false)
    (hout : outcome = .answer answer ∨ outcome = .clarify answer) :
    Progress e i t (t.persist (t.pending (PyText.strip answer))).pc
  | wrote {p rest} (hpc : t.pc = .persisting (p :: rest)) : Progress e i t (t.persist rest).pc

section
variable {w w' : World} {e : Event} {i j : ℕ} {t t' t₀ t₁ : Turn}

theorem Turn.Kept.refl (t : Turn) : t.Kept t := ⟨rfl, rfl, rfl⟩

theorem Turn.Kept.stored (h : t.Kept t') : t'.stored = t.stored := by
  rw [Turn.stored, Turn.stored, h.text, h.image]

theorem Turn.kept_persist (pending : List (Role × String)) : t.Kept (t.persist pending) :=
  ⟨rfl, rfl, rfl⟩

theorem setTurn_progress (ht₀ : w.turns j = some t₀) (hkept : t₀.Kept t₁)
    (hpc : Progress e j t₀ t₁.pc) (ht : w.turns i = some t) :
    ∃ t', (w.setTurn j t₁).turns i = some t' ∧ t.Kept t' ∧ Progress e i t t'.pc := by
  rw [setTurn_turns]
  split_ifs with hij
  · subst hij
    rw [ht₀] at ht
    cases ht
    exact ⟨t₁, rfl, hkept, hpc⟩
  · exact ⟨t, ht, Turn.Kept.refl t, .same⟩

theorem turn_step (h : step w e = some w') (ht : w.turns i = some t) :
    ∃ t', w'.turns i = some t' ∧ t.Kept t' ∧ Progress e i t t'.pc := by
  cases step_moves h with
  | begun j userId cfg text image hj =>
    rw [setTurn_turns, if_neg (by rintro rfl; rw [hj] at ht; cases ht)]
    exact ⟨t, ht, Turn.Kept.refl t, .same⟩
  | reset userId =>
    dsimp only [World.reset]
    rw [ht, Option.map_some]
    refine ⟨_, rfl, ?_⟩
    split
    · exact ⟨Turn.Kept.refl t, .same⟩
    · split_ifs
      · exact ⟨⟨rfl, rfl, rfl⟩, .same⟩
      · exact ⟨Turn.Kept.refl t, .same⟩
  | epoch hj hpc => exact setTurn_progress hj ⟨rfl, rfl, rfl⟩ (.reading (by rw [hpc]; rfl) rfl) ht
  | recent hj hpc => exact setTurn_progress hj ⟨rfl, rfl, rfl⟩ (.reading (by rw [hpc]; rfl) rfl) ht
  | watermark hj hpc =>
    exact setTurn_progress hj ⟨rfl, rfl, rfl⟩ (.reading (by rw [hpc]; rfl) rfl) ht
  | fits hj hpc => exact setTurn_progress hj ⟨rfl, rfl, rfl⟩ (.reading (by rw [hpc]; rfl) rfl) ht
  | cut hj hpc => exact setTurn_progress hj ⟨rfl, rfl, rfl⟩ (.reading (by rw [hpc]; rfl) rfl) ht
  | stored hj hpc => exact setTurn_progress hj ⟨rfl, rfl, rfl⟩ (.reading (by rw [hpc]; rfl) rfl) ht
  | persisted hj hpc => exact setTurn_progress hj (Turn.kept_persist _) (.wrote hpc) ht
  | declined hj hpc => exact setTurn_progress hj ⟨rfl, rfl, rfl⟩ (.reading (by rw [hpc]; rfl) rfl) ht
  | condensed hj hpc =>
    exact setTurn_progress hj ⟨rfl, rfl, rfl⟩ (.reading (by rw [hpc]; rfl) rfl) ht
  | answered hj hpc hout =>
    obtain ⟨answer, hanswer, rfl⟩ := hout
    exact setTurn_progress hj (Turn.kept_persist _)
      (.answered rfl (by rw [hpc]; rfl) hanswer) ht
  | failed hj hpc hout =>
    exact setTurn_progress hj ⟨rfl, rfl, rfl⟩ (.failed rfl (by rw [hpc]; rfl) hout) ht
  | raised hj hpc =>
    refine setTurn_progress hj ⟨rfl, rfl, rfl⟩ (.raised rfl ?_) ht
    obtain hpc | hpc | ⟨_, _, hpc⟩ | ⟨_, _, _, hpc⟩ := hpc <;> (rw [hpc]; rfl)
  | skipped hj hpc => exact setTurn_progress hj (Turn.kept_persist _) (.wrote hpc) ht

theorem new_turn (h : step w e = some w') (hnone : w.turns i = none) (ht' : w'.turns i = some t') :
    ∃ userId cfg text image, e = .begin i userId cfg text image ∧
      t' = { userId, cfg, text, image } := by
  have hset {j : ℕ} {t₁ : Turn} (hj : ∃ t₀, w.turns j = some t₀)
      (h : (w.setTurn j t₁).turns i = some t') : False := by
    obtain ⟨t₀, hj⟩ := hj
    rw [setTurn_turns] at h
    split_ifs at h with hij
    · rw [hij, hj] at hnone
      cases hnone
    · rw [hnone] at h
      cases h
  cases step_moves h with
  | begun j userId cfg text image hj =>
    rw [setTurn_turns] at ht'
    split_ifs at ht' with hij
    · subst hij
      cases ht'
      exact ⟨userId, cfg, text, image, rfl, rfl⟩
    · rw [hnone] at ht'
      cases ht'
  | reset userId =>
    dsimp only [World.reset] at ht'
    rw [hnone] at ht'
    cases ht'
  | epoch hj | recent hj | watermark hj | fits hj | cut hj | stored hj | persisted hj | declined hj
  | condensed hj | answered hj | failed hj | raised hj | skipped hj => exact (hset ⟨_, hj⟩ ht').elim

theorem decided_persist (pending : List (Role × String)) : (t.persist pending).pc.decided = true := by
  unfold Turn.persist
  dsimp only
  split_ifs <;> rfl

theorem Progress.of_finished {pc : TurnPc} (h : Progress e i t pc) (ht : t.pc = .finished) :
    pc = .finished := by
  cases h with
  | same => exact ht
  | reading hnot | answered he hnot => simp [ht, TurnPc.decided] at hnot
  | raised | failed => rfl
  | wrote hpc => simp [ht] at hpc

theorem Progress.of_decided {pc : TurnPc} (h : Progress e i t pc) (ht : t.pc.decided = true) :
    pc.decided = true := by
  cases h with
  | same => exact ht
  | reading hnot => simp [ht] at hnot
  | raised | failed => rfl
  | answered => exact decided_persist _
  | wrote => exact decided_persist _

/-- A step stores nothing, a boundary, or the next text of a turn. -/
theorem messages_step (h : step w e = some w') : w'.db.messages = w.db.messages ∨
    (∃ u, e = .reset u ∧ w'.db.messages = w.db.messages.append u .reset "") ∨
      ∃ i t role content rest, w.turns i = some t ∧ t.pc = .persisting ((role, content) :: rest) ∧
        w'.db.messages = w.db.messages.append t.userId role content := by
  cases step_moves h with
  | reset u => exact .inr (.inl ⟨u, rfl, rfl⟩)
  | persisted hj hpc => exact .inr (.inr ⟨_, _, _, _, _, hj, hpc, rfl⟩)
  | _ => exact .inl rfl

/-- What a step does to turns and messages. Doing nothing is such a step as well. -/
structure Advances (e : Event) (w w' : World) : Prop where
  turn : ∀ i t, w.turns i = some t → ∃ t', w'.turns i = some t' ∧ t.Kept t' ∧ Progress e i t t'.pc
  new : ∀ i t', w.turns i = none → w'.turns i = some t' →
    ∃ userId cfg text image, e = .begin i userId cfg text image ∧ t' = { userId, cfg, text, image }
  messages : w'.db.messages = w.db.messages ∨
    (∃ u, e = .reset u ∧ w'.db.messages = w.db.messages.append u .reset "") ∨
      ∃ i t role content rest, w.turns i = some t ∧ t.pc = .persisting ((role, content) :: rest) ∧
        w'.db.messages = w.db.messages.append t.userId role content

theorem advances_of_step (h : step w e = some w') : Advances e w w' :=
  ⟨fun _ _ => turn_step h, fun _ _ => new_turn h, messages_step h⟩

theorem advances_refl (e : Event) (w : World) : Advances e w w where
  turn _ t ht := ⟨t, ht, Turn.Kept.refl t, .same⟩
  new _ t' hnone ht' := by
    rw [hnone] at ht'
    cases ht'
  messages := .inl rfl

theorem ran_decides {outcome : RunOutcome} (h : step w (.ran i outcome) = some w') :
    ∃ t t', w.turns i = some t ∧ t.pc.decided = false ∧ w'.turns i = some t' ∧
      t'.pc.decided = true := by
  have hset {t₁ : Turn} : (w.setTurn i t₁).turns i = some t₁ := by rw [setTurn_turns, if_pos rfl]
  cases step_moves h with
  | answered hj hpc => exact ⟨_, _, hj, by rw [hpc]; rfl, hset, decided_persist _⟩
  | failed hj hpc => exact ⟨_, _, hj, by rw [hpc]; rfl, hset, rfl⟩

end

def TurnPc.read : TurnPc → List Message
  | .summarising _ foldable recent => foldable ++ recent
  | .storing _ _ recent => recent
  | .running _ history => history
  | _ => []

def Reads (w : World) : Prop := ∀ i t, w.turns i = some t → ∀ x ∈ t.pc.read,
  ∃ r ∈ w.db.messages.rows, r.userId = t.userId ∧ r.message = x

section
variable {w w' : World} {e : Event} {i j : ℕ} {t t' : Turn} {u : UserId} {x : Message}

theorem read_persist (pending : List (Role × String)) : (t.persist pending).pc.read = [] := by
  unfold Turn.persist
  dsimp only
  split_ifs <;> rfl

theorem rows_mono (h : step w e = some w') {r : MessageRow} (hr : r ∈ w.db.messages.rows) :
    r ∈ w'.db.messages.rows := by
  rcases messages_step h with hsame | ⟨u, -, happend⟩ | ⟨i, t, role, content, rest, -, -, happend⟩
  · rw [hsame]
    exact hr
  · rw [happend]
    exact List.mem_append_left _ hr
  · rw [happend]
    exact List.mem_append_left _ hr

theorem mem_recentMessages {m : Messages} {n : ℤ} (h : x ∈ m.recentMessages u n) :
    ∃ r ∈ m.rows, r.userId = u ∧ r.message = x := by
  unfold Messages.recentMessages at h
  split_ifs at h
  · cases h
  · obtain ⟨r, hr, rfl⟩ := List.mem_map.mp h
    have hmem := List.mem_filter.mp (List.mem_reverse.mp (List.mem_of_mem_take (List.mem_reverse.mp hr)))
    exact ⟨r, hmem.1, (of_decide_eq_true hmem.2).1, rfl⟩

theorem mem_tail {db : Store} {upTo : ℕ} (h : x ∈ t.tail db upTo) :
    ∃ r ∈ db.messages.rows, r.userId = t.userId ∧ r.message = x := by
  unfold Turn.tail Messages.messagesSince at h
  split_ifs at h
  · cases h
  · obtain ⟨r, hr, rfl⟩ := List.mem_map.mp (List.mem_of_mem_take h)
    have hmem := List.mem_filter.mp hr
    exact ⟨r, hmem.1, (of_decide_eq_true hmem.2).1, rfl⟩

theorem mem_condensePlan {budget : ℤ} {tail foldable recent : List Message}
    (h : condensePlan budget tail = some (foldable, recent)) (hx : x ∈ foldable ++ recent) :
    x ∈ tail := by
  unfold condensePlan at h
  dsimp only at h
  split_ifs at h
  cases h
  rwa [List.take_append_drop] at hx

theorem Reads.step (hw : Reads w) (h : Dialog.step w e = some w') : Reads w' := by
  have hset {j : ℕ} {t₁ : Turn} (hturns : ∀ i, w'.turns i = if i = j then some t₁ else w.turns i)
      (hread : ∀ x ∈ t₁.pc.read, ∃ r ∈ w.db.messages.rows, r.userId = t₁.userId ∧ r.message = x) :
      Reads w' := by
    intro i t ht x hx
    rw [hturns] at ht
    have hrow : ∃ r ∈ w.db.messages.rows, r.userId = t.userId ∧ r.message = x := by
      split_ifs at ht
      · cases ht
        exact hread x hx
      · exact hw i t ht x hx
    obtain ⟨r, hr, hown⟩ := hrow
    exact ⟨r, rows_mono h hr, hown⟩
  have hnone {t₁ : Turn} (h : t₁.pc.read = []) : ∀ x ∈ t₁.pc.read,
      ∃ r ∈ w.db.messages.rows, r.userId = t₁.userId ∧ r.message = x := by
    intro x hx
    rw [h] at hx
    cases hx
  -- a turn keeps what it has read or reads stored rows, and rows are never deleted
  cases step_moves h with
  | begun j => exact hset (fun i => setTurn_turns w j i _) (hnone rfl)
  | reset u =>
    intro i t ht x hx
    obtain ⟨t₀, ht₀, hu, -, hpc, -⟩ := reset_turns ht
    rw [hpc] at hx
    obtain ⟨r, hr, hown⟩ := hw i t₀ ht₀ x hx
    exact ⟨r, List.mem_append_left _ hr, hu ▸ hown⟩
  | epoch hj => exact hset (fun i => setTurn_turns w _ i _) (hnone rfl)
  | recent hj hpc =>
    exact hset (fun i => setTurn_turns w _ i _) fun x hx => mem_recentMessages hx
  | watermark hj => exact hset (fun i => setTurn_turns w _ i _) (hnone rfl)
  | fits hj hpc =>
    exact hset (fun i => setTurn_turns w _ i _) fun x hx => mem_tail hx
  | cut hj hpc hplan =>
    exact hset (fun i => setTurn_turns w _ i _) fun x hx =>
      mem_tail (mem_condensePlan hplan hx)
  | stored hj hpc =>
    refine hset (fun i => setTurn_turns w _ i _) fun x hx => hw _ _ hj x ?_
    rw [hpc]
    exact hx
  | persisted hj hpc => exact hset (fun i => setTurn_turns w _ i _) (hnone (read_persist _))
  | declined hj hpc =>
    refine hset (fun i => setTurn_turns w _ i _) fun x hx => hw _ _ hj x ?_
    rw [hpc]
    exact List.mem_append_right _ hx
  | condensed hj hpc =>
    refine hset (fun i => setTurn_turns w _ i _) fun x hx => hw _ _ hj x ?_
    rw [hpc]
    exact List.mem_append_right _ hx
  | answered hj hpc => exact hset (fun i => setTurn_turns w _ i _) (hnone (read_persist _))
  | failed hj hpc => exact hset (fun i => setTurn_turns w _ i _) (hnone rfl)
  | raised hj hpc => exact hset (fun i => setTurn_turns w _ i _) (hnone rfl)
  | skipped hj hpc => exact hset (fun i => setTurn_turns w _ i _) (hnone (read_persist _))

end

end Chic.Dialog
