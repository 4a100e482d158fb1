import Chic.Dialog
import Chic.MessageOrder

namespace Chic.Dialog
open AppDb

/-- What `condense_history` reads of the turns after its watermark. -/
def Turn.tail (db : Store) (t : Turn) (upTo : ℕ) : List Message :=
  db.messages.messagesSince t.userId upTo maxUnsummarizedScan

abbrev World.write (w : World) (i : ℕ) (t : Turn) (role : Role) (content : String)
    (rest : List (Role × String)) : World :=
  { w.setTurn i (t.persist rest) with
    db := w.db.appendMessage t.userId role content
    author := Function.update w.author (w.db.messages.lastId + 1) (some i) }

/-- Every way for a step to go, with the guard it took. -/
inductive Moves (w : World) : Event → World → Prop
  | begun (i userId cfg text image) (h : w.turns i = none) :
    Moves w (.begin i userId cfg text image) (w.setTurn i { userId, cfg, text, image })
  | reset (userId) : Moves w (.reset userId) (w.reset userId)
  | epoch {i t} (ht : w.turns i = some t) (hpc : t.pc = .start) :
    Moves w (.advance i)
      (w.setTurn i { t with epoch := w.db.messages.sessionEpoch t.userId, pc := .condensing })
  | recent {i t} (ht : w.turns i = some t) (hpc : t.pc = .condensing)
    (hb : t.cfg.summaryCharBudget < 0) :
    Moves w (.advance i) (w.setTurn i
      { t with pc := .running "" (w.db.messages.recentMessages t.userId t.cfg.historyDepth) })
  | watermark {i t summary upTo} (ht : w.turns i = some t) (hpc : t.pc = .condensing)
    (hb : 0 ≤ t.cfg.summaryCharBudget)
    (hmark : Dialog.watermark w.db t.userId t.epoch = (summary, upTo)) :
    Moves w (.advance i) (w.setTurn i { t with pc := .scanning summary upTo })
  | fits {i t summary upTo} (ht : w.turns i = some t) (hpc : t.pc = .scanning summary upTo)
    (hplan : condensePlan t.cfg.summaryCharBudget (t.tail w.db upTo) = none) :
    Moves w (.advance i) (w.setTurn i { t with pc := .running summary (t.tail w.db upTo) })
  | cut {i t summary upTo foldable recent} (ht : w.turns i = some t)
    (hpc : t.pc = .scanning summary upTo)
    (hplan : condensePlan t.cfg.summaryCharBudget (t.tail w.db upTo) = some (foldable, recent)) :
    Moves w (.advance i) (w.setTurn i { t with pc := .summarising summary foldable recent })
  | stored {i t next upTo recent} (ht : w.turns i = some t)
    (hpc : t.pc = .storing next upTo recent) :
    Moves w (.advance i)
      { w.setTurn i { t with pc := .running next recent } with
        db := w.db.putSessionSummary t.userId t.epoch next upTo }
  | persisted {i t role content rest} (ht : w.turns i = some t)
    (hpc : t.pc = .persisting ((role, content) :: rest)) :
    Moves w (.advance i)
      { w.setTurn i (t.persist rest) with
        db := w.db.appendMessage t.userId role content
        author := Function.update w.author (w.db.messages.lastId + 1) (some i) }
  | declined {i t reply prev foldable recent} (ht : w.turns i = some t)
    (hpc : t.pc = .summarising prev foldable recent) (hreply : summaryText reply = "") :
    Moves w (.summarised i reply)
      { w.setTurn i { t with pc := .running prev recent } with
        asked := w.asked ++ [(summaryPrompt prev foldable, reply)] }
  | condensed {i t reply prev foldable recent} (ht : w.turns i = some t)
    (hpc : t.pc = .summarising prev foldable recent) (hreply : summaryText reply ≠ "") :
    Moves w (.summarised i reply)
      { w.setTurn i
          { t with
            pc := .storing (summaryText reply) ((foldable.getLast?.map (·.id)).getD 0) recent } with
        asked := w.asked ++ [(summaryPrompt prev foldable, reply)] }
  | answered {i t summary history outcome pending} (ht : w.turns i = some t)
    (hpc : t.pc = .running summary history)
    (hout : ∃ answer, (outcome = .answer answer ∨ outcome = .clarify answer) ∧
      pending = t.pending (PyText.strip answer)) :
    Moves w (.ran i outcome) (w.setTurn i (t.persist pending))
  | failed {i t summary history outcome} (ht : w.turns i = some t)
    (hpc : t.pc = .running summary history) (hout : outcome = .usageLimit ∨ outcome = .raised) :
    Moves w (.ran i outcome) (w.setTurn i { t with pc := .finished })
  | raised {i t} (ht : w.turns i = some t)
    (hpc : t.pc = .start ∨ t.pc = .condensing ∨ (∃ s k, t.pc = .scanning s k) ∨
      ∃ n k r, t.pc = .storing n k r) :
    Moves w (.raises i) (w.setTurn i { t with pc := .finished })
  | skipped {i t p rest} (ht : w.turns i = some t) (hpc : t.pc = .persisting (p :: rest)) :
    Moves w (.raises i) (w.setTurn i (t.persist rest))

theorem advance_moves {w w' : World} {i : ℕ} {t : Turn} (ht : w.turns i = some t)
    (h : w.advance i t = some w') : Moves w (.advance i) w' := by
  unfold World.advance at h
  split at h
  case h_1 hpc => cases h; exact .epoch ht hpc
  case h_2 hpc =>
    split at h
    case isTrue hb => cases h; exact .recent ht hpc hb
    case isFalse hb => cases h; exact .watermark ht hpc (not_lt.mp hb) rfl
  case h_3 summary upTo hpc =>
    dsimp only at h
    split at h
    case h_1 hplan => cases h; exact .fits ht hpc hplan
    case h_2 foldable recent hplan => cases h; exact .cut ht hpc hplan
  case h_4 hpc => cases h; exact .stored ht hpc
  case h_5 hpc => cases h; exact .persisted ht hpc
  case h_6 => cases h

theorem summarised_moves {w w' : World} {i : ℕ} {t : Turn} {reply : Option String}
    (ht : w.turns i = some t) (h : w.summarised i t reply = some w') :
    Moves w (.summarised i reply) w' := by
  unfold World.summarised at h
  split at h
  case h_1 prev foldable recent hpc =>
    cases h
    by_cases hreply : summaryText reply = ""
    · simpa only [hreply, if_true] using Moves.declined ht hpc hreply
    · simpa only [hreply, if_false] using Moves.condensed ht hpc hreply
  case h_2 => cases h

theorem ran_moves {w w' : World} {i : ℕ} {t : Turn} {outcome : RunOutcome}
    (ht : w.turns i = some t) (h : w.ran i t outcome = some w') : Moves w (.ran i outcome) w' := by
  cases hpc : t.pc with
  | running summary history =>
    cases outcome with
    | answer output =>
      simp only [World.ran, hpc, Option.some.injEq] at h
      exact h ▸ .answered ht hpc ⟨output, .inl rfl, rfl⟩
    | clarify question =>
      simp only [World.ran, hpc, Option.some.injEq] at h
      exact h ▸ .answered ht hpc ⟨question, .inr rfl, rfl⟩
    | usageLimit =>
      simp only [World.ran, hpc, Option.some.injEq] at h
      exact h ▸ .failed ht hpc (.inl rfl)
    | raised =>
      simp only [World.ran, hpc, Option.some.injEq] at h
      exact h ▸ .failed ht hpc (.inr rfl)
  | _ => simp [World.ran, hpc] at h

theorem raises_moves {w w' : World} {i : ℕ} {t : Turn} (ht : w.turns i = some t)
    (h : w.raises i t = some w') : Moves w (.raises i) w' := by
  unfold World.raises at h
  split at h
  case h_1 hpc => cases h; exact .raised ht (.inl hpc)
  case h_2 hpc => cases h; exact .raised ht (.inr (.inl hpc))
  case h_3 s k hpc => cases h; exact .raised ht (.inr (.inr (.inl ⟨s, k, hpc⟩)))
  case h_4 n k r hpc => cases h; exact .raised ht (.inr (.inr (.inr ⟨n, k, r, hpc⟩)))
  case h_5 hpc => cases h; exact .skipped ht hpc
  case h_6 => cases h

theorem step_moves {w w' : World} {e : Event} (h : step w e = some w') : Moves w e w' := by
  cases e with
  | begin i userId cfg text image =>
    dsimp only [step] at h
    split at h
    case isTrue => cases h
    case isFalse hi => cases h; exact .begun i _ _ _ _ (Option.not_isSome_iff_eq_none.mp hi)
  | reset userId => cases h; exact .reset userId
  | advance i =>
    obtain ⟨t, ht, h⟩ := Option.bind_eq_some_iff.mp h
    exact advance_moves ht h
  | summarised i reply =>
    obtain ⟨t, ht, h⟩ := Option.bind_eq_some_iff.mp h
    exact summarised_moves ht h
  | ran i outcome =>
    obtain ⟨t, ht, h⟩ := Option.bind_eq_some_iff.mp h
    exact ran_moves ht h
  | raises i =>
    obtain ⟨t, ht, h⟩ := Option.bind_eq_some_iff.mp h
    exact raises_moves ht h

theorem step_of_moves {w w' : World} {e : Event} (h : Moves w e w') : step w e = some w' := by
  cases h with
  | begun _ _ _ _ _ h => simp [step, h]
  | reset => rfl
  | epoch ht hpc => simp [step, ht, World.advance, hpc]
  | recent ht hpc hb => simp [step, ht, World.advance, hpc, hb]
  | watermark ht hpc hb hmark => simp [step, ht, World.advance, hpc, not_lt.mpr hb, hmark]
  | fits ht hpc hplan | cut ht hpc hplan =>
    rw [Turn.tail] at hplan
    simp [step, ht, World.advance, hpc, hplan, Turn.tail]
  | stored ht hpc | persisted ht hpc => simp [step, ht, World.advance, hpc]
  | declined ht hpc hreply | condensed ht hpc hreply =>
    simp [step, ht, World.summarised, hpc, hreply]
  | answered ht hpc hout =>
    obtain ⟨answer, rfl | rfl, rfl⟩ := hout <;> simp [step, ht, World.ran, hpc]
  | failed ht hpc hout =>
    rcases hout with rfl | rfl <;> simp [step, ht, World.ran, hpc]
  | raised ht hpc =>
    obtain hpc | hpc | ⟨_, _, hpc⟩ | ⟨_, _, _, hpc⟩ := hpc <;>
      simp [step, ht, World.raises, hpc]
  | skipped ht hpc => simp [step, ht, World.raises, hpc]

theorem setTurn_turns (w : World) (i j : ℕ) (t : Turn) :
    (w.setTurn i t).turns j = if j = i then some t else w.turns j := by
  simp [World.setTurn, Function.update_apply]

theorem setTurn_setTurn (w : World) (i : ℕ) (t t' : Turn) :
    (w.setTurn i t).setTurn i t' = w.setTurn i t' := by
  simp only [World.setTurn, Function.update_idem]

@[simp] theorem setTurn_db (w : World) (i : ℕ) (t : Turn) : (w.setTurn i t).db = w.db := rfl

section Write
variable {w : World} {i j : ℕ} {t t' : Turn} {role : Role} {content : String}
  {rest : List (Role × String)} {r : MessageRow}

theorem write_turns : (w.write i t role content rest).turns j =
    if j = i then some (t.persist rest) else w.turns j :=
  setTurn_turns w i j _

/-- A write moves no turn but its own, and that one only on. -/
theorem write_turn (ht : w.turns i = some t) (ht' : w.turns j = some t') :
    ∃ t₁, (w.write i t role content rest).turns j = some t₁ ∧ t₁.userId = t'.userId ∧
      t₁.stored = t'.stored := by
  rw [write_turns]
  split_ifs with hji
  · rw [hji, ht] at ht'
    cases ht'
    exact ⟨_, rfl, rfl, rfl⟩
  · exact ⟨t', ht', rfl, rfl⟩

theorem write_author (hr : r ∈ (w.write i t role content rest).db.messages.rows)
    (hj : (w.write i t role content rest).author r.id = some j) :
    (r ∈ w.db.messages.rows ∧ w.author r.id = some j) ∨
      (r = ⟨w.db.messages.lastId + 1, t.userId, role, content⟩ ∧ j = i) := by
  rcases Messages.author_append hr with ⟨hr, hauthor⟩ | ⟨hr, hauthor⟩
  · exact .inl ⟨hr, hauthor.symm.trans hj⟩
  · exact .inr ⟨hr, Option.some.inj (hj.symm.trans hauthor)⟩

end Write

end Chic.Dialog
