import Chic.DialogMoves
import Chic.MessageOrder

namespace Chic.Dialog
open AppDb Trace

/-- A summary that came out of folding rows, chunk after chunk, each chunk in one summariser
call together with the summary before it. -/
inductive Folded (asked : List (String × Option String)) : String → List Message → Prop
  | nil : Folded asked "" []
  | fold {prev rows msgs reply} (before : Folded asked prev rows) (hne : msgs ≠ [])
    (hasked : (summaryPrompt prev msgs, reply) ∈ asked) (hreply : summaryText reply ≠ "") :
    Folded asked (summaryText reply) (rows ++ msgs)

theorem Folded.mono {asked asked' : List (String × Option String)} (hsub : asked ⊆ asked')
    {s : String} {rows : List Message} (h : Folded asked s rows) : Folded asked' s rows := by
  induction h with
  | nil => exact .nil
  | fold _ hne hasked hreply ih => exact .fold ih hne (hsub hasked) hreply

/-- Summary `s` stands for exactly the user's turns with `epoch < id ≤ upTo`. -/
structure Covers (w : World) (u : UserId) (epoch : ℕ) (s : String) (upTo : ℕ) : Prop where
  epoch_le : epoch ≤ upTo
  le_lastId : upTo ≤ w.db.messages.lastId
  folded : Folded w.asked s (w.db.messages.chatBetween u epoch upTo)

/-- Later states have what earlier ones had: ids are not reused and calls are not forgotten. -/
structure Extends (w w' : World) : Prop where
  lastId_le : w.db.messages.lastId ≤ w'.db.messages.lastId
  chatSince_grows : ∀ u since,
    w.db.messages.chatSince u since <+: w'.db.messages.chatSince u since
  chatBetween_eq : ∀ u lo hi, hi ≤ w.db.messages.lastId →
    w'.db.messages.chatBetween u lo hi = w.db.messages.chatBetween u lo hi
  asked_subset : w.asked ⊆ w'.asked

section
variable {w w' : World}

theorem Extends.of_messages_eq (hm : w'.db.messages = w.db.messages)
    (hsub : w.asked ⊆ w'.asked) : Extends w w' := by
  refine ⟨?_, ?_, ?_, hsub⟩
  · rw [hm]
  · intro u since
    rw [hm]
  · intro u lo hi _
    rw [hm]

theorem Extends.of_append {u : UserId} {role : Role} {content : String}
    (hm : w'.db.messages = w.db.messages.append u role content) (hasked : w'.asked = w.asked) :
    Extends w w' := by
  refine ⟨?_, ?_, ?_, ?_⟩
  · rw [hm, Messages.lastId_append]
    exact Nat.le_succ _
  · intro u since
    rw [hm]
    exact Messages.chatSince_prefix_append since
  · intro u lo hi hhi
    rw [hm, Messages.chatBetween_append hhi]
  · rw [hasked]
    exact List.Subset.refl _

theorem Moves.extends {e : Event} (h : Moves w e w') : Extends w w' := by
  cases h with
  | reset => exact .of_append rfl rfl
  | persisted => exact .of_append rfl rfl
  | declined | condensed => exact .of_messages_eq rfl (List.subset_append_left _ _)
  | _ => exact .of_messages_eq rfl (List.Subset.refl _)

variable {u : UserId} {epoch upTo : ℕ} {s : String}

theorem Covers.mono (hext : Extends w w') (h : Covers w u epoch s upTo) :
    Covers w' u epoch s upTo := by
  refine ⟨h.epoch_le, h.le_lastId.trans hext.lastId_le, ?_⟩
  rw [hext.chatBetween_eq u epoch upTo h.le_lastId]
  exact h.folded.mono hext.asked_subset

theorem Covers.fresh (h : epoch ≤ w.db.messages.lastId) : Covers w u epoch "" epoch := by
  refine ⟨le_rfl, h, ?_⟩
  rw [Messages.chatBetween_self]
  exact .nil

/-- The turns after a watermark that a fold leaves alone. -/
def KeepsRecent (w : World) (u : UserId) (upTo : ℕ) : Prop :=
  summaryKeepRecent ≤ (w.db.messages.chatSince u upTo).length

theorem KeepsRecent.mono (hext : Extends w w') (h : KeepsRecent w u upTo) :
    KeepsRecent w' u upTo :=
  h.trans (hext.chatSince_grows u upTo).length_le

/-- A summary with the watermark that a turn may start from. -/
def Marks (w : World) (u : UserId) (epoch : ℕ) (s : String) (upTo : ℕ) : Prop :=
  Covers w u epoch s upTo ∧ (upTo = epoch ∨ KeepsRecent w u upTo)

/-- A summary with its watermark as a fold writes it. -/
def Stores (w : World) (u : UserId) (epoch : ℕ) (s : String) (upTo : ℕ) : Prop :=
  Covers w u epoch s upTo ∧ KeepsRecent w u upTo

theorem Marks.mono (hext : Extends w w') (h : Marks w u epoch s upTo) :
    Marks w' u epoch s upTo :=
  ⟨h.1.mono hext, h.2.imp_right fun hk => hk.mono hext⟩

theorem Stores.mono (hext : Extends w w') (h : Stores w u epoch s upTo) :
    Stores w' u epoch s upTo :=
  ⟨h.1.mono hext, h.2.mono hext⟩

/-- What a turn holds at each of its awaits about the summary it goes by. -/
def PcOk (w : World) (u : UserId) (epoch : ℕ) : TurnPc → Prop
  | .condensing => epoch ≤ w.db.messages.lastId
  | .scanning s upTo => Marks w u epoch s upTo
  | .summarising prev foldable recent =>
    ∃ upTo, Covers w u epoch prev upTo ∧
      (foldable ++ recent) <+: w.db.messages.chatSince u upTo ∧ foldable ≠ [] ∧
      recent.length = summaryKeepRecent
  | .storing s upTo _ => Stores w u epoch s upTo
  | _ => True

theorem PcOk.mono (hext : Extends w w') {pc : TurnPc} (h : PcOk w u epoch pc) :
    PcOk w' u epoch pc := by
  cases pc with
  | condensing => exact h.trans hext.lastId_le
  | scanning s upTo => exact Marks.mono hext h
  | summarising prev foldable recent =>
    obtain ⟨upTo, hcov, hpre, hne, hlen⟩ := h
    exact ⟨upTo, hcov.mono hext, hpre.trans (hext.chatSince_grows u upTo), hne, hlen⟩
  | storing s upTo recent => exact Stores.mono hext h
  | _ => trivial

end

/-- Every summary row, stored or about to be, stands for exactly the rows up to its
watermark. -/
structure Inv (w : World) : Prop where
  summaries : ∀ u epoch s upTo, w.db.sessionSummary.get? (u, epoch) = some (s, upTo) →
    Stores w u epoch s upTo
  turns : ∀ i t, w.turns i = some t → PcOk w t.userId t.epoch t.pc

theorem inv_init : Inv World.init :=
  ⟨fun _ _ _ _ h => (by cases h), fun _ _ h => (by cases h)⟩

section
variable {w w' : World}

theorem watermark_marks (hw : Inv w) {u : UserId} {epoch : ℕ}
    (hle : epoch ≤ w.db.messages.lastId) {s : String} {upTo : ℕ}
    (hmark : watermark w.db u epoch = (s, upTo)) : Marks w u epoch s upTo := by
  unfold watermark Store.getSessionSummary at hmark
  cases hget : w.db.sessionSummary.get? (u, epoch) with
  | none =>
    simp only [hget, Option.getD_none, Nat.zero_max, Prod.mk.injEq] at hmark
    obtain ⟨rfl, rfl⟩ := hmark
    exact ⟨.fresh hle, .inl rfl⟩
  | some row =>
    obtain ⟨hcov, hkeep⟩ := hw.summaries u epoch row.1 row.2 hget
    simp only [hget, Option.getD_some, Prod.mk.injEq, max_eq_left hcov.epoch_le] at hmark
    obtain ⟨rfl, rfl⟩ := hmark
    exact ⟨hcov, .inr hkeep⟩

theorem messagesSince_prefix_chatSince (m : Messages) (u : UserId) (since : ℕ) (limit : ℤ) :
    m.messagesSince u since limit <+: m.chatSince u since := by
  unfold Messages.messagesSince
  split_ifs
  · exact List.nil_prefix
  · exact List.take_prefix _ _

theorem condensePlan_some {budget : ℤ} {tail foldable recent : List Message}
    (h : condensePlan budget tail = some (foldable, recent)) :
    foldable ++ recent = tail ∧ foldable ≠ [] ∧ recent.length = summaryKeepRecent := by
  dsimp only [condensePlan] at h
  split_ifs at h with hfit
  obtain ⟨-, hlen⟩ := not_or.mp hfit
  rw [not_le] at hlen
  cases h
  refine ⟨List.take_append_drop _ _, ?_, ?_⟩
  · apply List.ne_nil_of_length_pos
    rw [List.length_take]
    omega
  · rw [List.length_drop]
    omega

/-- Storing after a fold: the watermark moves to the last folded row. -/
theorem stores_of_fold {u : UserId} {epoch upTo : ℕ} {prev : String}
    {foldable recent : List Message} {reply : Option String} (hcov : Covers w u epoch prev upTo)
    (hpre : (foldable ++ recent) <+: w.db.messages.chatSince u upTo) (hne : foldable ≠ [])
    (hlen : recent.length = summaryKeepRecent)
    (hasked : (summaryPrompt prev foldable, reply) ∈ w.asked) (hreply : summaryText reply ≠ "") :
    Stores w u epoch (summaryText reply) ((foldable.getLast?.map (·.id)).getD 0) := by
  obtain ⟨rest, hrest⟩ := hpre
  have hlast := List.getLast?_eq_some_getLast hne
  rw [List.append_assoc] at hrest
  obtain ⟨hbetween, hsince, hlt, hle⟩ :=
    Messages.chat_fold hcov.epoch_le hlast hrest.symm
  rw [hlast]
  refine ⟨⟨hcov.epoch_le.trans hlt.le, hle, ?_⟩, ?_⟩
  · change Folded w.asked _ (w.db.messages.chatBetween u epoch (foldable.getLast hne).id)
    rw [hbetween]
    exact .fold hcov.folded hne hasked hreply
  · change summaryKeepRecent ≤ (w.db.messages.chatSince u (foldable.getLast hne).id).length
    rw [hsince, List.length_append, hlen]
    exact Nat.le_add_right _ _

theorem Inv.of_turn (hw : Inv w) (hext : Extends w w')
    (hsum : w'.db.sessionSummary = w.db.sessionSummary)
    {i : ℕ} {t' : Turn} (hturns : ∀ j, w'.turns j = if j = i then some t' else w.turns j)
    (hpc : PcOk w' t'.userId t'.epoch t'.pc) : Inv w' := by
  refine ⟨?_, ?_⟩
  · intro u epoch s upTo h
    rw [hsum] at h
    exact (hw.summaries u epoch s upTo h).mono hext
  · intro j t h
    rw [hturns] at h
    split_ifs at h with hj
    · cases h
      exact hpc
    · exact (hw.turns j t h).mono hext

theorem pcOk_persist (t : Turn) (pending : List (Role × String)) :
    PcOk w (t.persist pending).userId (t.persist pending).epoch (t.persist pending).pc := by
  unfold Turn.persist
  split_ifs <;> trivial

/-- A boundary changes no turn but for the observer's mark. -/
theorem reset_turns {u : UserId} {i : ℕ} {t : Turn} (h : (w.reset u).turns i = some t) :
    ∃ t₀, w.turns i = some t₀ ∧ t.userId = t₀.userId ∧ t.epoch = t₀.epoch ∧ t.pc = t₀.pc ∧
      t.overtaken = (t₀.overtaken ∨ (t₀.pc ≠ .start ∧ t₀.userId = u)) := by
  obtain ⟨t₀, ht₀, rfl⟩ := Option.map_eq_some_iff.mp h
  refine ⟨t₀, ht₀, ?_⟩
  cases hpc : t₀.pc <;> by_cases hu : t₀.userId = u <;> simp [hpc, hu]

/-- Storing a fold: whatever row was there before, the new one stands for its turns as well. -/
theorem Inv.stored (hw : Inv w) {i : ℕ} {t : Turn} {next : String} {upTo : ℕ}
    {recent : List Message} (hext : Extends w w')
    (hw' : w' = { w.setTurn i { t with pc := .running next recent } with
      db := w.db.putSessionSummary t.userId t.epoch next upTo })
    (hok : Stores w t.userId t.epoch next upTo) : Inv w' := by
  subst hw'
  refine ⟨?_, ?_⟩
  · intro u epoch s k h
    by_cases hkey : (u, epoch) = (t.userId, t.epoch)
    · have hrow : (s, k) = (next, upTo) := by
        simpa [Store.putSessionSummary, Dict.get?_set, hkey, eq_comm] using h
      cases hkey
      cases hrow
      exact Stores.mono hext hok
    · have hrow : w.db.sessionSummary.get? (u, epoch) = some (s, k) := by
        simpa only [Store.putSessionSummary, Dict.get?_set_of_ne _ _ hkey] using h
      exact (hw.summaries u epoch s k hrow).mono hext
  · intro j t' h
    change (w.setTurn i { t with pc := .running next recent }).turns j = some t' at h
    rw [setTurn_turns] at h
    split_ifs at h
    · cases h
      trivial
    · exact (hw.turns j t' h).mono hext

theorem Inv.step (hw : Inv w) {e : Event} (hstep : Dialog.step w e = some w') : Inv w' := by
  have hmove := step_moves hstep
  have hext := hmove.extends
  cases hmove with
  | reset u =>
    refine ⟨fun u epoch s upTo h => (hw.summaries u epoch s upTo h).mono hext, ?_⟩
    intro i t h
    obtain ⟨t₀, ht₀, hu, he, hpc, -⟩ := reset_turns h
    rw [hu, he, hpc]
    exact (hw.turns i t₀ ht₀).mono hext
  | begun i userId cfg text image h => exact hw.of_turn hext rfl (setTurn_turns w _ · _) trivial
  | epoch ht hpc =>
    exact hw.of_turn hext rfl (setTurn_turns w _ · _) (Messages.sessionEpoch_le_lastId _ _)
  | @watermark i t summary upTo ht hpc hb hmark =>
    have hle := hw.turns i t ht
    rw [hpc] at hle
    exact hw.of_turn hext rfl (setTurn_turns w _ · _)
      ((watermark_marks hw hle hmark).mono hext)
  | @cut i t summary upTo foldable recent ht hpc hplan =>
    have hmarks := hw.turns i t ht
    rw [hpc] at hmarks
    obtain ⟨happ, hne, hlen⟩ := condensePlan_some hplan
    -- the scan may stop short of the newest turns, but it skips none
    have hpre : (foldable ++ recent) <+: w.db.messages.chatSince t.userId upTo :=
      happ ▸ messagesSince_prefix_chatSince _ _ _ _
    exact hw.of_turn hext rfl (setTurn_turns w _ · _)
      ⟨upTo, hmarks.1.mono hext, hpre, hne, hlen⟩
  | @condensed i t reply prev foldable recent ht hpc hreply =>
    have hok := hw.turns i t ht
    rw [hpc] at hok
    -- the watermark that the turn started from, which other turns may have moved since
    obtain ⟨upTo, hcov, hpre, hne, hlen⟩ := hok
    refine hw.of_turn hext rfl (setTurn_turns w _ · _) ?_
    exact stores_of_fold (hcov.mono hext) hpre hne hlen
      (List.mem_append_right _ (List.mem_singleton_self _)) hreply
  | @stored i t next upTo recent ht hpc =>
    have hok := hw.turns i t ht
    rw [hpc] at hok
    exact hw.stored hext rfl hok
  | persisted | answered | skipped =>
    exact hw.of_turn hext rfl (setTurn_turns w _ · _) (pcOk_persist _ _)
  | _ => exact hw.of_turn hext rfl (setTurn_turns w _ · _) trivial

theorem inv_of_reachable (hw : Reachable step World.init w) : Inv w :=
  hw.invariant inv_init fun _ _ _ h hs => h.step hs

def TurnPc.settled : TurnPc → Prop
  | .running _ _ | .persisting _ | .finished => True
  | _ => False

theorem settled_persist (t : Turn) (pending : List (Role × String)) :
    (t.persist pending).pc.settled := by
  unfold Turn.persist
  split_ifs <;> trivial

theorem settled_step {e : Event} {i : ℕ} (hstep : Dialog.step w e = some w')
    (h : ∃ t, w.turns i = some t ∧ t.pc.settled) : ∃ t, w'.turns i = some t ∧ t.pc.settled := by
  obtain ⟨t, ht, hset⟩ := h
  -- a step of turn `j` puts it before `t'`
  have hturn : ∀ j t', (j = i → t'.pc.settled) →
      ∃ t'', (w.setTurn j t').turns i = some t'' ∧ t''.pc.settled := by
    intro j t' ht'
    rw [setTurn_turns]
    split_ifs with hj
    · exact ⟨t', rfl, ht' hj.symm⟩
    · exact ⟨t, ht, hset⟩
  cases step_moves hstep with
  | reset u =>
    refine ⟨_, congrArg (Option.map _) ht, ?_⟩
    cases hpc : t.pc <;> by_cases hu : t.userId = u <;> simp_all [TurnPc.settled]
  | begun j userId cfg text image hj =>
    refine hturn j _ ?_
    rintro rfl
    rw [ht] at hj
    cases hj
  | persisted hj | answered hj | skipped hj => exact hturn _ _ fun _ => settled_persist _ _
  | recent | fits | declined | stored | failed | raised => exact hturn _ _ fun _ => trivial
  | epoch hj hpc | watermark hj hpc | cut hj hpc | condensed hj hpc =>
    refine hturn _ _ ?_
    rintro rfl
    rw [ht] at hj
    cases hj
    rw [hpc] at hset
    exact hset.elim

theorem settled_sessionSummary {i : ℕ} (h : ∃ t, w.turns i = some t ∧ t.pc.settled)
    (hstep : Dialog.step w (.advance i) = some w') :
    w'.db.sessionSummary = w.db.sessionSummary := by
  obtain ⟨t, ht, hset⟩ := h
  cases step_moves hstep with
  | stored hj hpc =>
    rw [ht] at hj
    cases hj
    rw [hpc] at hset
    exact hset.elim
  | _ => rfl

/-- Four turns of an agent that folds whatever it can, and the summary that a fifth writes. -/
def foldingRun : List Event :=
  let cfg : AgentConfig := { summaryCharBudget := 0 }
  let turn (i : ℕ) : List Event :=
    [.begin i 1 cfg "?" false, .advance i, .advance i, .advance i, .ran i (.answer "!"),
      .advance i, .advance i]
  turn 0 ++ turn 1 ++ turn 2 ++ turn 3 ++
    [.begin 4 1 cfg "?" false, .advance 4, .advance 4, .advance 4, .summarised 4 (some "so far"),
      .advance 4]

end

end Chic.Dialog
