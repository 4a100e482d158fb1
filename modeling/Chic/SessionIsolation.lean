import Chic.DialogMoves
import Chic.MessageOrder
import Chic.SummaryFolding

namespace Chic.Dialog
open AppDb Trace

def Seen (m : Messages) (u : UserId) (x : Message) : Prop :=
  (∃ n, x ∈ m.recentMessages u n) ∨ ∃ limit, x ∈ m.messagesSince u (m.sessionEpoch u) limit

/-- No turn that read its epoch before a boundary has a message in the session after it. -/
def Isolated (w : World) : Prop :=
  ∀ u x i t, Seen w.db.messages u x → w.author x.id = some i → w.turns i = some t →
    t.overtaken = false

/-- When a turn appends a message, its user's session is still the one whose epoch it read. -/
def SameSession (w : World) : Event → Prop
  | .advance i => ∀ t p rest, w.turns i = some t → t.pc = .persisting (p :: rest) →
      w.db.messages.sessionEpoch t.userId = t.epoch
  | _ => True

section Reads
variable {m : Messages} {u : UserId} {x : Message}

theorem Seen.row (h : Seen m u x) :
    ∃ r ∈ m.rows, r.userId = u ∧ m.sessionEpoch u < r.id ∧ r.message = x := by
  rcases h with ⟨n, h⟩ | ⟨limit, h⟩
  · unfold Messages.recentMessages at h
    split_ifs at h
    · cases h
    · obtain ⟨r, hr, rfl⟩ := List.mem_map.mp h
      have hr := List.mem_of_mem_take (List.mem_reverse.mp hr)
      obtain ⟨hmem, hr⟩ := List.mem_filter.mp (List.mem_reverse.mp hr)
      obtain ⟨hu, hid⟩ := of_decide_eq_true hr
      exact ⟨r, hmem, hu, hid, rfl⟩
  · have h := (messagesSince_prefix_chatSince _ _ _ _).subset h
    obtain ⟨r, hr, rfl⟩ := List.mem_map.mp h
    obtain ⟨hmem, hr⟩ := List.mem_filter.mp hr
    obtain ⟨hu, hid, -⟩ := of_decide_eq_true hr
    exact ⟨r, hmem, hu, hid, rfl⟩

theorem seen_iff :
    Seen m u x ↔ ∃ r ∈ m.rows, r.userId = u ∧ m.sessionEpoch u < r.id ∧ r.message = x := by
  refine ⟨Seen.row, ?_⟩
  intro h
  obtain ⟨r, hr, hu, hid, rfl⟩ := h
  refine .inl ⟨m.rows.length + 1, ?_⟩
  dsimp only [Messages.recentMessages]
  rw [if_neg (by omega), List.take_of_length_le]
  · rw [List.reverse_reverse]
    exact List.mem_map_of_mem (List.mem_filter.mpr ⟨hr, by simp [hu, hid]⟩)
  · rw [List.length_reverse]
    refine (List.length_filter_le _ _).trans ?_
    omega

theorem seen_append (m : Messages) (u : UserId) {role : Role} (hrole : role ≠ .reset)
    (content : String) :
    Seen (m.append u role content) u ⟨m.lastId + 1, role, content⟩ := by
  refine seen_iff.mpr ⟨_, List.mem_append_right _ (List.mem_singleton_self _), rfl, ?_, rfl⟩
  rw [Messages.sessionEpoch_append_of_ne fun h => hrole h.2]
  exact Nat.lt_succ_of_le (Messages.sessionEpoch_le_lastId m u)

/-- What is seen after an append was seen before, or it is the new row of that user. -/
theorem Seen.of_append {u' : UserId} {role : Role} {content : String}
    (h : Seen (m.append u' role content) u x) :
    (Seen m u x ∧ ¬ (u' = u ∧ role = .reset)) ∨
      (x = ⟨m.lastId + 1, role, content⟩ ∧ u' = u) := by
  obtain ⟨r, hr, hu, hid, rfl⟩ := h.row
  have hfresh : ¬ (u' = u ∧ role = .reset) := by
    intro hreset
    rw [hreset.1, hreset.2, Messages.sessionEpoch_append_reset] at hid
    have := (m.append u' role content).le_lastId hr
    rw [Messages.lastId_append] at this
    omega
  rw [Messages.sessionEpoch_append_of_ne hfresh] at hid
  rcases List.mem_append.mp hr with hr | hr
  · exact .inl ⟨seen_iff.mpr ⟨r, hr, hu, hid, rfl⟩, hfresh⟩
  · rw [List.mem_singleton.mp hr] at hu ⊢
    exact .inr ⟨rfl, hu⟩

end Reads

/-- A turn between its first store access and its end knows by its epoch whether a boundary
overtook it. -/
structure EpochOk (m : Messages) (t : Turn) : Prop where
  notYet : t.pc = .start → t.overtaken = false
  le : t.pc ≠ .start → t.pc ≠ .finished → t.epoch ≤ m.sessionEpoch t.userId
  overtaken_iff : t.pc ≠ .start → t.pc ≠ .finished →
    (t.overtaken = true ↔ t.epoch < m.sessionEpoch t.userId)
  roles : ∀ pending, t.pc = .persisting pending → ∀ p ∈ pending, p.1 ≠ .reset

structure SessionInv (w : World) : Prop where
  turns : ∀ i t, w.turns i = some t → EpochOk w.db.messages t
  authors : ∀ r ∈ w.db.messages.rows, ∀ i, w.author r.id = some i →
    ∃ t, w.turns i = some t ∧ t.userId = r.userId
  unwritten : ∀ k, w.db.messages.lastId < k → w.author k = none
  isolated : Isolated w

theorem sessionInv_init : SessionInv World.init := by
  refine ⟨?_, ?_, ?_, ?_⟩
  · intro i t h
    cases h
  · intro r hr
    cases hr
  · intro k _
    rfl
  · intro u x i t _ hauthor
    cases hauthor

section
variable {w w' : World}

theorem EpochOk.next {m : Messages} {t : Turn} (h : EpochOk m t) (hs : t.pc ≠ .start)
    (hf : t.pc ≠ .finished) {pc : TurnPc} (hpc : pc ≠ .start)
    (hroles : ∀ pending, pc = .persisting pending → ∀ p ∈ pending, p.1 ≠ .reset) :
    EpochOk m { t with pc } :=
  ⟨fun h' => (hpc h').elim, fun _ _ => h.le hs hf, fun _ _ => h.overtaken_iff hs hf, hroles⟩

theorem EpochOk.finish {m : Messages} {t : Turn} : EpochOk m { t with pc := .finished } :=
  ⟨fun h => (by cases h), fun _ h => (h rfl).elim, fun _ h => (h rfl).elim,
    fun _ h => (by cases h)⟩

theorem EpochOk.persist {m : Messages} {t : Turn} (h : EpochOk m t) (hs : t.pc ≠ .start)
    (hf : t.pc ≠ .finished) {pending : List (Role × String)}
    (hroles : ∀ p ∈ pending, p.1 ≠ .reset) : EpochOk m (t.persist pending) := by
  unfold Turn.persist
  split_ifs
  · exact .finish
  · refine h.next hs hf (by simp) ?_
    intro pending' h'
    cases h'
    exact hroles

/-- The messages of other sessions do not matter to a turn. -/
theorem EpochOk.append {m : Messages} {t : Turn} (h : EpochOk m t) {u : UserId} {role : Role}
    {content : String} (hne : ¬ (u = t.userId ∧ role = .reset)) :
    EpochOk (m.append u role content) t := by
  refine ⟨h.notYet, ?_, ?_, h.roles⟩
  · rw [Messages.sessionEpoch_append_of_ne hne]
    exact h.le
  · rw [Messages.sessionEpoch_append_of_ne hne]
    exact h.overtaken_iff

/-- A boundary overtakes exactly the turns of its user that have read their epoch. -/
theorem EpochOk.reset {m : Messages} {t t' : Turn} (h : EpochOk m t) {u : UserId}
    (hu : t'.userId = t.userId) (hepoch : t'.epoch = t.epoch) (hpc : t'.pc = t.pc)
    (hover : t'.overtaken = (t.overtaken ∨ (t.pc ≠ .start ∧ t.userId = u))) :
    EpochOk (m.append u .reset "") t' := by
  by_cases hsame : t.userId = u
  · -- the new boundary is after every epoch read so far
    have hlast : (m.append u .reset "").sessionEpoch t'.userId = m.lastId + 1 := by
      rw [hu, hsame, Messages.sessionEpoch_append_reset]
    have hlt : t'.pc ≠ .start → t'.pc ≠ .finished → t'.epoch < m.lastId + 1 := by
      intro hs hf
      rw [hepoch]
      exact Nat.lt_succ_of_le ((h.le (hpc ▸ hs) (hpc ▸ hf)).trans
        (Messages.sessionEpoch_le_lastId _ _))
    refine ⟨?_, ?_, ?_, hpc ▸ h.roles⟩
    · intro hs
      rw [hpc] at hs
      simpa [hs, h.notYet hs] using hover
    · intro hs hf
      rw [hlast]
      exact (hlt hs hf).le
    · intro hs hf
      rw [hlast]
      refine iff_of_true ?_ (hlt hs hf)
      rw [hover]
      exact .inr ⟨hpc ▸ hs, hsame⟩
  · have hovertaken : t'.overtaken = t.overtaken := by
      simpa [hsame] using hover
    have hok : EpochOk m t' := by
      refine ⟨?_, ?_, ?_, hpc ▸ h.roles⟩
      · rw [hpc, hovertaken]
        exact h.notYet
      · rw [hpc, hu, hepoch]
        exact h.le
      · rw [hpc, hu, hepoch, hovertaken]
        exact h.overtaken_iff
    exact hok.append fun hreset => hsame (hreset.1.trans hu).symm

theorem SessionInv.of_turn (hw : SessionInv w) (hm : w'.db.messages = w.db.messages)
    (ha : w'.author = w.author) {i : ℕ} {t' : Turn}
    (hturns : ∀ j, w'.turns j = if j = i then some t' else w.turns j)
    (hold : ∀ t, w.turns i = some t → t'.userId = t.userId ∧ t'.overtaken = t.overtaken)
    (hok : EpochOk w.db.messages t') : SessionInv w' := by
  refine ⟨?_, ?_, ?_, ?_⟩
  · intro j t h
    rw [hturns] at h
    rw [hm]
    split_ifs at h
    · cases h
      exact hok
    · exact hw.turns j t h
  · intro r hr j hj
    rw [hm] at hr
    rw [ha] at hj
    obtain ⟨t, ht, hu⟩ := hw.authors r hr j hj
    rw [hturns]
    split_ifs with hji
    · exact ⟨t', rfl, (hold t (hji ▸ ht)).1.trans hu⟩
    · exact ⟨t, ht, hu⟩
  · intro k hk
    rw [hm] at hk
    rw [ha]
    exact hw.unwritten k hk
  · intro u x j t hseen hauthor ht
    rw [hm] at hseen
    rw [ha] at hauthor
    rw [hturns] at ht
    obtain ⟨r, hr, -, -, rfl⟩ := hseen.row
    obtain ⟨t₀, ht₀, -⟩ := hw.authors r hr j hauthor
    split_ifs at ht with hji
    · cases ht
      rw [(hold t₀ (hji ▸ ht₀)).2]
      exact hw.isolated u _ j t₀ hseen hauthor ht₀
    · exact hw.isolated u _ j t hseen hauthor ht

theorem pending_roles (t : Turn) (answer : String) : ∀ p ∈ t.pending answer, p.1 ≠ .reset := by
  intro p hp
  have hp := (List.mem_filter.mp hp).1
  simp only [List.mem_cons, List.not_mem_nil, or_false] at hp
  rcases hp with rfl | rfl <;> simp

/-- A boundary empties the session that is read, and overtakes the user's turns. -/
theorem SessionInv.reset (hw : SessionInv w) (u : UserId) : SessionInv (w.reset u) := by
  refine ⟨?_, ?_, ?_, ?_⟩
  · intro i t h
    obtain ⟨t₀, ht₀, hu, hepoch, hpc, hover⟩ := reset_turns h
    exact (hw.turns i t₀ ht₀).reset hu hepoch hpc hover
  · intro r hr i hi
    change w.author r.id = some i at hi
    rcases List.mem_append.mp hr with hr | hr
    · obtain ⟨t, ht, hu⟩ := hw.authors r hr i hi
      refine ⟨_, congrArg (Option.map _) ht, ?_⟩
      rw [← hu]
      dsimp only
      split
      · rfl
      · split_ifs <;> rfl
    · rw [List.mem_singleton.mp hr, hw.unwritten _ (Nat.lt_succ_self _)] at hi
      cases hi
  · intro k hk
    have hlast : (w.reset u).db.messages.lastId = w.db.messages.lastId + 1 :=
      Messages.lastId_append
    exact hw.unwritten k (by omega)
  · intro v x i t hseen hauthor ht
    change w.author x.id = some i at hauthor
    rcases Seen.of_append hseen with ⟨hseen, hother⟩ | ⟨rfl, -⟩
    · obtain ⟨r, hr, hu, -, rfl⟩ := hseen.row
      obtain ⟨t₀, ht₀, -, -, -, hover⟩ := reset_turns ht
      obtain ⟨t₁, ht₁, hu₁⟩ := hw.authors r hr i hauthor
      rw [ht₀] at ht₁
      cases ht₁
      -- a turn of another user is not overtaken
      have hne : t₀.userId ≠ u := fun h => hother ⟨by rw [← hu, ← hu₁, h], rfl⟩
      have hovertaken : t.overtaken = t₀.overtaken := by
        simpa [hne] using hover
      rw [hovertaken]
      exact hw.isolated v _ i t₀ hseen hauthor ht₀
    · rw [hw.unwritten _ (Nat.lt_succ_self _)] at hauthor
      cases hauthor

theorem SessionInv.persisted (hw : SessionInv w) {i : ℕ} {t : Turn} {role : Role}
    {content : String} {rest : List (Role × String)} (ht : w.turns i = some t)
    (hpc : t.pc = .persisting ((role, content) :: rest))
    (hsame : w.db.messages.sessionEpoch t.userId = t.epoch) :
    SessionInv (w.write i t role content rest) := by
  have hok := hw.turns i t ht
  have hstart : t.pc ≠ .start := by simp [hpc]
  have hfinished : t.pc ≠ .finished := by simp [hpc]
  have hroles := hok.roles _ hpc
  have hrole : role ≠ .reset := hroles _ List.mem_cons_self
  have hover : t.overtaken = false := by
    -- a boundary since would have moved the epoch
    have hlt := hok.overtaken_iff hstart hfinished
    rw [hsame] at hlt
    simpa using hlt
  have hkeep : ∀ u, ¬ (t.userId = u ∧ role = .reset) := fun _ h => hrole h.2
  refine ⟨?_, ?_, ?_, ?_⟩
  · intro j t' h
    rw [write_turns] at h
    split_ifs at h
    · cases h
      have hrest : ∀ p ∈ rest, p.1 ≠ .reset := fun p hp => hroles p (List.mem_cons_of_mem _ hp)
      exact (hok.persist hstart hfinished hrest).append (hkeep _)
    · exact (hw.turns j t' h).append (hkeep _)
  · intro r hr j hj
    rcases write_author hr hj with ⟨hr, hj⟩ | ⟨rfl, rfl⟩
    · obtain ⟨t', ht', hu⟩ := hw.authors r hr j hj
      obtain ⟨t₁, ht₁, hu₁, -⟩ := write_turn ht ht'
      exact ⟨t₁, ht₁, hu₁.trans hu⟩
    · exact ⟨_, write_turns.trans (if_pos rfl), rfl⟩
  · intro k hk
    have hlast : (w.db.messages.append t.userId role content).lastId =
        w.db.messages.lastId + 1 := Messages.lastId_append
    change (w.db.messages.append t.userId role content).lastId < k at hk
    change Function.update w.author (w.db.messages.lastId + 1) (some i) k = none
    rw [Function.update_of_ne (by omega)]
    exact hw.unwritten k (by omega)
  · intro u x j t' hseen hauthor ht'
    change Function.update w.author (w.db.messages.lastId + 1) (some i) x.id = some j at hauthor
    rw [write_turns] at ht'
    -- the turn itself is not overtaken, and the new row is by no other turn
    split_ifs at ht' with hji
    · cases ht'
      exact hover
    rcases Seen.of_append hseen with ⟨hold, -⟩ | ⟨rfl, -⟩
    · obtain ⟨r, hr, -, -, rfl⟩ := hold.row
      have hid := w.db.messages.le_lastId hr
      change Function.update w.author (w.db.messages.lastId + 1) (some i) r.id = some j at hauthor
      rw [Function.update_of_ne (by omega)] at hauthor
      exact hw.isolated u _ j t' hold hauthor ht'
    · rw [Function.update_self] at hauthor
      cases hauthor
      exact (hji rfl).elim

theorem SessionInv.step (hw : SessionInv w) {e : Event} (hsame : SameSession w e)
    (hstep : Dialog.step w e = some w') : SessionInv w' := by
  have hmove := step_moves hstep
  -- the marks that a step of a turn keeps
  have hold : ∀ {i : ℕ} {t t' : Turn}, w.turns i = some t → t'.userId = t.userId →
      t'.overtaken = t.overtaken → ∀ t₀, w.turns i = some t₀ →
        t'.userId = t₀.userId ∧ t'.overtaken = t₀.overtaken := by
    intro i t t' ht hu ho t₀ ht₀
    rw [ht] at ht₀
    cases ht₀
    exact ⟨hu, ho⟩
  cases hmove with
  | reset u => exact hw.reset u
  | persisted ht hpc => exact hw.persisted ht hpc (hsame _ _ _ ht hpc)
  | begun i userId cfg text image hnew =>
    refine hw.of_turn rfl rfl (setTurn_turns w _ · _) ?_ ?_
    · intro t ht
      rw [hnew] at ht
      cases ht
    · exact ⟨fun _ => rfl, fun h => (h rfl).elim, fun h => (h rfl).elim, fun _ h => (by cases h)⟩
  | @epoch i t ht hpc =>
    refine hw.of_turn rfl rfl (setTurn_turns w _ · _) (hold ht rfl rfl) ?_
    refine ⟨fun h => (by cases h), fun _ _ => le_rfl, fun _ _ => ?_, fun _ h => (by cases h)⟩
    rw [(hw.turns _ _ ht).notYet hpc]
    simp
  | recent ht hpc | watermark ht hpc | fits ht hpc | cut ht hpc | stored ht hpc
  | declined ht hpc | condensed ht hpc =>
    refine hw.of_turn rfl rfl (setTurn_turns w _ · _) (hold ht rfl rfl) ?_
    exact (hw.turns _ _ ht).next (by simp [hpc]) (by simp [hpc]) (by simp) fun _ h => (by cases h)
  | @answered i t _ _ _ _ ht hpc hout =>
    obtain ⟨answer, -, rfl⟩ := hout
    refine hw.of_turn rfl rfl (setTurn_turns w _ · _) (hold ht rfl rfl) ?_
    exact (hw.turns _ _ ht).persist (by simp [hpc]) (by simp [hpc]) (pending_roles t _)
  | failed ht | raised ht =>
    exact hw.of_turn rfl rfl (setTurn_turns w _ · _) (hold ht rfl rfl) .finish
  | skipped ht hpc =>
    refine hw.of_turn rfl rfl (setTurn_turns w _ · _) (hold ht rfl rfl) ?_
    have hok := hw.turns _ _ ht
    exact hok.persist (by simp [hpc]) (by simp [hpc]) fun p hp =>
      hok.roles _ hpc p (List.mem_cons_of_mem _ hp)

/-- An append after a boundary puts the overtaken turn into the new session. -/
theorem SessionInv.leaks (hw : SessionInv w) {e : Event} (hcross : ¬ SameSession w e)
    (hstep : Dialog.step w e = some w') : ¬ Isolated w' := by
  cases e with
  | advance i =>
    simp only [SameSession, not_forall] at hcross
    obtain ⟨t, ⟨role, content⟩, rest, ht, hpc, hne⟩ := hcross
    have hok := hw.turns i t ht
    have hstart : t.pc ≠ .start := by simp [hpc]
    have hfinished : t.pc ≠ .finished := by simp [hpc]
    have hover : t.overtaken = true :=
      (hok.overtaken_iff hstart hfinished).mpr (lt_of_le_of_ne (hok.le hstart hfinished) (Ne.symm hne))
    have hmove := step_of_moves (.persisted ht hpc)
    rw [hmove] at hstep
    cases hstep
    intro hiso
    have hrole : role ≠ .reset := hok.roles _ hpc _ List.mem_cons_self
    have hfalse := hiso t.userId ⟨w.db.messages.lastId + 1, role, content⟩ i (t.persist rest)
      (seen_append _ _ hrole _) (Function.update_self _ _ _) (by simp [World.setTurn])
    change t.overtaken = false at hfalse
    rw [hover] at hfalse
    cases hfalse
  | _ => exact (hcross trivial).elim

end

/-- The session that `/new` opens stays free of the turns before it throughout a run exactly
when each of them has written its messages by then. -/
theorem isolated_throughout_iff {w : World} {es : List Event}
    (hrun : run step World.init es = some w) :
    Throughout step Isolated World.init es ↔ Along step SameSession World.init es :=
  throughout_iff_along (fun _ h => h.isolated) (fun _ _ _ hw hC hs => hw.step hC hs)
    (fun _ _ _ hw hC hs => hw.leaks hC hs) sessionInv_init hrun

def orderlyRun : List Event :=
  [.begin 0 1 {} "?" false, .advance 0, .advance 0, .advance 0, .ran 0 (.answer "!"),
    .advance 0, .advance 0, .reset 1, .begin 1 1 {} "?" false, .advance 1]

theorem orderlyRun_isolated : ∃ w, run step World.init orderlyRun = some w ∧
    (Throughout step Isolated World.init orderlyRun ↔
      Along step SameSession World.init orderlyRun) := by
  have h : (run step World.init orderlyRun).isSome := by decide +kernel
  obtain ⟨w, hrun⟩ := Option.isSome_iff_exists.mp h
  exact ⟨w, hrun, isolated_throughout_iff hrun⟩

/-- A boundary while the model is at work. -/
def overtakenRun : List Event :=
  [.begin 0 1 {} "?" false, .advance 0, .advance 0, .advance 0, .reset 1, .ran 0 (.answer "!"),
    .advance 0, .advance 0]

/-- Both messages of the turn before `/new` are what the next turn starts from. -/
theorem overtakenRun_leaks : ∃ w, run step World.init overtakenRun = some w ∧
    w.db.messages.recentMessages 1 20 = [⟨2, .user, "?"⟩, ⟨3, .assistant, "!"⟩] ∧
      ¬ Isolated w := by
  have h : ((run step World.init overtakenRun).map fun w =>
      (w.db.messages.recentMessages 1 20, w.author 2, (w.turns 0).map (·.overtaken))) =
        some ([⟨2, .user, "?"⟩, ⟨3, .assistant, "!"⟩], some 0, some true) := by decide +kernel
  obtain ⟨w, hrun, hw⟩ := Option.map_eq_some_iff.mp h
  simp only [Prod.mk.injEq] at hw
  obtain ⟨hrecent, hauthor, hturn⟩ := hw
  obtain ⟨t, ht, hover⟩ := Option.map_eq_some_iff.mp hturn
  refine ⟨w, hrun, hrecent, ?_⟩
  intro hiso
  have hfalse := hiso 1 ⟨2, .user, "?"⟩ 0 t (.inl ⟨20, by simp [hrecent]⟩) hauthor ht
  rw [hover] at hfalse
  cases hfalse

end Chic.Dialog
