import Chic.DialogMoves
import Chic.MessageOrder
import Chic.SummaryFolding

namespace Chic.Dialog
open AppDb AppDb.Messages Trace

/-- The rows end with the question of a turn. -/
def AsksLast (author : ℕ → Option ℕ) (rows : List MessageRow) (turn : Option ℕ) : Prop :=
  ∃ q, rows.getLast? = some q ∧ q.role = .user ∧ author q.id = turn

/-- Each answer comes right after the question of its turn. -/
def PairedRows (author : ℕ → Option ℕ) (rows : List MessageRow) : Prop :=
  ∀ before r after, rows = before ++ r :: after → r.role = .assistant →
    AsksLast author before (author r.id)

def Adjacent (w : World) : Prop := ∀ u, PairedRows w.author (rowsOf w.db.messages u)

def Turn.Halfway (t : Turn) : Prop :=
  t.stored ≠ "" ∧ ∃ answer, t.pc = .persisting [(.assistant, answer)]

/-- A turn of the user stands between its two writes. -/
def Between (w : World) (i : ℕ) (u : UserId) : Prop :=
  ∃ t, w.turns i = some t ∧ t.userId = u ∧ t.Halfway

/-- A row is written for a user only while no other turn of the user stands between its two
writes, and an answer only by a turn that has a question to store. -/
def Undisturbed (w : World) : Event → Prop
  | .advance i => ∀ t role content rest, w.turns i = some t →
      t.pc = .persisting ((role, content) :: rest) →
        (∀ j, j ≠ i → ¬ Between w j t.userId) ∧ (role = .assistant → t.stored ≠ "")
  | .reset u => ∀ j, ¬ Between w j u
  | _ => True

/-- The steps of a run in which no store access fails. -/
def reliableStep (w : World) : Event → Option World
  | .raises _ => none
  | e => step w e

section Rows
variable {author author' : ℕ → Option ℕ} {rows : List MessageRow} {m : Messages} {u v : UserId}
  {role : Role} {content : String} {turn : Option ℕ}

theorem AsksLast.congr (h : ∀ r ∈ rows, author' r.id = author r.id) :
    AsksLast author' rows turn ↔ AsksLast author rows turn := by
  refine exists_congr fun q => and_congr_right fun hq => ?_
  rw [h q (List.mem_of_getLast? hq)]

theorem PairedRows.congr (h : ∀ r ∈ rows, author' r.id = author r.id) :
    PairedRows author' rows ↔ PairedRows author rows := by
  refine forall_congr' fun before => forall_congr' fun r => forall_congr' fun after =>
    imp_congr_right fun hrows => imp_congr_right fun _ => ?_
  have hbefore : ∀ r' ∈ before, author' r'.id = author r'.id := fun r' hr' =>
    h r' (hrows ▸ List.mem_append_left _ hr')
  rw [h r (hrows ▸ List.mem_append_right _ List.mem_cons_self), AsksLast.congr hbefore]

theorem pairedRows_concat (rows : List MessageRow) (r : MessageRow) :
    PairedRows author (rows ++ [r]) ↔
      PairedRows author rows ∧ (r.role = .assistant → AsksLast author rows (author r.id)) := by
  refine ⟨?_, ?_⟩
  · intro h
    refine ⟨?_, fun hr => h rows r [] rfl hr⟩
    intro before r' after hrows hr'
    exact h before r' (after ++ [r]) (by rw [hrows, List.append_assoc]; rfl) hr'
  · rintro ⟨hrows, hlast⟩ before r' after heq hr'
    rcases List.eq_nil_or_concat after with rfl | ⟨init, last, rfl⟩
    · obtain ⟨rfl, hr⟩ := List.append_inj' heq rfl
      cases hr
      exact hlast hr'
    · rw [List.concat_eq_append, ← List.cons_append, ← List.append_assoc] at heq
      obtain ⟨heq, -⟩ := List.append_inj' heq rfl
      exact hrows before r' init heq hr'

/-- What a new row does to the question that a user's rows end with. -/
theorem asksLast_append (hold : ∀ k ≤ m.lastId, author' k = author k) :
    AsksLast author' (rowsOf (m.append u role content) v) turn ↔
      if v = u then role = .user ∧ author' (m.lastId + 1) = turn
      else AsksLast author (rowsOf m v) turn := by
  rw [rowsOf_append]
  split_ifs with huv
  · simp [AsksLast]
  · rw [List.append_nil]
    exact AsksLast.congr fun r hr => hold _ (m.le_lastId (List.mem_of_mem_filter hr))

/-- What a new row does to the pairing. -/
theorem pairedRows_append (hold : ∀ k ≤ m.lastId, author' k = author k) :
    (∀ v, PairedRows author' (rowsOf (m.append u role content) v)) ↔
      (∀ v, PairedRows author (rowsOf m v)) ∧
        (role = .assistant → AsksLast author (rowsOf m u) (author' (m.lastId + 1))) := by
  have hrows : ∀ v, ∀ r ∈ rowsOf m v, author' r.id = author r.id := fun v r hr =>
    hold _ (m.le_lastId (List.mem_of_mem_filter hr))
  have hone : ∀ v, PairedRows author' (rowsOf (m.append u role content) v) ↔
      PairedRows author (rowsOf m v) ∧ (v = u → role = .assistant →
        AsksLast author (rowsOf m u) (author' (m.lastId + 1))) := by
    intro v
    rw [rowsOf_append]
    by_cases huv : v = u
    · subst huv
      rw [if_pos rfl, pairedRows_concat, PairedRows.congr (hrows v), AsksLast.congr (hrows v)]
      simp
    · rw [if_neg huv, List.append_nil, PairedRows.congr (hrows v)]
      simp [huv]
  rw [forall_congr' hone, forall_and]
  simp

end Rows

/-- What is left to write, and whose questions are stored. -/
structure Writing (w : World) : Prop where
  shape : ∀ i t pending, w.turns i = some t → t.pc = .persisting pending →
    (t.stored ≠ "" ∧ (pending = [(.user, t.stored)] ∨
      ∃ answer, pending = [(.user, t.stored), (.assistant, answer)])) ∨
    ∃ answer, pending = [(.assistant, answer)]
  asked : ∀ r ∈ w.db.messages.rows, r.role = .user → ∀ i, w.author r.id = some i →
    ∃ t, w.turns i = some t ∧ t.stored ≠ ""

/-- No row breaks the pairing, and no turn between its writes is about to. -/
def OnCourse (w : World) : Prop :=
  Adjacent w ∧ ∀ i u, Between w i u → AsksLast w.author (rowsOf w.db.messages u) (some i)

section Turns
variable {w w' : World} {i : ℕ} {t t' : Turn}

theorem between_iff (hturns : ∀ j, w'.turns j = if j = i then some t' else w.turns j) (j : ℕ)
    (u : UserId) :
    Between w' j u ↔ if j = i then t'.userId = u ∧ t'.Halfway else Between w j u := by
  unfold Between
  rw [hturns]
  split_ifs with hji
  · simp
  · rfl

theorem not_halfway (h : ∀ answer, t.pc ≠ .persisting [(.assistant, answer)]) : ¬ t.Halfway := by
  rintro ⟨-, answer, hpc⟩
  exact h answer hpc

theorem not_between (ht : w.turns i = some t) (h : ¬ t.Halfway) (u : UserId) :
    ¬ Between w i u := by
  rintro ⟨t₀, ht₀, -, hhalf⟩
  rw [ht] at ht₀
  cases ht₀
  exact h hhalf

theorem stored_persist (t : Turn) (pending : List (Role × String)) :
    (t.persist pending).stored = t.stored := rfl

theorem persist_pc (t : Turn) {pending rest : List (Role × String)}
    (h : (t.persist pending).pc = .persisting rest) : pending = rest ∧ rest ≠ [] := by
  unfold Turn.persist at h
  split_ifs at h with hnil
  cases h
  exact ⟨rfl, hnil⟩

theorem pending_eq (t : Turn) (answer : String) :
    t.pending answer = (if t.stored = "" then [] else [(Role.user, t.stored)]) ++
      if answer = "" then [] else [(Role.assistant, answer)] := by
  unfold Turn.pending
  by_cases hs : t.stored = "" <;> by_cases ha : answer = "" <;> simp [hs, ha]

/-- A turn whose run just ended has not stored its question. -/
theorem not_halfway_answered (t : Turn) (answer : String) :
    ¬ (t.persist (t.pending answer)).Halfway := by
  rintro ⟨hne, next, hpc⟩
  have hpending := (persist_pc t hpc).1
  rw [stored_persist] at hne
  rw [pending_eq, if_neg hne] at hpending
  simp at hpending

theorem Writing.of_turn (hw : Writing w) (hm : w'.db.messages = w.db.messages)
    (ha : w'.author = w.author) (hturns : ∀ j, w'.turns j = if j = i then some t' else w.turns j)
    (hstored : ∀ t, w.turns i = some t → t'.stored = t.stored)
    (hshape : ∀ pending, t'.pc = .persisting pending →
      (t'.stored ≠ "" ∧ (pending = [(.user, t'.stored)] ∨
        ∃ answer, pending = [(.user, t'.stored), (.assistant, answer)])) ∨
      ∃ answer, pending = [(.assistant, answer)]) : Writing w' where
  shape j t pending ht hpc := by
    rw [hturns] at ht
    split_ifs at ht
    · cases ht
      exact hshape pending hpc
    · exact hw.shape j t pending ht hpc
  asked r hr hrole j hj := by
    rw [hm] at hr
    rw [ha] at hj
    obtain ⟨t, ht, hne⟩ := hw.asked r hr hrole j hj
    rw [hturns]
    split_ifs with hji
    · exact ⟨t', rfl, by rwa [hstored t (hji ▸ ht)]⟩
    · exact ⟨t, ht, hne⟩

theorem onCourse_of_turn (hm : w'.db.messages = w.db.messages) (ha : w'.author = w.author)
    (hturns : ∀ j, w'.turns j = if j = i then some t' else w.turns j)
    (hbefore : ∀ u, ¬ Between w i u) (hafter : ¬ t'.Halfway) : OnCourse w' ↔ OnCourse w := by
  have hbetween : ∀ j u, Between w' j u ↔ Between w j u := by
    intro j u
    rw [between_iff hturns]
    split_ifs with hji
    · rw [hji]
      exact iff_of_false (fun h => hafter h.2) (hbefore u)
    · rfl
  unfold OnCourse Adjacent
  simp only [hbetween, hm, ha]

/-- A boundary changes no turn but for the observer's mark. -/
theorem reset_turn (w : World) (u : UserId) : ∃ mark : Turn → Turn,
    (∀ t, (mark t).userId = t.userId ∧ (mark t).pc = t.pc ∧ (mark t).stored = t.stored) ∧
      ∀ j, (w.reset u).turns j = (w.turns j).map mark := by
  refine ⟨_, ?_, fun j => rfl⟩
  intro t
  cases hpc : t.pc <;> by_cases hu : t.userId = u <;> simp [hpc, hu, Turn.stored]

theorem Turn.Halfway.of_eq (h : t.Halfway) (hpc : t'.pc = t.pc) (hs : t'.stored = t.stored) :
    t'.Halfway := by
  unfold Turn.Halfway
  rw [hpc, hs]
  exact h

theorem between_reset (u : UserId) (j : ℕ) (v : UserId) :
    Between (w.reset u) j v ↔ Between w j v := by
  obtain ⟨mark, hmark, hturns⟩ := reset_turn w u
  unfold Between
  rw [hturns]
  refine ⟨?_, ?_⟩
  · rintro ⟨t', ht', hv, hhalf⟩
    obtain ⟨t, ht, rfl⟩ := Option.map_eq_some_iff.mp ht'
    obtain ⟨hu, hpc, hs⟩ := hmark t
    exact ⟨t, ht, hu ▸ hv, hhalf.of_eq hpc.symm hs.symm⟩
  · rintro ⟨t, ht, hv, hhalf⟩
    obtain ⟨hu, hpc, hs⟩ := hmark t
    exact ⟨mark t, by rw [ht, Option.map_some], hu.trans hv, hhalf.of_eq hpc hs⟩

theorem Writing.reset (hw : Writing w) (u : UserId) : Writing (w.reset u) := by
  obtain ⟨mark, hmark, hturns⟩ := reset_turn w u
  refine ⟨?_, ?_⟩
  · intro j t' pending ht' hpc
    rw [hturns] at ht'
    obtain ⟨t, ht, rfl⟩ := Option.map_eq_some_iff.mp ht'
    obtain ⟨-, hpc', hs⟩ := hmark t
    rw [hs]
    exact hw.shape j t pending ht (hpc'.symm.trans hpc)
  · intro r hr hrole j hj
    rcases List.mem_append.mp hr with hr | hr
    · obtain ⟨t, ht, hne⟩ := hw.asked r hr hrole j hj
      exact ⟨mark t, by rw [hturns, ht, Option.map_some], by rwa [(hmark t).2.2]⟩
    · rw [List.mem_singleton.mp hr] at hrole
      cases hrole

/-- A boundary of a user disturbs the turns of that user between their writes. -/
theorem onCourse_reset_iff (w : World) (u : UserId) :
    OnCourse (w.reset u) ↔ OnCourse w ∧ ∀ j, ¬ Between w j u := by
  have hsame : ∀ k ≤ w.db.messages.lastId, w.author k = w.author k := fun _ _ => rfl
  have hadj : Adjacent (w.reset u) ↔ Adjacent w :=
    (pairedRows_append hsame).trans (and_iff_left (by simp))
  have hlast : ∀ i v, AsksLast w.author (rowsOf (w.reset u).db.messages v) (some i) ↔
      v ≠ u ∧ AsksLast w.author (rowsOf w.db.messages v) (some i) := by
    intro i v
    refine (asksLast_append hsame).trans ?_
    by_cases hvu : v = u <;> simp [hvu]
  refine ⟨?_, ?_⟩
  · rintro ⟨hpaired, hnext⟩
    simp only [between_reset] at hnext
    refine ⟨⟨hadj.mp hpaired, fun i v h => ((hlast i v).mp (hnext i v h)).2⟩, ?_⟩
    intro j h
    exact ((hlast j u).mp (hnext j u h)).1 rfl
  · rintro ⟨⟨hpaired, hnext⟩, hquiet⟩
    refine ⟨hadj.mpr hpaired, ?_⟩
    intro i v h
    rw [between_reset] at h
    refine (hlast i v).mpr ⟨?_, hnext i v h⟩
    rintro rfl
    exact hquiet i h

theorem Writing.next (hw : Writing w) {role : Role} {content : String}
    {rest : List (Role × String)} (ht : w.turns i = some t)
    (hpc : t.pc = .persisting ((role, content) :: rest)) :
    (role = .user ∧ t.stored ≠ "" ∧ (rest = [] ∨ ∃ answer, rest = [(.assistant, answer)])) ∨
      (role = .assistant ∧ rest = []) := by
  rcases hw.shape i t _ ht hpc with ⟨hne, h | ⟨answer, h⟩⟩ | ⟨answer, h⟩
  · cases h
    exact .inl ⟨rfl, hne, .inl rfl⟩
  · cases h
    exact .inl ⟨rfl, hne, .inr ⟨answer, rfl⟩⟩
  · cases h
    exact .inr ⟨rfl, rfl⟩

theorem Writing.persisted (hw : Writing w) {role : Role} {content : String}
    {rest : List (Role × String)} (ht : w.turns i = some t)
    (hpc : t.pc = .persisting ((role, content) :: rest)) :
    Writing (w.write i t role content rest) := by
  have hnext := hw.next ht hpc
  refine ⟨?_, ?_⟩
  · intro j t' pending ht' hpc'
    rw [write_turns] at ht'
    split_ifs at ht'
    · cases ht'
      obtain ⟨rfl, hne⟩ := persist_pc t hpc'
      rcases hnext with ⟨-, -, rfl | ⟨answer, rfl⟩⟩ | ⟨-, rfl⟩
      · exact (hne rfl).elim
      · exact .inr ⟨answer, rfl⟩
      · exact (hne rfl).elim
    · exact hw.shape j t' pending ht' hpc'
  · intro r hr hrole j hj
    rcases write_author hr hj with ⟨hr, hj⟩ | ⟨rfl, rfl⟩
    · obtain ⟨t', ht', hne⟩ := hw.asked r hr hrole j hj
      obtain ⟨t₁, ht₁, -, hs⟩ := write_turn ht ht'
      exact ⟨t₁, ht₁, hs ▸ hne⟩
    · rcases hnext with ⟨-, hne, -⟩ | ⟨hassistant, -⟩
      · exact ⟨_, write_turns.trans (if_pos rfl), hne⟩
      · rw [hassistant] at hrole
        cases hrole

theorem onCourse_write_iff {role : Role} {content : String} {rest : List (Role × String)}
    (hrest : (t.persist rest).Halfway → role = .user) :
    OnCourse (w.write i t role content rest) ↔
      (Adjacent w ∧
        (role = .assistant → AsksLast w.author (rowsOf w.db.messages t.userId) (some i))) ∧
      (∀ j, j ≠ i → ¬ Between w j t.userId) ∧
      ∀ j v, j ≠ i → Between w j v → AsksLast w.author (rowsOf w.db.messages v) (some j) := by
  have hold : ∀ k ≤ w.db.messages.lastId,
      Function.update w.author (w.db.messages.lastId + 1) (some i) k = w.author k := by
    intro k hk
    rw [Function.update_of_ne (by omega)]
  have hself : Function.update w.author (w.db.messages.lastId + 1) (some i)
      (w.db.messages.lastId + 1) = some i := Function.update_self _ _ _
  -- the new row is the last of its user, and the rows of the others stay
  have hadj : (∀ v, PairedRows (Function.update w.author (w.db.messages.lastId + 1) (some i))
      (rowsOf (w.db.messages.append t.userId role content) v)) ↔
        Adjacent w ∧
          (role = .assistant → AsksLast w.author (rowsOf w.db.messages t.userId) (some i)) := by
    rw [pairedRows_append hold, hself]
    rfl
  have hlast : ∀ j v, AsksLast (Function.update w.author (w.db.messages.lastId + 1) (some i))
      (rowsOf (w.db.messages.append t.userId role content) v) (some j) ↔
        if v = t.userId then role = .user ∧ i = j
        else AsksLast w.author (rowsOf w.db.messages v) (some j) := by
    intro j v
    rw [asksLast_append hold, hself, Option.some.injEq]
  have hbetween : ∀ j v, Between (w.write i t role content rest) j v ↔
      if j = i then t.userId = v ∧ (t.persist rest).Halfway else Between w j v :=
    between_iff fun _ => write_turns
  refine and_congr hadj ⟨?_, ?_⟩
  · intro hnext
    -- were another turn of this user between its rows, the new row would cut in
    have hothers : ∀ j v, j ≠ i → Between w j v →
        v ≠ t.userId ∧ AsksLast w.author (rowsOf w.db.messages v) (some j) := by
      intro j v hji hb
      have hask := (hlast j v).mp (hnext j v ((hbetween j v).mpr (by rwa [if_neg hji])))
      split_ifs at hask with hv
      · exact (hji hask.2.symm).elim
      · exact ⟨hv, hask⟩
    exact ⟨fun j hji hb => (hothers j _ hji hb).1 rfl, fun j v hji hb => (hothers j v hji hb).2⟩
  · rintro ⟨hquiet, hothers⟩ j v hb
    have hb := (hbetween j v).mp hb
    refine (hlast j v).mpr ?_
    by_cases hji : j = i
    · rw [if_pos hji] at hb
      have hv : v = t.userId := hb.1.symm
      rw [if_pos hv]
      exact ⟨hrest hb.2, hji.symm⟩
    · rw [if_neg hji] at hb
      have hv : v ≠ t.userId := fun hv => hquiet j hji (hv ▸ hb)
      rw [if_neg hv]
      exact hothers j v hji hb

theorem onCourse_question_iff {content : String} {rest : List (Role × String)}
    (ht : w.turns i = some t) (hpc : t.pc = .persisting ((.user, content) :: rest)) :
    OnCourse (w.write i t .user content rest) ↔
      OnCourse w ∧ ∀ j, j ≠ i → ¬ Between w j t.userId := by
  have hself : ∀ v, ¬ Between w i v := not_between ht (not_halfway (by simp [hpc]))
  rw [onCourse_write_iff fun _ => rfl]
  refine ⟨?_, ?_⟩
  · rintro ⟨⟨hpaired, -⟩, hquiet, hothers⟩
    refine ⟨⟨hpaired, ?_⟩, hquiet⟩
    intro j v hb
    exact hothers j v (fun hji => hself v (hji ▸ hb)) hb
  · rintro ⟨⟨hpaired, hnext⟩, hquiet⟩
    exact ⟨⟨hpaired, by simp⟩, hquiet, fun j v _ hb => hnext j v hb⟩

theorem onCourse_answer_iff (hw : Writing w) {content : String} (ht : w.turns i = some t)
    (hpc : t.pc = .persisting [(.assistant, content)]) :
    OnCourse (w.write i t .assistant content []) ↔
      OnCourse w ∧ (∀ j, j ≠ i → ¬ Between w j t.userId) ∧ t.stored ≠ "" := by
  rw [onCourse_write_iff (fun h => by obtain ⟨-, _, h⟩ := h; cases h)]
  refine ⟨?_, ?_⟩
  · rintro ⟨⟨hpaired, hask⟩, hquiet, hothers⟩
    have hasked := hask rfl
    obtain ⟨q, hq, hrole, hauthor⟩ := hasked
    have hmem := List.mem_of_mem_filter (List.mem_of_getLast? hq)
    obtain ⟨t₀, ht₀, hne⟩ := hw.asked q hmem hrole i hauthor
    rw [ht] at ht₀
    cases ht₀
    refine ⟨⟨hpaired, ?_⟩, hquiet, hne⟩
    intro j v hb
    by_cases hji : j = i
    · subst hji
      obtain ⟨t₁, ht₁, rfl, -⟩ := hb
      rw [ht] at ht₁
      cases ht₁
      exact hask rfl
    · exact hothers j v hji hb
  · rintro ⟨⟨hpaired, hnext⟩, hquiet, hstored⟩
    refine ⟨⟨hpaired, fun _ => ?_⟩, hquiet, fun j v _ hb => hnext j v hb⟩
    exact hnext i t.userId ⟨t, ht, rfl, hstored, content, hpc⟩

theorem onCourse_persisted_iff (hw : Writing w) {role : Role} {content : String}
    {rest : List (Role × String)} (ht : w.turns i = some t)
    (hpc : t.pc = .persisting ((role, content) :: rest)) :
    OnCourse (w.write i t role content rest) ↔
      OnCourse w ∧ (∀ j, j ≠ i → ¬ Between w j t.userId) ∧ (role = .assistant → t.stored ≠ "") := by
  rcases hw.next ht hpc with ⟨rfl, -, -⟩ | ⟨rfl, rfl⟩
  · rw [onCourse_question_iff ht hpc]
    simp
  · rw [onCourse_answer_iff hw ht hpc]
    simp

theorem writing_init : Writing World.init where
  shape _ _ _ h := by cases h
  asked _ h := by cases h

theorem onCourse_init : OnCourse World.init := by
  refine ⟨?_, ?_⟩
  · intro u before r after h
    have hnil : rowsOf World.init.db.messages u = [] := rfl
    rw [hnil] at h
    simp at h
  · rintro i u ⟨t, h, -⟩
    cases h

theorem step_of_reliable {e : Event} (h : reliableStep w e = some w') :
    step w e = some w' ∧ ∀ i, e ≠ .raises i := by
  cases e with
  | raises i => cases h
  | _ => exact ⟨h, by simp⟩

theorem shape_pending (t : Turn) (answer : String) {pending : List (Role × String)}
    (h : (t.persist (t.pending answer)).pc = .persisting pending) :
    (t.stored ≠ "" ∧ (pending = [(.user, t.stored)] ∨
      ∃ answer, pending = [(.user, t.stored), (.assistant, answer)])) ∨
    ∃ answer, pending = [(.assistant, answer)] := by
  obtain ⟨rfl, hne⟩ := persist_pc t h
  rw [pending_eq] at hne ⊢
  by_cases hs : t.stored = "" <;> by_cases ha : answer = "" <;> simp [hs, ha] at hne ⊢

theorem Writing.step (hw : Writing w) {e : Event} (h : reliableStep w e = some w') :
    Writing w' := by
  obtain ⟨hstep, hreliable⟩ := step_of_reliable h
  have hold : ∀ {i : ℕ} {t t' : Turn}, w.turns i = some t → t'.stored = t.stored →
      ∀ t₀, w.turns i = some t₀ → t'.stored = t₀.stored := by
    intro i t t' ht hs t₀ ht₀
    rw [ht] at ht₀
    cases ht₀
    exact hs
  cases step_moves hstep with
  | reset u => exact hw.reset u
  | persisted ht hpc => exact hw.persisted ht hpc
  | begun i userId cfg text image hnew =>
    refine hw.of_turn rfl rfl (setTurn_turns w _ · _) ?_ fun _ h => (by cases h)
    intro t ht
    rw [hnew] at ht
    cases ht
  | epoch ht | recent ht | watermark ht | fits ht | cut ht | stored ht | declined ht
  | condensed ht | failed ht =>
    exact hw.of_turn rfl rfl (setTurn_turns w _ · _) (hold ht rfl) fun _ h => (by cases h)
  | @answered i t _ _ _ _ ht hpc hout =>
    obtain ⟨answer, -, rfl⟩ := hout
    refine hw.of_turn rfl rfl (setTurn_turns w _ · _) (hold ht rfl) ?_
    intro pending hpc'
    exact shape_pending t _ hpc'
  | raised | skipped => exact (hreliable _ rfl).elim

/-- A step keeps the run on course exactly when it leaves the turns between their writes
undisturbed. -/
theorem onCourse_step_iff (hw : Writing w) {e : Event} (h : reliableStep w e = some w') :
    OnCourse w' ↔ OnCourse w ∧ Undisturbed w e := by
  obtain ⟨hstep, hreliable⟩ := step_of_reliable h
  -- a step of a turn that writes no row, and after which the turn is not between two writes
  have hsilent : ∀ {i : ℕ} {t t' : Turn}, w.turns i = some t →
      (∀ p rest, t.pc ≠ .persisting (p :: rest)) → w'.db.messages = w.db.messages →
        w'.author = w.author → (∀ j, w'.turns j = if j = i then some t' else w.turns j) →
          ¬ t'.Halfway → (OnCourse w' ↔ OnCourse w) := by
    intro i t t' ht hpc hm ha hturns hafter
    exact onCourse_of_turn hm ha hturns (not_between ht (not_halfway fun _ => hpc _ _)) hafter
  have hadvance : ∀ {i : ℕ} {t : Turn}, w.turns i = some t →
      (∀ p rest, t.pc ≠ .persisting (p :: rest)) → Undisturbed w (.advance i) := by
    intro i t ht hpc t₀ role content rest ht₀ hpc₀
    rw [ht] at ht₀
    cases ht₀
    exact (hpc _ rest hpc₀).elim
  cases step_moves hstep with
  | reset u => exact onCourse_reset_iff w u
  | @persisted i t role content rest ht hpc =>
    rw [onCourse_persisted_iff hw ht hpc]
    refine and_congr_right fun _ => ⟨?_, fun hquiet => hquiet t role content rest ht hpc⟩
    intro hquiet t₀ role₀ content₀ rest₀ ht₀ hpc₀
    rw [ht] at ht₀
    cases ht₀
    rw [hpc] at hpc₀
    cases hpc₀
    exact hquiet
  | begun i userId cfg text image hnew =>
    have hsame : OnCourse (w.setTurn i { userId, cfg, text, image }) ↔ OnCourse w := by
      refine onCourse_of_turn rfl rfl (setTurn_turns w i · _) ?_ (not_halfway (by simp))
      rintro u ⟨t, ht, -⟩
      rw [hnew] at ht
      cases ht
    exact hsame.trans (and_iff_left trivial).symm
  | epoch ht hpc | recent ht hpc | watermark ht hpc | fits ht hpc | cut ht hpc | stored ht hpc =>
    refine (hsilent ht (by simp [hpc]) rfl rfl (setTurn_turns w _ · _) ?_).trans
      (and_iff_left (hadvance ht (by simp [hpc]))).symm
    exact not_halfway (by simp)
  | declined ht hpc | condensed ht hpc | failed ht hpc =>
    refine (hsilent ht (by simp [hpc]) rfl rfl (setTurn_turns w _ · _) ?_).trans
      (and_iff_left trivial).symm
    exact not_halfway (by simp)
  | @answered i t _ _ _ _ ht hpc hout =>
    obtain ⟨answer, -, rfl⟩ := hout
    refine (hsilent ht (by simp [hpc]) rfl rfl (setTurn_turns w _ · _) ?_).trans
      (and_iff_left trivial).symm
    exact not_halfway_answered t _
  | raised | skipped => exact (hreliable _ rfl).elim

end Turns

/-- Turn adjacency holds throughout every run whose steps leave the turns between their writes
undisturbed, and of the runs after which every turn has written what it had to write it holds
throughout no other. -/
theorem turns_adjacent_iff {w : World} {es : List Event}
    (hrun : run reliableStep World.init es = some w) :
    (Along reliableStep Undisturbed World.init es →
      Throughout reliableStep Adjacent World.init es) ∧
    ((∀ i u, ¬ Between w i u) → (Throughout reliableStep Adjacent World.init es ↔
      Along reliableStep Undisturbed World.init es)) := by
  have hall : Along reliableStep Undisturbed World.init es →
      Throughout reliableStep Adjacent World.init es := by
    refine @Along.throughout _ _ _ _ _ (fun w => Writing w ∧ OnCourse w) (fun w hw => hw.2.1) ?_
      _ _ ⟨writing_init, onCourse_init⟩
    intro w e w' hw hquiet hstep
    exact ⟨hw.1.step hstep, (onCourse_step_iff hw.1 hstep).mpr ⟨hw.2, hquiet⟩⟩
  refine ⟨hall, ?_⟩
  intro hsettled
  refine ⟨?_, hall⟩
  intro hthroughout
  have hcourse : OnCourse w := ⟨hthroughout.last hrun, fun i u hb => (hsettled i u hb).elim⟩
  have hend := end_iff_along (fun _ _ _ hw hstep => hw.step hstep)
    (fun _ _ _ hw hstep => onCourse_step_iff hw hstep) writing_init hrun
  exact (hend.mp hcourse).2

/-- Two turns of one user, up to where both answers are there to be stored. -/
def twoTurns : List Event :=
  [.begin 0 1 {} "?" false, .advance 0, .advance 0, .advance 0,
    .begin 1 1 {} "??" false, .advance 1, .advance 1, .advance 1,
    .ran 0 (.answer "!"), .ran 1 (.answer "!!")]

/-- One after the other they store their rows. -/
def queuedRun : List Event := twoTurns ++ [.advance 0, .advance 0, .advance 1, .advance 1]

theorem queuedRun_adjacent : ∃ w, run reliableStep World.init queuedRun = some w ∧
    w.db.messages.recentMessages 1 20 =
      [⟨1, .user, "?"⟩, ⟨2, .assistant, "!"⟩, ⟨3, .user, "??"⟩, ⟨4, .assistant, "!!"⟩] ∧
    (Along reliableStep Undisturbed World.init queuedRun →
      Throughout reliableStep Adjacent World.init queuedRun) := by
  have h : (run reliableStep World.init queuedRun).map
      (fun w => w.db.messages.recentMessages 1 20) =
        some [⟨1, .user, "?"⟩, ⟨2, .assistant, "!"⟩, ⟨3, .user, "??"⟩, ⟨4, .assistant, "!!"⟩] := by
    decide +kernel
  obtain ⟨w, hrun, hrecent⟩ := Option.map_eq_some_iff.mp h
  exact ⟨w, hrun, hrecent, (turns_adjacent_iff hrun).1⟩

/-- The second turn stores its question before the first one its answer. -/
def crossedRun : List Event := twoTurns ++ [.advance 0, .advance 1, .advance 0, .advance 1]

theorem crossedRun_mispairs : ∃ w, run reliableStep World.init crossedRun = some w ∧
    w.db.messages.recentMessages 1 20 =
      [⟨1, .user, "?"⟩, ⟨2, .user, "??"⟩, ⟨3, .assistant, "!"⟩, ⟨4, .assistant, "!!"⟩] ∧
      ¬ Adjacent w := by
  have h : (run reliableStep World.init crossedRun).map
      (fun w => (rowsOf w.db.messages 1, w.author 2, w.author 3,
        w.db.messages.recentMessages 1 20)) =
        some ([⟨1, 1, .user, "?"⟩, ⟨2, 1, .user, "??"⟩, ⟨3, 1, .assistant, "!"⟩,
          ⟨4, 1, .assistant, "!!"⟩], some 1, some 0,
          [⟨1, .user, "?"⟩, ⟨2, .user, "??"⟩, ⟨3, .assistant, "!"⟩, ⟨4, .assistant, "!!"⟩]) := by
    decide +kernel
  obtain ⟨w, hrun, hw⟩ := Option.map_eq_some_iff.mp h
  simp only [Prod.mk.injEq] at hw
  obtain ⟨hrows, hother, hown, hrecent⟩ := hw
  refine ⟨w, hrun, hrecent, ?_⟩
  intro hadjacent
  obtain ⟨q, hq, -, hauthor⟩ := hadjacent 1 [⟨1, 1, .user, "?"⟩, ⟨2, 1, .user, "??"⟩]
    ⟨3, 1, .assistant, "!"⟩ [⟨4, 1, .assistant, "!!"⟩] hrows rfl
  cases hq
  change w.author 2 = w.author 3 at hauthor
  rw [hother, hown] at hauthor
  cases hauthor

end Chic.Dialog
