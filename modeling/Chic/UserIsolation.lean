import Chic.MessageOrder
import Chic.Preferences
import Chic.RateLimiter

namespace Chic.Isolation
open AppDb AppDb.Messages RateLimiter

/-- The calls of one user: on the store, and `allow` on the rate limiter. -/
inductive Op (F : Type*)
  | append (role : Role) (content : String)
  | startSession
  | sessionEpoch
  | recentMessages (n : ℤ)
  | messagesSince (sinceId : ℕ) (limit : ℤ)
  | getSessionSummary (epoch : ℕ)
  | putSessionSummary (epoch : ℕ) (summary : String) (upToId : ℕ)
  | setPreference (key value : String) (now : ℤ)
  | deletePreference (key : String)
  | preferences
  | allow (nowTs : F)

inductive Answer
  | done
  | epoch (id : ℕ)
  | messages (ms : List Message)
  | summary (text : String) (upToId : ℕ)
  | preferences (prefs : List Preference)
  | allowed (ok : Bool)
  deriving DecidableEq

structure State (F : Type*) where
  db : Store
  buckets : Buckets F

def State.init (F : Type*) : State F := ⟨Store.empty, Dict.empty⟩

/-- Message ids in what is asked are renamed; a session is known by its epoch. -/
def Op.rename {F : Type*} (id epoch : ℕ → ℕ) : Op F → Op F
  | .messagesSince sinceId limit => .messagesSince (id sinceId) limit
  | .getSessionSummary e => .getSessionSummary (epoch e)
  | .putSessionSummary e summary upToId => .putSessionSummary (epoch e) summary (id upToId)
  | op => op

def renameMessage (id : ℕ → ℕ) (m : Message) : Message := { m with id := id m.id }

def renameRow (id : ℕ → ℕ) (r : MessageRow) : MessageRow := { r with id := id r.id }

/-- Message ids in what is answered are renamed. -/
def Answer.rename (id : ℕ → ℕ) : Answer → Answer
  | .epoch e => .epoch (id e)
  | .messages ms => .messages (ms.map (renameMessage id))
  | .summary text upToId => .summary text (id upToId)
  | answer => answer

section
variable {F : Type*} [Add F] [Sub F] [Mul F] [Div F] [Min F] [LT F] [DecidableLT F] [IntCast F]
  [NatCast F]

def perform (perHour : ℤ) (s : State F) (u : UserId) : Op F → State F × Answer
  | .append role content => ({ s with db := s.db.appendMessage u role content }, .done)
  | .startSession => ({ s with db := s.db.startSession u }, .done)
  | .sessionEpoch => (s, .epoch (s.db.messages.sessionEpoch u))
  | .recentMessages n => (s, .messages (s.db.messages.recentMessages u n))
  | .messagesSince sinceId limit => (s, .messages (s.db.messages.messagesSince u sinceId limit))
  | .getSessionSummary epoch =>
    let (text, upToId) := s.db.getSessionSummary u epoch
    (s, .summary text upToId)
  | .putSessionSummary epoch summary upToId =>
    ({ s with db := s.db.putSessionSummary u epoch summary upToId }, .done)
  | .setPreference key value now => ({ s with db := s.db.setPreference u key value now }, .done)
  | .deletePreference key => ({ s with db := s.db.deletePreference u key }, .done)
  | .preferences => (s, .preferences (s.db.preferences u))
  | .allow nowTs =>
    let (ok, buckets) := RateLimiter.allow perHour s.buckets u nowTs
    ({ s with buckets }, .allowed ok)

/-- The calls of any users one after the other, with what each of them is answered. -/
def serve (perHour : ℤ) : State F → List (UserId × Op F) → State F × List (UserId × Answer)
  | s, [] => (s, [])
  | s, (u, op) :: ops =>
    let (s', answer) := perform perHour s u op
    let (t, answers) := serve perHour s' ops
    (t, (u, answer) :: answers)

def observed (u : UserId) (answers : List (UserId × Answer)) : List Answer :=
  (answers.filter (·.1 = u)).map Prod.snd

def alone (u : UserId) (id epoch : ℕ → ℕ) (ops : List (UserId × Op F)) : List (UserId × Op F) :=
  (ops.filter (·.1 = u)).map fun e => (e.1, e.2.rename id epoch)

end

def ids (m : Messages) (u : UserId) : List ℕ := (m.rowsOf u).map (·.id)

section Rank
variable {ks later : List ℕ} {k k' : ℕ}

/-- How many of the ids are not after an id. -/
def rank (ks : List ℕ) (k : ℕ) : ℕ := ks.countP (· ≤ k)

theorem rank_mono (h : k ≤ k') : rank ks k ≤ rank ks k' := by
  apply List.countP_mono_left
  intro x _ hx
  simp only [decide_eq_true_eq] at hx ⊢
  omega

theorem rank_lt_iff (hk' : k' ∈ ks) : rank ks k < rank ks k' ↔ k < k' := by
  refine ⟨?_, ?_⟩
  · intro h
    by_contra hle
    exact absurd (rank_mono (not_lt.mp hle)) (not_le.mpr h)
  · intro h
    obtain ⟨before, after, rfl⟩ := List.append_of_mem hk'
    have hbefore : rank before k ≤ rank before k' := rank_mono h.le
    have hafter : rank after k ≤ rank after k' := rank_mono h.le
    simp only [rank, List.countP_append, List.countP_cons, decide_eq_true_eq] at hbefore hafter ⊢
    rw [if_neg (not_le.mpr h), if_pos le_rfl]
    omega

theorem rank_zero (hpos : ∀ x ∈ ks, 0 < x) : rank ks 0 = 0 := by
  apply List.countP_eq_zero.mpr
  intro x hx
  have := hpos x hx
  simp only [decide_eq_true_eq]
  omega

theorem rank_next (hbefore : ∀ x ∈ ks, x < k) (hlater : ∀ x ∈ later, k < x) :
    rank (ks ++ k :: later) k = ks.length + 1 := by
  have h₁ : ks.countP (· ≤ k) = ks.length :=
    List.countP_eq_length.mpr fun x hx => by simpa using (hbefore x hx).le
  have h₂ : later.countP (· ≤ k) = 0 :=
    List.countP_eq_zero.mpr fun x hx => by simpa using hlater x hx
  rw [rank, List.countP_append, List.countP_cons_of_pos (by simp), h₁, h₂]

/-- Numbers that are no ids of the user get names past all ranks. -/
def sessionName (ks : List ℕ) (e : ℕ) : ℕ :=
  if e = 0 ∨ e ∈ ks then rank ks e else ks.length + 1 + e

theorem sessionName_injective (ks : List ℕ) : (sessionName ks).Injective := by
  have hle : ∀ e, rank ks e ≤ ks.length := fun e => List.countP_le_length
  -- two ids, or 0 and an id, have different ranks
  have hlt : ∀ e e', (e' = 0 ∨ e' ∈ ks) → e < e' → rank ks e < rank ks e' := by
    intro e e' he' h
    rcases he' with rfl | he'
    · omega
    · exact (rank_lt_iff he').mpr h
  intro e e' h
  have he := hle e
  have he' := hle e'
  unfold sessionName at h
  split_ifs at h with hid hid' hid'
  · rcases lt_trichotomy e e' with hee | rfl | hee
    · exact absurd h (hlt e e' hid' hee).ne
    · rfl
    · exact absurd h (hlt e' e hid hee).ne'
  · omega
  · omega
  · omega

end Rank

section Reads
variable {m m' : Messages} {u : UserId} {id : ℕ → ℕ}

/-- The messages of one user under other ids. -/
structure Renamed (id : ℕ → ℕ) (u : UserId) (m m' : Messages) : Prop where
  rows : m'.rows = (m.rowsOf u).map (renameRow id)
  zero : id 0 = 0
  mono : Monotone id
  lt_iff : ∀ r ∈ m.rowsOf u, ∀ k, id k < id r.id ↔ k < r.id

theorem Renamed.filter (h : Renamed id u m m') {p p' : MessageRow → Bool}
    (hu : ∀ r, p r = true → r.userId = u)
    (hp : ∀ r ∈ m.rowsOf u, p' (renameRow id r) = p r) :
    m'.rows.filter p' = (m.rows.filter p).map (renameRow id) := by
  have hown : (m.rowsOf u).filter p = m.rows.filter p := by
    unfold rowsOf
    rw [List.filter_filter]
    apply List.filter_congr
    intro r _
    cases hr : p r with
    | false => simp
    | true => simpa using hu r hr
  rw [h.rows, List.filter_map, ← hown]
  congr 1
  apply List.filter_congr
  intro r hr
  exact hp r hr

theorem max?_map {ks : List ℕ} (hmono : Monotone id) :
    (ks.map id).max? = ks.max?.map id := by
  cases h : ks.max? with
  | none =>
    rw [List.max?_eq_none_iff.mp h]
    rfl
  | some k =>
    obtain ⟨hk, hmax⟩ := List.max?_eq_some_iff.mp h
    refine List.max?_eq_some_iff.mpr ⟨List.mem_map_of_mem hk, ?_⟩
    intro x hx
    obtain ⟨x₀, hx₀, rfl⟩ := List.mem_map.mp hx
    exact hmono (hmax x₀ hx₀)

theorem Renamed.sessionEpoch (h : Renamed id u m m') :
    m'.sessionEpoch u = id (m.sessionEpoch u) := by
  unfold Messages.sessionEpoch
  rw [h.filter (p := fun r => decide (r.userId = u ∧ r.role = .reset))
    (fun r hr => (of_decide_eq_true hr).1) (fun r _ => rfl), List.map_map]
  have hmap : (fun r : MessageRow => r.id) ∘ renameRow id = id ∘ fun r => r.id := rfl
  rw [hmap, ← List.map_map, max?_map h.mono]
  cases ((m.rows.filter fun r => decide (r.userId = u ∧ r.role = .reset)).map (·.id)).max? with
  | none => exact h.zero.symm
  | some k => rfl

theorem map_message (id : ℕ → ℕ) (rows : List MessageRow) :
    (rows.map (renameRow id)).map (·.message) =
      (rows.map (·.message)).map (renameMessage id) := by
  rw [List.map_map, List.map_map]
  rfl

theorem Renamed.recentMessages (h : Renamed id u m m') (n : ℤ) :
    m'.recentMessages u n = (m.recentMessages u n).map (renameMessage id) := by
  unfold Messages.recentMessages
  split_ifs
  · rfl
  · dsimp only
    rw [h.filter (p := fun r => decide (r.userId = u ∧ m.sessionEpoch u < r.id))
      (fun r hr => (of_decide_eq_true hr).1), ← List.map_reverse, ← List.map_take,
      ← List.map_reverse, map_message]
    intro r hr
    rw [h.sessionEpoch]
    simp only [renameRow, h.lt_iff r hr]

theorem Renamed.messagesSince (h : Renamed id u m m') (sinceId : ℕ) (limit : ℤ) :
    m'.messagesSince u (id sinceId) limit =
      (m.messagesSince u sinceId limit).map (renameMessage id) := by
  unfold Messages.messagesSince
  split_ifs
  · rfl
  · unfold chatSince
    rw [h.filter (p := fun r => decide (r.userId = u ∧ sinceId < r.id ∧ r.role ≠ .reset))
      (fun r hr => (of_decide_eq_true hr).1), map_message, List.map_take]
    intro r hr
    simp only [renameRow, h.lt_iff r hr]

end Reads

section TwoRuns
variable {F : Type*} {perHour : ℤ} {u v : UserId} {id epoch : ℕ → ℕ} {s s' : State F}

/-- What a user has in the run of all users, and what the user has in a run alone. -/
structure Alike (id epoch : ℕ → ℕ) (u : UserId) (s s' : State F) : Prop where
  messages : Renamed id u s.db.messages s'.db.messages
  count : s'.db.messages.lastId = (s.db.messages.rowsOf u).length
  summaries : ∀ e, s'.db.sessionSummary.get? (u, epoch e) =
    (s.db.sessionSummary.get? (u, e)).map fun row => (row.1, id row.2)
  memory : s'.db.userMemory.slice u = s.db.userMemory.slice u
  bucket : s'.buckets.get? u = s.buckets.get? u

theorem Alike.preferences (h : Alike id epoch u s s') :
    s'.db.preferences u = s.db.preferences u := by
  have hrows : s'.db.profileRows u = s.db.profileRows u := congrArg Dict.entries h.memory
  unfold Store.preferences
  rw [hrows]

theorem Alike.getSessionSummary (h : Alike id epoch u s s') (e : ℕ) :
    s'.db.getSessionSummary u (epoch e) =
      ((s.db.getSessionSummary u e).1, id (s.db.getSessionSummary u e).2) := by
  unfold Store.getSessionSummary
  rw [h.summaries]
  cases s.db.sessionSummary.get? (u, e) with
  | none => exact congrArg (Prod.mk "") h.messages.zero.symm
  | some row => rfl

/-- A summary is found again under its own epoch only. -/
theorem Alike.putSessionSummary (h : Alike id epoch u s s') (hinj : epoch.Injective) (e : ℕ)
    (summary : String) (upToId : ℕ) :
    Alike id epoch u { s with db := s.db.putSessionSummary u e summary upToId }
      { s' with db := s'.db.putSessionSummary u (epoch e) summary (id upToId) } := by
  refine ⟨h.messages, h.count, ?_, h.memory, h.bucket⟩
  intro e'
  show (s'.db.sessionSummary.set (u, epoch e) _).get? (u, epoch e') =
    ((s.db.sessionSummary.set (u, e) _).get? (u, e')).map _
  rw [Dict.get?_set, Dict.get?_set, h.summaries]
  by_cases he : e' = e
  · rw [if_pos (by rw [he]), if_pos (by rw [he])]
    rfl
  · rw [if_neg (by simpa using hinj.ne he), if_neg (by simpa using he)]

variable {ks later : List ℕ}

theorem alike_init (hpos : ∀ k ∈ ks, 0 < k) :
    Alike (rank ks) epoch u (State.init F) (State.init F) where
  messages :=
    { rows := rfl
      zero := rank_zero hpos
      mono := fun _ _ => rank_mono
      lt_iff := fun _ h => by cases h }
  count := rfl
  summaries _ := rfl
  memory := rfl
  bucket := rfl

theorem Alike.append (h : Alike (rank ks) epoch u s s') (role : Role) (content : String)
    (hks : ks = ids s.db.messages u ++ (s.db.messages.lastId + 1) :: later)
    (hlater : ∀ k ∈ later, s.db.messages.lastId + 1 < k) :
    Alike (rank ks) epoch u { s with db := s.db.appendMessage u role content }
      { s' with db := s'.db.appendMessage u role content } := by
  have hrows : (s.db.messages.append u role content).rowsOf u =
      s.db.messages.rowsOf u ++ [⟨s.db.messages.lastId + 1, u, role, content⟩] := by
    rw [rowsOf_append, if_pos rfl]
  have hbefore : ∀ k ∈ ids s.db.messages u, k < s.db.messages.lastId + 1 := by
    intro k hk
    obtain ⟨r, hr, rfl⟩ := List.mem_map.mp hk
    exact Nat.lt_succ_of_le (s.db.messages.le_lastId (List.mem_of_mem_filter hr))
  have hrank : rank ks (s.db.messages.lastId + 1) = s'.db.messages.lastId + 1 := by
    rw [hks, rank_next hbefore hlater, h.count, ids, List.length_map]
  refine ⟨⟨?_, h.messages.zero, h.messages.mono, ?_⟩, ?_, h.summaries, h.memory, h.bucket⟩
  · show s'.db.messages.rows ++ [⟨s'.db.messages.lastId + 1, u, role, content⟩] =
      ((s.db.messages.append u role content).rowsOf u).map _
    rw [hrows, List.map_append, ← h.messages.rows, ← hrank]
    rfl
  · show ∀ r ∈ (s.db.messages.append u role content).rowsOf u, _
    rw [hrows]
    intro r hr k
    rcases List.mem_append.mp hr with hr | hr
    · exact h.messages.lt_iff r hr k
    · rw [List.mem_singleton.mp hr]
      exact rank_lt_iff (by rw [hks]; simp)
  · show (s'.db.messages.append u role content).lastId =
      ((s.db.messages.append u role content).rowsOf u).length
    rw [lastId_append, hrows, List.length_append, h.count]
    rfl

theorem observed_cons (u v : UserId) (answer : Answer) (answers : List (UserId × Answer)) :
    observed u ((v, answer) :: answers) =
      if v = u then answer :: observed u answers else observed u answers := by
  unfold observed
  split_ifs with hv <;> simp [hv]

theorem alone_cons (u v : UserId) (id epoch : ℕ → ℕ) (op : Op F) (ops : List (UserId × Op F)) :
    alone u id epoch ((v, op) :: ops) =
      if v = u then (v, op.rename id epoch) :: alone u id epoch ops else alone u id epoch ops := by
  unfold alone
  split_ifs with hv <;> simp [hv]

variable [Add F] [Sub F] [Mul F] [Div F] [Min F] [LT F] [DecidableLT F] [IntCast F] [NatCast F]

theorem Alike.other (h : Alike id epoch u s s') (hv : v ≠ u) (op : Op F) :
    Alike id epoch u (perform perHour s v op).1 s' := by
  have happend : ∀ role content, Alike id epoch u
      { s with db := s.db.appendMessage v role content } s' := by
    intro role content
    have hrows : (s.db.messages.append v role content).rowsOf u = s.db.messages.rowsOf u := by
      rw [rowsOf_append, if_neg (Ne.symm hv), List.append_nil]
    refine ⟨⟨?_, h.messages.zero, h.messages.mono, ?_⟩, ?_, h.summaries, h.memory, h.bucket⟩
    · show s'.db.messages.rows = ((s.db.messages.append v role content).rowsOf u).map _
      rw [hrows]
      exact h.messages.rows
    · show ∀ r ∈ (s.db.messages.append v role content).rowsOf u, _
      rw [hrows]
      exact h.messages.lt_iff
    · show _ = ((s.db.messages.append v role content).rowsOf u).length
      rw [hrows]
      exact h.count
  cases op with
  | append role content => exact happend role content
  | startSession => exact happend .reset ""
  | putSessionSummary e summary upToId =>
    refine ⟨h.messages, h.count, ?_, h.memory, h.bucket⟩
    intro e'
    rw [h.summaries e']
    exact congrArg (Option.map _) (Dict.get?_set_of_ne _ _ (by simp [Ne.symm hv])).symm
  | setPreference key value now =>
    refine ⟨h.messages, h.count, h.summaries, ?_, h.bucket⟩
    exact h.memory.trans (Dict.slice_set_of_ne _ _ _ (Ne.symm hv)).symm
  | deletePreference key =>
    refine ⟨h.messages, h.count, h.summaries, ?_, h.bucket⟩
    exact h.memory.trans (Dict.slice_erase_of_ne _ _ (Ne.symm hv)).symm
  | allow nowTs =>
    refine ⟨h.messages, h.count, h.summaries, h.memory, ?_⟩
    exact h.bucket.trans (allow_get?_of_ne (Ne.symm hv) nowTs).symm
  | _ => exact h

/-- A call of the user is answered alike in both runs. -/
theorem Alike.own (h : Alike (rank ks) epoch u s s') (hinj : epoch.Injective) (op : Op F)
    (hks : ks = ids (perform perHour s u op).1.db.messages u ++ later)
    (hlater : ∀ k ∈ later, (perform perHour s u op).1.db.messages.lastId < k) :
    Alike (rank ks) epoch u (perform perHour s u op).1
        (perform perHour s' u (op.rename (rank ks) epoch)).1 ∧
      (perform perHour s' u (op.rename (rank ks) epoch)).2 =
        (perform perHour s u op).2.rename (rank ks) := by
  have happend : ∀ role content,
      ks = ids (s.db.messages.append u role content) u ++ later →
      (∀ k ∈ later, (s.db.messages.append u role content).lastId < k) →
      Alike (rank ks) epoch u { s with db := s.db.appendMessage u role content }
        { s' with db := s'.db.appendMessage u role content } := by
    intro role content hks hlater
    rw [lastId_append] at hlater
    refine h.append role content ?_ hlater
    rw [hks, ids, rowsOf_append, if_pos rfl, List.map_append, List.append_assoc]
    rfl
  -- an append gets the next rank; what is read or written otherwise is the user's own
  cases op with
  | append role content => exact ⟨happend role content hks hlater, rfl⟩
  | startSession => exact ⟨happend .reset "" hks hlater, rfl⟩
  | sessionEpoch => exact ⟨h, congrArg Answer.epoch h.messages.sessionEpoch⟩
  | recentMessages n => exact ⟨h, congrArg Answer.messages (h.messages.recentMessages n)⟩
  | messagesSince sinceId limit =>
    exact ⟨h, congrArg Answer.messages (h.messages.messagesSince sinceId limit)⟩
  | getSessionSummary e =>
    refine ⟨h, ?_⟩
    show Answer.summary (s'.db.getSessionSummary u (epoch e)).1
        (s'.db.getSessionSummary u (epoch e)).2 =
      Answer.summary (s.db.getSessionSummary u e).1 (rank ks (s.db.getSessionSummary u e).2)
    rw [h.getSessionSummary]
  | putSessionSummary e summary upToId => exact ⟨h.putSessionSummary hinj e summary upToId, rfl⟩
  | setPreference key value now =>
    refine ⟨⟨h.messages, h.count, h.summaries, ?_, h.bucket⟩, rfl⟩
    show (s'.db.userMemory.set (u, key) _).slice u = (s.db.userMemory.set (u, key) _).slice u
    rw [Dict.slice_set_self, Dict.slice_set_self, h.memory]
  | deletePreference key =>
    refine ⟨⟨h.messages, h.count, h.summaries, ?_, h.bucket⟩, rfl⟩
    show (s'.db.userMemory.erase (u, key)).slice u = (s.db.userMemory.erase (u, key)).slice u
    rw [Dict.slice_erase_self, Dict.slice_erase_self, h.memory]
  | preferences => exact ⟨h, congrArg Answer.preferences h.preferences⟩
  | allow nowTs =>
    obtain ⟨hok, hbucket⟩ := allow_congr h.bucket nowTs
    exact ⟨⟨h.messages, h.count, h.summaries, h.memory, hbucket⟩, congrArg Answer.allowed hok⟩

theorem perform_messages (perHour : ℤ) (s : State F) (v : UserId) (op : Op F) :
    (perform perHour s v op).1.db.messages = s.db.messages ∨ ∃ role content,
      (perform perHour s v op).1.db.messages = s.db.messages.append v role content := by
  cases op with
  | append role content => exact .inr ⟨role, content, rfl⟩
  | startSession => exact .inr ⟨.reset, "", rfl⟩
  | _ => exact .inl rfl

theorem serve_ids (perHour : ℤ) (s : State F) (u : UserId) (ops : List (UserId × Op F)) :
    ∃ later, ids (serve perHour s ops).1.db.messages u = ids s.db.messages u ++ later ∧
      ∀ k ∈ later, s.db.messages.lastId < k := by
  induction ops generalizing s with
  | nil => exact ⟨[], by simp [serve], by simp⟩
  | cons op ops ih =>
    obtain ⟨v, op⟩ := op
    obtain ⟨later, hids, hlater⟩ := ih (perform perHour s v op).1
    show ∃ later, ids (serve perHour (perform perHour s v op).1 ops).1.db.messages u = _ ∧ _
    rw [hids]
    rcases perform_messages perHour s v op with hm | ⟨role, content, hm⟩
    · rw [hm] at hlater ⊢
      exact ⟨later, rfl, hlater⟩
    · rw [hm, lastId_append] at hlater
      rw [hm, ids, rowsOf_append, List.map_append, List.append_assoc]
      refine ⟨_, rfl, ?_⟩
      intro k hk
      rcases List.mem_append.mp hk with hk | hk
      · split_ifs at hk
        · rw [List.map_singleton, List.mem_singleton] at hk
          exact hk ▸ Nat.lt_succ_self _
        · cases hk
      · exact (Nat.lt_succ_self _).trans (hlater k hk)

theorem serve_alike {ops : List (UserId × Op F)} (h : Alike (rank ks) epoch u s s')
    (hinj : epoch.Injective) (hks : ks = ids (serve perHour s ops).1.db.messages u) :
    observed u (serve perHour s' (alone u (rank ks) epoch ops)).2 =
      (observed u (serve perHour s ops).2).map (Answer.rename (rank ks)) := by
  induction ops generalizing s s' with
  | nil => rfl
  | cons op ops ih =>
    obtain ⟨v, op⟩ := op
    by_cases hv : v = u
    · subst hv
      obtain ⟨later, hids, hlater⟩ := serve_ids perHour (perform perHour s v op).1 v ops
      obtain ⟨hnext, hanswer⟩ := h.own hinj op (hks.trans hids) hlater
      have hrest := ih hnext hks
      rw [alone_cons, if_pos rfl]
      dsimp only [serve]
      rw [observed_cons, if_pos rfl, observed_cons, if_pos rfl, hanswer, hrest]
      rfl
    · have hrest := ih (h.other hv op) hks
      rw [alone_cons, if_neg hv]
      dsimp only [serve]
      rw [observed_cons, if_neg hv, hrest]

/-- Whatever the other users do, a user is answered the same, but for message ids, which are
renamed in their order: without the calls of the others every call of the user gets the answer
that it got among them. -/
theorem user_isolation (perHour : ℤ) (u : UserId) (ops : List (UserId × Op F)) :
    ∃ id epoch : ℕ → ℕ,
      let shared := serve perHour (State.init F) ops
      let own : Set ℕ := {k | k = 0 ∨ k ∈ ids shared.1.db.messages u}
      id 0 = 0 ∧ Monotone id ∧ StrictMonoOn id own ∧ epoch.Injective ∧ Set.EqOn epoch id own ∧
      observed u (serve perHour (State.init F) (alone u id epoch ops)).2 =
        (observed u shared.2).map (Answer.rename id) := by
  let ks := ids (serve perHour (State.init F) ops).1.db.messages u
  have hpos : ∀ k ∈ ks, 0 < k := by
    intro k hk
    obtain ⟨r, hr, rfl⟩ := List.mem_map.mp hk
    exact Messages.id_pos _ r (List.mem_of_mem_filter hr)
  refine ⟨rank ks, sessionName ks, rank_zero hpos, fun _ _ => rank_mono, ?_,
    sessionName_injective ks, fun k hk => if_pos hk,
    serve_alike (alike_init hpos) (sessionName_injective ks) rfl⟩
  intro k _ k' hk' hlt
  rcases hk' with rfl | hk'
  · omega
  · exact (rank_lt_iff hk').mpr hlt

end TwoRuns

example : observed 1 (serve 1 (State.init ℚ)
    [(2, .append .user "?"), (1, .append .user "!"), (1, .allow 0), (2, .allow 0), (1, .allow 0),
      (1, .recentMessages 5)]).2 =
    [.done, .allowed true, .allowed false, .messages [⟨2, .user, "!"⟩]] := by
  decide +kernel

end Chic.Isolation
