import Mathlib.Data.List.DropRight
import Mathlib.Data.List.Induction
import Chic.MessageOrder

namespace Chic.AppDb

inductive SessionCall
  | appendMessage (userId : UserId) (role : { role : Role // role ≠ .reset }) (content : String)
  | startSession (userId : UserId)

def Store.perform (db : Store) : SessionCall → Store
  | .appendMessage userId role content => db.appendMessage userId role content
  | .startSession userId => db.startSession userId

def written (calls : List SessionCall) : Store := calls.foldl Store.perform Store.empty

/-- The number of calls so far and the user's messages since the user's last reset; the message of
the call number `i` has the id `i`. -/
def sessionStep (u : UserId) : ℕ × List Message → SessionCall → ℕ × List Message
  | (i, session), .appendMessage v role content =>
    (i + 1, if v = u then session ++ [⟨i + 1, role, content⟩] else session)
  | (i, session), .startSession v => (i + 1, if v = u then [] else session)

def sessionOf (u : UserId) (calls : List SessionCall) : List Message :=
  (calls.foldl (sessionStep u) (0, [])).2

namespace Messages
variable {m : Messages} {u v : UserId}

theorem chatSince_eq_nil {since : ℕ} (h : m.lastId ≤ since) : m.chatSince u since = [] := by
  rw [List.eq_nil_iff_forall_not_mem]
  intro x hx
  have hlt := lt_of_mem_chatSince hx
  have hle := le_lastId_of_mem_chatSince hx
  omega

/-- After the last boundary there is no boundary, so both reads see the same rows. -/
theorem recentMessages_eq (m : Messages) (u : UserId) (n : ℕ) :
    m.recentMessages u n = (m.chatSince u (m.sessionEpoch u)).rtake n := by
  have hrows : (m.rows.filter fun r => r.userId = u ∧ m.sessionEpoch u < r.id) =
      m.rows.filter fun r => r.userId = u ∧ m.sessionEpoch u < r.id ∧ r.role ≠ .reset := by
    apply List.filter_congr
    intro r hr
    have hturn : r.userId = u → m.sessionEpoch u < r.id → r.role ≠ .reset :=
      fun hu hlt hrole => (le_sessionEpoch m hr hu hrole).not_gt hlt
    rw [decide_eq_decide]
    exact ⟨fun h => ⟨h.1, h.2, hturn h.1 h.2⟩, fun h => ⟨h.1, h.2.1⟩⟩
  rcases Nat.eq_zero_or_pos n with rfl | hn
  · rw [List.rtake_zero]
    rfl
  · rw [recentMessages, if_neg (by omega), Int.toNat_natCast]
    dsimp only
    rw [hrows, chatSince, List.map_reverse, List.map_take, List.map_reverse,
      List.rtake_eq_reverse_take_reverse]

theorem messagesSince_eq {since : ℕ} {limit : ℤ} (h : (m.rows.length : ℤ) ≤ limit) :
    m.messagesSince u since limit = m.chatSince u since := by
  have hlen : (m.chatSince u since).length ≤ m.rows.length := by
    rw [chatSince, List.length_map]
    exact List.length_filter_le _ _
  rw [messagesSince]
  split_ifs with hlimit
  · exact (List.length_eq_zero_iff.mp (by omega)).symm
  · exact List.take_of_length_le (by omega)

theorem chatSince_append_turn {role : Role} (hrole : role ≠ .reset) (content : String) :
    (m.append v role content).chatSince u ((m.append v role content).sessionEpoch u) =
      m.chatSince u (m.sessionEpoch u) ++
        if v = u then [⟨m.lastId + 1, role, content⟩] else [] := by
  rw [sessionEpoch_append_of_ne fun h => hrole h.2, chatSince_append]
  simp only [sessionEpoch_le_lastId, hrole, ne_eq, not_false_eq_true, and_true]

theorem chatSince_append_reset (content : String) :
    (m.append v .reset content).chatSince u ((m.append v .reset content).sessionEpoch u) =
      if v = u then [] else m.chatSince u (m.sessionEpoch u) := by
  split_ifs with hv
  · subst hv
    rw [sessionEpoch_append_reset]
    exact chatSince_eq_nil lastId_append.le
  · rw [sessionEpoch_append_of_ne fun h => hv h.1, chatSince_append, if_neg (by simp),
      List.append_nil]

end Messages

section Reads
open Messages

theorem session_written (u : UserId) (calls : List SessionCall) :
    calls.foldl (sessionStep u) (0, []) = ((written calls).messages.lastId,
      (written calls).messages.chatSince u ((written calls).messages.sessionEpoch u)) := by
  induction calls using List.reverseRecOn with
  | nil => rfl
  | append_singleton calls call ih =>
    rw [written, List.foldl_concat, List.foldl_concat, ih, ← written]
    cases call with
    | appendMessage v role content =>
      apply Prod.ext
      · exact lastId_append.symm
      · refine Eq.trans ?_ (chatSince_append_turn role.2 content).symm
        dsimp only [sessionStep]
        split_ifs
        · rfl
        · exact (List.append_nil _).symm
    | startSession v =>
      apply Prod.ext
      · exact lastId_append.symm
      · exact (chatSince_append_reset "").symm

end Reads

/-- After any calls both reads give the user's messages since the user's last reset, and nothing
right after a reset, which moves the epoch on. -/
theorem sessionReads_agree (calls : List SessionCall) (u : UserId) :
    let m := (written calls).messages
    let fresh := ((written calls).startSession u).messages
    (∀ (n : ℕ) (limit : ℤ), (m.rows.length : ℤ) ≤ limit →
      m.recentMessages u n = (m.messagesSince u (m.sessionEpoch u) limit).rtake n ∧
      m.recentMessages u n = (sessionOf u calls).rtake n ∧
      m.messagesSince u (m.sessionEpoch u) limit = sessionOf u calls) ∧
    (∀ n limit : ℤ, fresh.recentMessages u n = [] ∧
      fresh.messagesSince u (fresh.sessionEpoch u) limit = []) ∧
    m.sessionEpoch u < fresh.sessionEpoch u := by
  intro m fresh
  have hsession : m.chatSince u (m.sessionEpoch u) = sessionOf u calls :=
    (congrArg Prod.snd (session_written u calls)).symm
  have hfresh : fresh.chatSince u (fresh.sessionEpoch u) = [] :=
    (Messages.chatSince_append_reset "").trans (if_pos rfl)
  refine ⟨fun n limit hlimit => ?_, fun n limit => ⟨?_, ?_⟩, ?_⟩
  · rw [Messages.recentMessages_eq, Messages.messagesSince_eq hlimit, hsession]
    exact ⟨rfl, rfl, rfl⟩
  · rcases le_total n 0 with hn | hn
    · exact if_pos hn
    · obtain ⟨k, rfl⟩ := Int.eq_ofNat_of_zero_le hn
      rw [Messages.recentMessages_eq, hfresh]
      exact List.drop_nil
  · rw [Messages.messagesSince, hfresh, List.take_nil, ite_self]
  · exact (Messages.sessionEpoch_le_lastId m u).trans_lt
      (Nat.lt_of_lt_of_eq (Nat.lt_succ_self _) Messages.sessionEpoch_append_reset.symm)

end Chic.AppDb
