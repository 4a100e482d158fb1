import Mathlib.Data.List.Sort
import Mathlib.Data.String.Basic
import Mathlib.Order.Lattice.Nat
import Chic.Dict

namespace Chic.AppDb

abbrev UserId := ℤ

inductive Role
  | user | assistant | reset
  deriving DecidableEq

/-- A row of `messages`; a `reset` row is a session boundary. -/
structure MessageRow where
  id : ℕ
  userId : UserId
  role : Role
  content : String
  deriving DecidableEq

structure Message where
  id : ℕ
  role : Role
  content : String
  deriving DecidableEq

def MessageRow.message (r : MessageRow) : Message := ⟨r.id, r.role, r.content⟩

/-- `messages` in the order of its primary key. Rows are only ever inserted, and the key is
the integer after the largest one, so the table is strictly sorted. -/
structure Messages where
  rows : List MessageRow
  sorted : rows.Pairwise (·.id < ·.id)
  id_pos : ∀ r ∈ rows, 0 < r.id

namespace Messages

def lastId (m : Messages) : ℕ := (m.rows.getLast?.map (·.id)).getD 0

theorem le_lastId (m : Messages) {r : MessageRow} (hr : r ∈ m.rows) : r.id ≤ m.lastId := by
  obtain ⟨init, last, hrows⟩ : ∃ init last, m.rows = init ++ [last] :=
    ⟨_, _, (List.dropLast_append_getLast (List.ne_nil_of_mem hr)).symm⟩
  have hs := m.sorted
  rw [hrows, List.pairwise_append] at hs
  rw [hrows, List.mem_append, List.mem_singleton] at hr
  simp only [lastId, hrows, List.getLast?_append, List.getLast?_singleton, Option.map_some,
    Option.getD_some, Option.some_or]
  rcases hr with hr | rfl
  · exact (hs.2.2 r hr last (List.mem_singleton_self last)).le
  · exact le_rfl

def append (m : Messages) (userId : UserId) (role : Role) (content : String) : Messages where
  rows := m.rows ++ [⟨m.lastId + 1, userId, role, content⟩]
  sorted := by
    refine List.pairwise_append.mpr ⟨m.sorted, List.pairwise_singleton _ _, ?_⟩
    intro r hr r' hr'
    rw [List.mem_singleton] at hr'
    subst hr'
    exact Nat.lt_succ_of_le (m.le_lastId hr)
  id_pos := by
    intro r hr
    rcases List.mem_append.mp hr with hr | hr
    · exact m.id_pos r hr
    · rw [List.mem_singleton] at hr
      subst hr
      exact Nat.succ_pos _

def empty : Messages := ⟨[], List.Pairwise.nil, by simp⟩

/-- `coalesce(max(id), 0)` over the user's boundaries. -/
def sessionEpoch (m : Messages) (userId : UserId) : ℕ :=
  ((m.rows.filter fun r => r.userId = userId ∧ r.role = .reset).map (·.id)).max?.getD 0

/-- The last `n` rows after the last boundary, by a descending scan. -/
def recentMessages (m : Messages) (userId : UserId) (n : ℤ) : List Message :=
  if n ≤ 0 then []
  else
    let rows := m.rows.filter fun r => r.userId = userId ∧ m.sessionEpoch userId < r.id
    ((rows.reverse.take n.toNat).reverse).map (·.message)

def chatSince (m : Messages) (userId : UserId) (sinceId : ℕ) : List Message :=
  (m.rows.filter fun r => r.userId = userId ∧ sinceId < r.id ∧ r.role ≠ .reset).map (·.message)

/-- The first `limit` turns after an id, by an ascending scan. -/
def messagesSince (m : Messages) (userId : UserId) (sinceId : ℕ) (limit : ℤ) : List Message :=
  if limit ≤ 0 then [] else (m.chatSince userId sinceId).take limit.toNat

end Messages

structure MemoryRow where
  value : String
  updatedAt : ℤ
  deriving DecidableEq

structure Preference where
  key : String
  value : String
  deriving DecidableEq

/-- app.db: `session_summary` is keyed by user and epoch, `user_memory` by user and key. -/
structure Store where
  messages : Messages
  sessionSummary : Dict (UserId × ℕ) (String × ℕ)
  userMemory : Dict (UserId × String) MemoryRow

namespace Store

def empty : Store := ⟨Messages.empty, Dict.empty, Dict.empty⟩

def appendMessage (db : Store) (userId : UserId) (role : Role) (content : String) : Store :=
  { db with messages := db.messages.append userId role content }

def startSession (db : Store) (userId : UserId) : Store := db.appendMessage userId .reset ""

def getSessionSummary (db : Store) (userId : UserId) (epoch : ℕ) : String × ℕ :=
  (db.sessionSummary.get? (userId, epoch)).getD ("", 0)

def putSessionSummary (db : Store) (userId : UserId) (epoch : ℕ) (summary : String)
    (upToId : ℕ) : Store :=
  { db with sessionSummary := db.sessionSummary.set (userId, epoch) (summary, upToId) }

def setPreference (db : Store) (userId : UserId) (key value : String) (now : ℤ) : Store :=
  { db with userMemory := db.userMemory.set (userId, key) ⟨value, now⟩ }

def deletePreference (db : Store) (userId : UserId) (key : String) : Store :=
  { db with userMemory := db.userMemory.erase (userId, key) }

end Store

end Chic.AppDb
