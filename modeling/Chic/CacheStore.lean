import Mathlib.Algebra.Order.Floor.Semiring
import Mathlib.Data.Rat.Floor
import Chic.Dict
import Chic.Rounding

namespace Chic.Cache

structure Entry where
  value : ByteArray
  expiresAt : ℤ

abbrev Table := Dict String Entry

namespace Store

/-- What `CacheStore.get` reads when its clock says `now`. -/
def get (t : Table) (now : ℚ) (key : String) : Option ByteArray :=
  match t.get? key with
  | some e => if e.expiresAt > truncToInt now then some e.value else none
  | none => none

def set (t : Table) (now : ℚ) (key : String) (value : ByteArray) (ttl : ℚ) : Table :=
  if ttl ≤ 0 then t else t.set key ⟨value, truncToInt (now + ttl)⟩

/-- The table without the expired rows, and how many these were. -/
def purge (t : Table) (now : ℚ) : Table × ℕ :=
  (t.filter fun e => ¬ e.expiresAt ≤ truncToInt now,
    t.entries.countP fun e => e.2.expiresAt ≤ truncToInt now)

/-- The row that a read at `now` can still see. -/
def live (t : Table) (now : ℚ) (key : String) : Option Entry :=
  (t.get? key).filter fun e => truncToInt now < e.expiresAt

theorem live_eq_some {t : Table} {now : ℚ} {key : String} {e : Entry} :
    live t now key = some e ↔ t.get? key = some e ∧ truncToInt now < e.expiresAt := by
  rw [live, Option.filter_eq_some_iff, decide_eq_true_iff]

theorem get_eq_live (t : Table) (now : ℚ) (key : String) :
    get t now key = (live t now key).map (·.value) := by
  unfold get live
  cases t.get? key with
  | none => rfl
  | some e =>
    by_cases h : truncToInt now < e.expiresAt
    · simp [Option.filter, h]
    · simp [Option.filter, h]

theorem live_set (t : Table) (now : ℚ) (key key' : String) (value : ByteArray) {ttl : ℚ}
    (httl : 0 < ttl) :
    live (set t now key value ttl) now key' =
      if key' = key then
        (some ⟨value, truncToInt (now + ttl)⟩ : Option Entry).filter
          fun e => truncToInt now < e.expiresAt
      else live t now key' := by
  unfold live set
  rw [if_neg (not_le.mpr httl), Dict.get?_set]
  split_ifs <;> rfl

/-- A purge takes only rows that no read sees any more. -/
theorem live_purge (t : Table) (now : ℚ) (key : String) :
    live (purge t now).1 now key = live t now key := by
  ext e
  rw [live_eq_some, live_eq_some, purge, Dict.get?_filter,
    Option.filter_eq_some_iff, and_assoc]
  simp

/-- What is hidden stays hidden as the clock goes on. -/
theorem live_mono {t t' : Table} {now later : ℚ} (hle : now ≤ later)
    (h : ∀ key, live t now key = live t' now key) (key : String) :
    live t later key = live t' later key := by
  have hlater : ∀ u : Table, live u later key =
      (live u now key).filter fun e => truncToInt later < e.expiresAt := by
    intro u
    have hmono := truncToInt_mono hle
    ext e
    rw [live_eq_some, Option.filter_eq_some_iff, live_eq_some, decide_eq_true_iff]
    constructor
    · rintro ⟨hget, he⟩
      exact ⟨⟨hget, by omega⟩, he⟩
    · rintro ⟨⟨hget, -⟩, he⟩
      exact ⟨hget, he⟩
  rw [hlater, hlater, h]

end Store

end Chic.Cache
