import Mathlib.Logic.Function.Basic
import Chic.CacheKey
import Chic.CacheStore
import Chic.Trace

namespace Chic.Cache

/-- Cache lifetimes in seconds. -/
structure TTLs where
  products : ℚ := 30 * 60
  dashboard : ℚ := 5 * 60
  reports : ℚ := 10 * 60
  documents : ℚ := 5 * 60
  counterparty : ℚ := 30 * 60
  currency : ℚ := 24 * 60 * 60
  references : ℚ := 60 * 60
  audit : ℚ := 60

def TTLs.of (ttls : TTLs) : Method → ℚ
  | .listProducts => ttls.products
  | .searchCounterparties => ttls.counterparty
  | .accountCurrency => ttls.currency
  | .listEntityRefs | .searchAssortment | .listStates => ttls.references
  | .getDashboard => ttls.dashboard
  | .profitByProduct | .profitByEntity | .getTurnover | .getStock | .getCounterpartyReport
  | .getMoneySeries | .getStockByStore | .getSalesSeries => ttls.reports
  | .getAudit => ttls.audit
  | .searchDocuments | .getDocument => ttls.documents

/-- A type adapter; `validateJson` is `none` on a `ValidationError`. -/
structure Adapter (V : Type) where
  dumpJson : V → ByteArray
  validateJson : ByteArray → Option V

/-- The await that a call of `_cached` stands before, or how it ended. -/
inductive CallPc (V : Type)
  | looking (raw : Option ByteArray)
  | fetching
  | storing (v : V)
  | returned (v : V)
  | raised

def CallPc.ended {V : Type} : CallPc V → Bool
  | .returned _ | .raised => true
  | _ => false

abbrev Values := Method → Type

structure Task (Value : Values) where
  call : Call
  began : ℚ
  pc : CallPc (Value call.method)

structure Answer (Value : Values) where
  task : ℕ
  call : Call
  value : Value call.method

structure Stored (Value : Values) where
  answer : Answer Value
  time : ℚ

/-- The cache with the calls in flight; seconds are exact. `fetched` and `stored` are
observations. -/
structure World (Value : Values) where
  now : ℚ
  table : Table
  tasks : ℕ → Option (Task Value)
  fetched : List (Answer Value)
  stored : List (Stored Value)

/-- The connection runs statements in the order in which they are issued, so each of them is
part of the event that issues it, and a flag says whether it took effect. Between two awaits
nothing interferes. `abort` is an exception of the source, a cancelled task, or a restart, which
keeps the table. -/
inductive Event (Value : Values)
  | tick (now : ℚ)
  | call (i : ℕ) (c : Call) (reads : Bool)
  | looked (i : ℕ)
  | fetched (i : ℕ) (c : Call) (value : Value c.method) (writes : Bool)
  | stored (i : ℕ)
  | abort (i : ℕ)
  | purge (works : Bool)

structure Client (Value : Values) where
  ttls : TTLs
  adapter : ∀ m, Adapter (Value m)
  hexdigest : ByteArray → String

variable {Value : Values}

def Client.ttl (cl : Client Value) (c : Call) : ℚ := cl.ttls.of c.method

def Client.key (cl : Client Value) (c : Call) : String := Cache.key cl.hexdigest c

def Client.validateJson (cl : Client Value) (c : Call) (raw : ByteArray) :
    Option (Value c.method) :=
  (cl.adapter c.method).validateJson raw

namespace World

def init (now : ℚ) : World Value := ⟨now, Dict.empty, fun _ => none, [], []⟩

def setTask (w : World Value) (i : ℕ) (task : Task Value) : World Value :=
  { w with tasks := Function.update w.tasks i (some task) }

/-- `self._store.set(key, adapter.dump_json(value), ttl)` for the value of an answer. -/
def store (cl : Client Value) (w : World Value) (a : Answer Value) (writes : Bool) :
    World Value :=
  if writes then
    { w with
      table := Store.set w.table w.now (cl.key a.call)
        ((cl.adapter a.call.method).dumpJson a.value) (cl.ttl a.call)
      stored := w.stored ++ [⟨a, w.now⟩] }
  else w

end World

/-- `_cached` up to its first await. -/
def Client.begin (cl : Client Value) (w : World Value) (c : Call) (reads : Bool) : Task Value :=
  if cl.ttl c ≤ 0 then ⟨c, w.now, .fetching⟩
  -- a read that fails is a miss
  else ⟨c, w.now, .looking (if reads then Store.get w.table w.now (cl.key c) else none)⟩

def step (cl : Client Value) (w : World Value) : Event Value → Option (World Value)
  | .tick now => if w.now ≤ now then some { w with now } else none
  | .call i c reads =>
    match w.tasks i with
    | none => some (w.setTask i (cl.begin w c reads))
    | some _ => none
  | .looked i =>
    match w.tasks i with
    | some ⟨c, began, .looking raw⟩ =>
      match raw.bind (cl.validateJson c) with
      | some v => some (w.setTask i ⟨c, began, .returned v⟩)
      -- a miss, or an entry that does not validate any more
      | none => some (w.setTask i ⟨c, began, .fetching⟩)
    | _ => none
  | .fetched i c v writes =>
    match w.tasks i with
    | some ⟨c', began, .fetching⟩ =>
      if c' = c then
        let a : Answer Value := ⟨i, c, v⟩
        let w := { w with fetched := w.fetched ++ [a] }
        if cl.ttl c ≤ 0 then some (w.setTask i ⟨c, began, .returned v⟩)
        else some ((w.store cl a writes).setTask i ⟨c, began, .storing v⟩)
      else none
    | _ => none
  | .stored i =>
    match w.tasks i with
    | some ⟨c, began, .storing v⟩ => some (w.setTask i ⟨c, began, .returned v⟩)
    | _ => none
  | .abort i =>
    match w.tasks i with
    | some ⟨c, began, pc⟩ => if pc.ended then none else some (w.setTask i ⟨c, began, .raised⟩)
    | none => none
  | .purge works =>
    some (if works then { w with table := (Store.purge w.table w.now).1 } else w)

end Chic.Cache
