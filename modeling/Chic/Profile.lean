import Chic.Keyboards
import Chic.Preferences
import Chic.Trace
import Mathlib.Logic.Function.Basic

namespace Chic.Profile
open AppDb Keyboards

def maxPrefKeyLen : ℕ := 64
def maxPrefValueLen : ℕ := 200
def consolidateThreshold : ℕ := 8

/-- The checks of `_remember`: the collapsed pair, or the text of the error. -/
def checkRemember (key value : String) : Except String (String × String) :=
  let key := PyText.collapse key
  let value := PyText.collapse value
  if key = "" then .error "ERROR: key обязателен и не может быть пустым"
  else if maxPrefKeyLen < key.length then
    .error ("ERROR: key слишком длинный (макс " ++ toString maxPrefKeyLen ++ " символов)")
  else if value = "" then .error "ERROR: value обязателен для remember_preference"
  else if maxPrefValueLen < value.length then
    .error ("ERROR: value слишком длинный (макс " ++ toString maxPrefValueLen ++
      " символов); сохрани короче и по сути")
  else .ok (key, value)

/-- The pairs of a decoded reply that `_parse_consolidated` keeps. -/
def consolidated (pairs : List (String × String)) : List Preference :=
  pairs.foldl (fun out e =>
    let key := PyText.collapse e.1
    let value := PyText.collapse e.2
    if key = "" ∨ value = "" then out
    else if maxPrefKeyLen < key.length ∨ maxPrefValueLen < value.length then out
    -- of a repeated key the first pair counts
    else if out.any (·.key = key) then out
    else out ++ [⟨key, value⟩]) []

inductive Write
  | delete (key : String)
  | set (key value : String)
  deriving DecidableEq

def Write.key : Write → String
  | .delete key => key
  | .set key _ => key

/-- What stands under the key afterwards. -/
def Write.effect : Write → Option String
  | .delete _ => none
  | .set _ value => some value

/-- The deletes and upserts of `_maybe_consolidate`, none for an unusable reply. -/
def writeBack (current desired : List Preference) : List Write :=
  if desired = [] ∨ current.length < desired.length then []
  else
    (current.filter fun p => p.key ∉ desired.map (·.key)).map (.delete ·.key) ++
      desired.map fun p => .set p.key p.value

/-- The await that a `_maybe_consolidate` stands before. -/
inductive JobPc
  | reading
  | asking (current : List Preference)
  | writing (pending : List Write)
  | done
  deriving DecidableEq

/-- A running `_maybe_consolidate`. `missed` is an observer's mark: the keys that the user
wrote or deleted after the snapshot was read. -/
structure Job where
  userId : UserId
  pc : JobPc := .reading
  missed : List String := []
  deriving DecidableEq

/-- The await that a `_cb_memory_forget` stands before. -/
inductive PressPc
  | reading
  | deleting (prefs : List Preference)
  | rereading
  | editing (prefs : List Preference)
  | done
  deriving DecidableEq

/-- A pressed button, the key that its text shows (which the handler does not look at)
and the index that its data yields. -/
structure Press where
  userId : UserId
  label : String
  index : ℕ
  pc : PressPc := .reading
  deriving DecidableEq

/-- app.db, the `/memory` renderings sent so far, and the handlers in flight. `promised` is an
observer's note: what the user's last operation on a key left, until a consolidation whose
snapshot has it writes the key. -/
structure World where
  db : Store
  sent : List (UserId × List Preference)
  jobs : ℕ → Option Job
  presses : ℕ → Option Press
  promised : UserId × String → Option (Option String)

def World.init : World := ⟨Store.empty, [], fun _ => none, fun _ => none, fun _ => none⟩

/-- Between two awaits nothing interferes: `advance` is the next store access of a
consolidation, `fails` that access raising, `pressed` the next one of a button's handler. -/
inductive Event
  | remember (j : ℕ) (userId : UserId) (key value : String) (now : ℤ)
  | forget (userId : UserId) (key : String)
  | advance (j : ℕ) (now : ℤ)
  | replied (j : ℕ) (pairs : List (String × String))
  | fails (j : ℕ)
  | showMemory (userId : UserId)
  | press (p c row : ℕ)
  | pressed (p : ℕ)
  | edited (p : ℕ) (shown : Bool)

def World.setJob (w : World) (j : ℕ) (job : Job) : World :=
  { w with jobs := Function.update w.jobs j (some job) }

def World.setPress (w : World) (p : ℕ) (t : Press) : World :=
  { w with presses := Function.update w.presses p (some t) }

/-- A consolidation that has its snapshot already does not see a new operation. -/
def Job.overlook (job : Job) (userId : UserId) (key : String) : Job :=
  if job.userId = userId ∧ job.pc ≠ .reading then { job with missed := key :: job.missed } else job

def World.userWrites (w : World) (userId : UserId) (db : Store) (key : String)
    (effect : Option String) : World :=
  { w with
    db
    jobs := fun j => (w.jobs j).map (·.overlook userId key)
    promised := Function.update w.promised (userId, key) (some effect) }

def World.jobWrites (w : World) (userId : UserId) (missed : List String) (write : Write)
    (now : ℤ) : World :=
  { w with
    db :=
      match write with
      | .delete key => w.db.deletePreference userId key
      | .set key value => w.db.setPreference userId key value now
    promised :=
      if write.key ∈ missed then w.promised
      else Function.update w.promised (userId, write.key) none }

/-- `remember_preference`: the write, then a consolidation. -/
def World.remember (w : World) (j : ℕ) (userId : UserId) (key value : String) (now : ℤ) :
    Option World :=
  match checkRemember key value with
  | .error _ => some w
  | .ok (key, value) =>
    if (w.jobs j).isSome then none
    else
      let w' := w.userWrites userId (w.db.setPreference userId key value now) key (some value)
      some (w'.setJob j { userId })

def World.forget (w : World) (userId : UserId) (key : String) : World :=
  let key := PyText.collapse key
  if key = "" then w else w.userWrites userId (w.db.deletePreference userId key) key none

def World.advance (w : World) (j : ℕ) (job : Job) (now : ℤ) : Option World :=
  match job.pc with
  | .reading =>
    let current := w.db.preferences job.userId
    let pc : JobPc := if current.length < consolidateThreshold then .done else .asking current
    some (w.setJob j { job with pc })
  | .writing (write :: rest) =>
    let pc : JobPc := if rest = [] then .done else .writing rest
    some ((w.jobWrites job.userId job.missed write now).setJob j { job with pc })
  | _ => none

/-- The model's reply, decoded; an empty list stands for a failed or unreadable one. -/
def World.replied (w : World) (j : ℕ) (job : Job) (pairs : List (String × String)) :
    Option World :=
  match job.pc with
  | .asking current =>
    let writes := writeBack current (consolidated pairs)
    let pc : JobPc := if writes = [] then .done else .writing writes
    some (w.setJob j { job with pc })
  | _ => none

def World.fails (w : World) (j : ℕ) (job : Job) : Option World :=
  if job.pc = .done then none else some (w.setJob j { job with pc := .done })

def World.press (w : World) (p c row : ℕ) : Option World :=
  if (w.presses p).isSome then none
  else
    w.sent[c]?.bind fun (userId, items) =>
      items[row]?.bind fun item =>
        (memoryButton? items row).bind fun button =>
          (indexFromCallback button.callbackData memForgetPrefix).map fun index =>
            w.setPress p { userId, label := item.key, index }

def World.pressed (w : World) (p : ℕ) (t : Press) : Option World :=
  match t.pc with
  | .reading =>
    let prefs := w.db.preferences t.userId
    let pc : PressPc := if t.index < prefs.length then .deleting prefs else .editing prefs
    some (w.setPress p { t with pc })
  | .deleting prefs =>
    prefs[t.index]?.map fun pref =>
      (w.userWrites t.userId (w.db.deletePreference t.userId pref.key) pref.key none).setPress p
        { t with pc := .rereading }
  | .rereading =>
    some (w.setPress p { t with pc := .editing (w.db.preferences t.userId) })
  | _ => none

/-- The message is rendered anew; an edit that Telegram refuses is suppressed. -/
def World.edited (w : World) (p : ℕ) (t : Press) (shown : Bool) : Option World :=
  match t.pc with
  | .editing prefs =>
    let w' := w.setPress p { t with pc := .done }
    some { w' with sent := if shown then w.sent ++ [(t.userId, prefs)] else w.sent }
  | _ => none

def step (w : World) : Event → Option World
  | .remember j userId key value now => w.remember j userId key value now
  | .forget userId key => some (w.forget userId key)
  | .advance j now => (w.jobs j).bind (w.advance j · now)
  | .replied j pairs => (w.jobs j).bind (w.replied j · pairs)
  | .fails j => (w.jobs j).bind (w.fails j)
  | .showMemory userId => some { w with sent := w.sent ++ [(userId, w.db.preferences userId)] }
  | .press p c row => w.press p c row
  | .pressed p => (w.presses p).bind (w.pressed p)
  | .edited p shown => (w.presses p).bind (w.edited p · shown)

end Chic.Profile
