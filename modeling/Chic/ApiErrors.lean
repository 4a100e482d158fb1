import Chic.ConsolidatedReply

namespace Chic.Moysklad
open Profile (Decoded get?)

structure MoyskladError where
  statusCode : ℤ
  message : Decoded

inductive ProbeError
  | valueError | attributeError | indexError | keyError | typeError
  deriving DecidableEq

def truthy : Decoded → Bool
  | .null => false
  | .bool b => b
  | .number text => text ∉ ["0", "0.0", "-0.0"]
  | .str s => s ≠ []
  | .list items => !items.isEmpty
  | .dict fields => !fields.isEmpty

/-- `rows[0]`; the keys of a decoded object are texts. -/
def item0 : Decoded → Except ProbeError Decoded
  | .list (row :: _) => .ok row
  | .list [] => .error .indexError
  | .str (c :: _) => .ok (.str [c])
  | .str [] => .error .indexError
  | .dict _ => .error .keyError
  | _ => .error .typeError

/-- `row.get(name)`. -/
def getField (name : String) : Decoded → Except ProbeError Decoded
  | .dict fields => .ok ((get? fields name).getD .null)
  | _ => .error .attributeError

def orElse (v w : Decoded) : Decoded := if truthy v then v else w

def errorRows : Decoded → Decoded
  | .dict fields => (get? fields "errors").getD .null
  | _ => .null

def firstMessage (rows : Decoded) : Except ProbeError Decoded :=
  if truthy rows then do
    let row ← item0 rows
    let message ← getField "errorMessage" row
    if truthy message then return message
    let error ← getField "error" row
    return orElse error (.str [])
  else return .str []

section
variable {β : Type*} (loads : β → Option Decoded)

/-- The body of the `try`; `loads` fails with a `ValueError`. -/
def errorMessage (body : β) : Except ProbeError Decoded :=
  match loads body with
  | none => .error .valueError
  | some data => firstMessage (errorRows data)

/-- `parse_api_error`, `none` where an exception escapes it: all but the `TypeError` are caught. -/
def parseApiError (status : ℤ) (body : β) : Option MoyskladError :=
  match errorMessage loads body with
  | .ok message => some ⟨status, message⟩
  | .error .typeError => none
  | .error _ => some ⟨status, .str []⟩

def IsFlag (rows : Decoded) : Prop :=
  rows = .bool true ∨ ∃ text, rows = .number text ∧ text ∉ ["0", "0.0", "-0.0"]

/-- An object whose `errors` is true or a number other than zero. -/
def Unsubscriptable (body : β) : Prop :=
  ∃ fields rows, loads body = some (.dict fields) ∧ get? fields "errors" = some rows ∧ IsFlag rows

variable {loads}

theorem truthy_of_isFlag {rows : Decoded} (h : IsFlag rows) : truthy rows := by
  rcases h with rfl | ⟨text, rfl, htext⟩
  · rfl
  · exact decide_eq_true htext

theorem item0_typeError_iff {v : Decoded} (h : truthy v) : item0 v = .error .typeError ↔ IsFlag v := by
  cases v with
  | null => simp [truthy] at h
  | bool b => simpa [truthy, item0, IsFlag] using h
  | number text => simpa [truthy, item0, IsFlag] using h
  | str s => cases s <;> simp [item0, IsFlag]
  | list items => cases items <;> simp [item0, IsFlag]
  | dict fields => simp [item0, IsFlag]

/-- Only taking the first element lets an exception through. -/
theorem firstMessage_typeError_iff {rows : Decoded} :
    firstMessage rows = .error .typeError ↔ IsFlag rows := by
  unfold firstMessage
  split_ifs with htrue
  · rw [← item0_typeError_iff htrue]
    cases item0 rows with
    | error err => simp [bind, Except.bind]
    | ok row =>
      -- whatever the row is, its fields raise an `AttributeError` at most
      apply iff_of_false _ (by simp)
      cases row with
      | dict fields =>
        simp only [getField, bind, Except.bind, pure, Except.pure]
        split <;> simp
      | _ => simp [getField, bind, Except.bind]
  · exact iff_of_false (by simp [pure, Except.pure]) fun h => htrue (truthy_of_isFlag h)

theorem errorMessage_typeError_iff {body : β} :
    errorMessage loads body = .error .typeError ↔ Unsubscriptable loads body := by
  have hnull : ¬ IsFlag .null := by simp [IsFlag]
  unfold errorMessage Unsubscriptable
  cases loads body with
  | none => simp
  | some data =>
    rw [firstMessage_typeError_iff]
    cases data with
    | dict fields =>
      rw [errorRows]
      cases hrows : get? fields "errors" with
      | none => simp [hnull, hrows]
      | some rows => simp [hrows]
    | _ => simp [errorRows, hnull]

theorem parseApiError_eq_none_iff {status : ℤ} {body : β} :
    parseApiError loads status body = none ↔ Unsubscriptable loads body := by
  rw [← errorMessage_typeError_iff, parseApiError]
  split
  · simp_all
  · simp_all
  · simp_all

theorem parseApiError_statusCode {status : ℤ} {body : β} {e : MoyskladError}
    (h : parseApiError loads status body = some e) : e.statusCode = status := by
  rw [parseApiError] at h
  split at h
  · cases h; rfl
  · cases h
  · cases h; rfl

end

end Chic.Moysklad
