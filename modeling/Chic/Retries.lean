import Chic.ApiErrors
import Chic.Binary64
import Chic.PyText
import Chic.RetryLoop

namespace Chic.Moysklad
open Profile (Decoded)
open RetryLoop (Step)

structure Client where
  maxRetries : ℕ := 3
  baseDelay : ℚ := 1 / 2

/-- `Headers.get`. -/
abbrev Headers := String → Option String

inductive Outcome (ε β : Type*)
  | networkError (exc : ε)
  | response (status : ℤ) (headers : Headers) (body : β)

inductive Raised (ε : Type*)
  | network (exc : ε)
  | moysklad (e : MoyskladError)
  | typeError
  | overflowError
  | runtimeError

/-- A header that is there, not empty and a whole number. -/
def headerInt (headers : Headers) (name : String) : Option ℤ :=
  (headers name).bind fun v => if v = "" then none else PyText.int? v

/-- Seconds to wait, `none` where the number is too large for a float. -/
def retryAfter (headers : Headers) : Option ℚ :=
  match headerInt headers "X-Lognex-Retry-After" with
  | some n => (Binary64.ofRat n).map fun x => Binary64.nearest (x / 1000)
  | none =>
    match headerInt headers "Retry-After" with
    | some n => Binary64.ofRat n
    | none => some 0

variable {ε β : Type*} (c : Client) (loads : β → Option Decoded)

/-- `_backoff`: how long it sleeps (`none` if for ever), itself `none` where it raises. -/
def backoff (attempt : ℕ) (retryAfter : ℚ) : Option (Option ℚ) :=
  if 0 < retryAfter then some (some retryAfter)
  else (Binary64.ofRat (2 ^ attempt)).map fun p => Binary64.ofRat (c.baseDelay * p)

/-- Another turn after a backoff, unless that raises. -/
def retry (last : Raised ε) :
    Option (Option ℚ) → Step (Except (Raised ε) β) (Raised ε) (Option ℚ)
  | none => .done (.error .overflowError)
  | some delay => .again last delay

def turn (attempt : ℕ) : Outcome ε β → Step (Except (Raised ε) β) (Raised ε) (Option ℚ)
  -- here the last attempt is not told apart
  | .networkError exc => retry (.network exc) (backoff c attempt 0)
  | .response status headers body =>
    if 200 ≤ status ∧ status < 300 then .done (.ok body)
    else if status = 429 then
      match parseApiError loads status body with
      | none => .done (.error .typeError)
      | some e =>
        if attempt = c.maxRetries then .done (.error (.moysklad e))
        else retry (.moysklad e) ((retryAfter headers).bind (backoff c attempt))
    else if 500 ≤ status then
      match parseApiError loads status body with
      | none => .done (.error .typeError)
      | some e =>
        if attempt = c.maxRetries then .done (.error (.moysklad e))
        else retry (.moysklad e) (backoff c attempt 0)
    else
      match parseApiError loads status body with
      | none => .done (.error .typeError)
      | some e => .done (.error (.moysklad e))

section
variable (outcomes : ℕ → Outcome ε β)

/-- The requests and backoffs of a call, `range(max_retries + 1)` of them at most. -/
def attempts : RetryLoop.Run (Except (Raised ε) β) (Raised ε) (Option ℚ) :=
  RetryLoop.run (fun attempt => turn c loads attempt (outcomes attempt)) 0 (c.maxRetries + 1) none

/-- `_do_get`: the body or what is raised. -/
def doGet : Except (Raised ε) β :=
  match (attempts c loads outcomes).ended with
  | .inl result => result
  | .inr none => .error .runtimeError
  | .inr (some last) => .error last

end

def IsSuccess (status : ℤ) : Prop := 200 ≤ status ∧ status < 300

/-- A network error, 429 or 5xx. -/
def Retriable : Outcome ε β → Prop
  | .networkError _ => True
  | .response status _ _ => status = 429 ∨ 500 ≤ status

/-- The number in the header that counts. -/
def wantedInt (headers : Headers) : Option ℤ :=
  (headerInt headers "X-Lognex-Retry-After").orElse fun _ => headerInt headers "Retry-After"

/-- The wait is computed: a number in the retry header fits a float, and without a positive one
the attempt is not so late that the power of two does not fit. -/
def WaitFits (attempt : ℕ) : Outcome ε β → Prop
  | .networkError _ => attempt < 1024
  | .response status headers _ =>
    if status = 429 then
      (∀ n ∈ wantedInt headers, |(n : ℚ)| < Binary64.tooLarge) ∧
        ((∃ n ∈ wantedInt headers, 0 < n) ∨ attempt < 1024)
    else attempt < 1024

/-- The error body, if it is one, can be probed. -/
def Readable : Outcome ε β → Prop
  | .networkError _ => True
  | .response status _ body => IsSuccess status ∨ ¬ Unsubscriptable loads body

/-- All before a request are retriable and waited for. -/
def Reached (outcomes : ℕ → Outcome ε β) (i : ℕ) : Prop :=
  i ≤ c.maxRetries ∧ ∀ j < i, Retriable (outcomes j) ∧ WaitFits j (outcomes j)

section Waits
variable {c} {attempt : ℕ} {headers : Headers}

theorem ofRat_two_pow_eq_none_iff : Binary64.ofRat (2 ^ attempt) = none ↔ ¬ attempt < 1024 := by
  rw [Binary64.ofRat_eq_none_iff, abs_of_pos (pow_pos two_pos attempt), ← not_lt,
    Binary64.two_pow_lt_tooLarge_iff]

theorem backoff_eq_none_iff {s : ℚ} :
    backoff c attempt s = none ↔ ¬ (0 < s ∨ attempt < 1024) := by
  unfold backoff
  split_ifs with hs
  · simp [hs]
  · rw [Option.map_eq_none_iff, ofRat_two_pow_eq_none_iff, or_iff_right hs]

theorem retryAfter_eq_none_iff : retryAfter headers = none ↔
    ∃ n ∈ wantedInt headers, Binary64.tooLarge ≤ |(n : ℚ)| := by
  unfold retryAfter wantedInt
  cases headerInt headers "X-Lognex-Retry-After" with
  | some n => simp [Binary64.ofRat_eq_none_iff]
  | none =>
    cases headerInt headers "Retry-After" with
    | some n => simp [Binary64.ofRat_eq_none_iff]
    | none => simp

theorem retryAfter_pos_iff {s : ℚ} (h : retryAfter headers = some s) :
    0 < s ↔ ∃ n ∈ wantedInt headers, 0 < n := by
  have hofRat : ∀ {n : ℤ} {x : ℚ}, Binary64.ofRat n = some x → x = Binary64.nearest n := by
    intro n x hx
    rw [Binary64.ofRat] at hx
    split_ifs at hx
    exact (Option.some_inj.mp hx).symm
  unfold retryAfter at h
  unfold wantedInt
  cases hms : headerInt headers "X-Lognex-Retry-After" with
  | some n =>
    rw [hms] at h
    obtain ⟨x, hx, rfl⟩ := Option.map_eq_some_iff.mp h
    rw [hofRat hx]
    simp [Binary64.nearest_thousandth_pos_iff]
  | none =>
    rw [hms] at h
    cases hs : headerInt headers "Retry-After" with
    | some n =>
      rw [hs] at h
      rw [hofRat h]
      simp [Binary64.nearest_intCast_pos_iff]
    | none =>
      rw [hs] at h
      cases h
      simp

theorem headerWait_eq_none_iff : (retryAfter headers).bind (backoff c attempt) = none ↔
    ¬ ((∀ n ∈ wantedInt headers, |(n : ℚ)| < Binary64.tooLarge) ∧
      ((∃ n ∈ wantedInt headers, 0 < n) ∨ attempt < 1024)) := by
  cases hs : retryAfter headers with
  | none =>
    obtain ⟨n, hn, hlarge⟩ := retryAfter_eq_none_iff.mp hs
    exact iff_of_true rfl fun h => (h.1 n hn).not_ge hlarge
  | some s =>
    have hfits : ∀ n ∈ wantedInt headers, |(n : ℚ)| < Binary64.tooLarge := by
      intro n hn
      by_contra hlarge
      rw [retryAfter_eq_none_iff.mpr ⟨n, hn, not_lt.mp hlarge⟩] at hs
      cases hs
    rw [Option.bind_some, backoff_eq_none_iff, retryAfter_pos_iff hs, and_iff_right hfits]

end Waits

section Turns
variable {c loads} {attempt : ℕ} {o : Outcome ε β}

inductive TurnCase (c : Client) (loads : β → Option Decoded) (attempt : ℕ) (o : Outcome ε β) : Prop
  | unreadable (hread : ¬ Readable loads o)
      (h : turn c loads attempt o = .done (.error .typeError))
  | success (status : ℤ) (headers : Headers) (body : β) (ho : o = .response status headers body)
      (hsuccess : IsSuccess status) (h : turn c loads attempt o = .done (.ok body))
  | failed (status : ℤ) (headers : Headers) (body : β) (e : MoyskladError)
      (ho : o = .response status headers body) (hsuccess : ¬ IsSuccess status)
      (hparse : parseApiError loads status body = some e)
      (hlast : Retriable o → attempt = c.maxRetries)
      (h : turn c loads attempt o = .done (.error (.moysklad e)))
  | overflow (hread : Readable loads o) (hretry : Retriable o) (hwait : ¬ WaitFits attempt o)
      (hlast : attempt = c.maxRetries → ∃ exc, o = .networkError exc)
      (h : turn c loads attempt o = .done (.error .overflowError))
  | again (hread : Readable loads o) (hretry : Retriable o) (hwait : WaitFits attempt o)
      (hlast : attempt = c.maxRetries → ∃ exc, o = .networkError exc) (e : Raised ε)
      (delay : Option ℚ) (he : e ≠ .typeError ∧ e ≠ .runtimeError)
      (h : turn c loads attempt o = .again e delay)

theorem readable_of_parse {status : ℤ} {headers : Headers} {body : β} {e : MoyskladError}
    (h : parseApiError loads status body = some e) :
    Readable loads (.response status headers body : Outcome ε β) := by
  right
  rw [← parseApiError_eq_none_iff, h]
  exact Option.some_ne_none e

theorem turn_networkError {exc : ε} : turn c loads attempt (.networkError exc) =
    retry (.network exc) (backoff c attempt 0) := by
  rw [turn]

section Response
variable {status : ℤ} {headers : Headers} {body : β} {e : MoyskladError}

theorem turn_success (h : IsSuccess status) :
    turn c loads attempt (.response status headers body : Outcome ε β) = .done (.ok body) := by
  rw [turn]
  exact if_pos h

theorem turn_unreadable (h : ¬ IsSuccess status) (hparse : parseApiError loads status body = none) :
    turn c loads attempt (.response status headers body : Outcome ε β) =
      .done (.error .typeError) := by
  rw [turn, hparse]
  simp only [ite_self]
  exact if_neg h

def responseWait (c : Client) (attempt : ℕ) (status : ℤ) (headers : Headers) : Option (Option ℚ) :=
  if status = 429 then (retryAfter headers).bind (backoff c attempt) else backoff c attempt 0

theorem turn_readable (h : ¬ IsSuccess status) (hparse : parseApiError loads status body = some e) :
    turn c loads attempt (.response status headers body : Outcome ε β) =
      if (status = 429 ∨ 500 ≤ status) ∧ attempt ≠ c.maxRetries then
        retry (.moysklad e) (responseWait c attempt status headers)
      else .done (.error (.moysklad e)) := by
  rw [turn, if_neg (show ¬ (200 ≤ status ∧ status < 300) from h), hparse, responseWait]
  by_cases h429 : status = 429
  · by_cases hlast : attempt = c.maxRetries <;> simp [h429, hlast]
  · by_cases h500 : 500 ≤ status
    · by_cases hlast : attempt = c.maxRetries <;> simp [h429, h500, hlast]
    · simp [h429, h500]

theorem responseWait_eq_none_iff : responseWait c attempt status headers = none ↔
    ¬ WaitFits attempt (.response status headers body : Outcome ε β) := by
  rw [responseWait, WaitFits]
  split_ifs with h429
  · exact headerWait_eq_none_iff
  · rw [backoff_eq_none_iff, or_iff_right (lt_irrefl 0)]

end Response

/-- A turn that is not the last for its outcome goes on if the wait is computed. -/
theorem turnCase_retry (last : Raised ε) {wait : Option (Option ℚ)} (hread : Readable loads o)
    (hretry : Retriable o) (hlast : attempt = c.maxRetries → ∃ exc, o = .networkError exc)
    (he : last ≠ .typeError ∧ last ≠ .runtimeError) (hwait : wait = none ↔ ¬ WaitFits attempt o)
    (h : turn c loads attempt o = retry last wait) : TurnCase c loads attempt o := by
  cases wait with
  | none => exact .overflow hread hretry (hwait.mp rfl) hlast h
  | some delay =>
    have hfits : WaitFits attempt o := by
      by_contra hnot
      exact Option.some_ne_none delay (hwait.mpr hnot)
    exact .again hread hretry hfits hlast last delay he h

theorem not_retriable_of_success {status : ℤ} {headers : Headers} {body : β}
    (h : IsSuccess status) : ¬ Retriable (.response status headers body : Outcome ε β) := by
  rintro (h429 | h500)
  · exact absurd h.2 (by omega)
  · exact h.2.not_ge (le_trans (by norm_num) h500)

theorem turnCase (c : Client) (loads : β → Option Decoded) (attempt : ℕ) (o : Outcome ε β) :
    TurnCase c loads attempt o := by
  cases o with
  | networkError exc =>
    have hwait : backoff c attempt 0 = none ↔
        ¬ WaitFits attempt (.networkError exc : Outcome ε β) := by
      rw [backoff_eq_none_iff, or_iff_right (lt_irrefl 0), WaitFits]
    exact turnCase_retry (.network exc) trivial trivial (fun _ => ⟨exc, rfl⟩) (by simp) hwait
      turn_networkError
  | response status headers body =>
    by_cases hsuccess : IsSuccess status
    · exact .success status headers body rfl hsuccess (turn_success hsuccess)
    cases hparse : parseApiError loads status body with
    | none =>
      refine .unreadable ?_ (turn_unreadable hsuccess hparse)
      rw [Readable, not_or, not_not]
      exact ⟨hsuccess, parseApiError_eq_none_iff.mp hparse⟩
    | some e =>
      have hturn : turn c loads attempt (.response status headers body : Outcome ε β) = _ :=
        turn_readable hsuccess hparse
      split_ifs at hturn with hagain
      · exact turnCase_retry (.moysklad e) (readable_of_parse hparse) hagain.1
          (fun hlast => absurd hlast hagain.2) (by simp) responseWait_eq_none_iff hturn
      · refine .failed status headers body e rfl hsuccess hparse (fun hretry => ?_) hturn
        by_contra hlast
        exact hagain ⟨hretry, hlast⟩

/-- An error body that cannot be probed ends the call. -/
theorem turn_of_not_readable (hnot : ¬ Readable loads o) :
    turn c loads attempt o = .done (.error .typeError) := by
  cases turnCase c loads attempt o with
  | unreadable _ h => exact h
  | success _ _ _ ho hsuccess => exact absurd (ho ▸ .inl hsuccess) hnot
  | failed _ _ _ _ ho _ hparse => exact absurd (ho ▸ readable_of_parse hparse) hnot
  | overflow hread => exact absurd hread hnot
  | again hread => exact absurd hread hnot

theorem error_of_again {e : Raised ε} {delay : Option ℚ}
    (hagain : turn c loads attempt o = .again e delay) : e ≠ .typeError ∧ e ≠ .runtimeError := by
  cases turnCase c loads attempt o with
  | again _ _ _ _ e' d he h =>
    cases hagain.symm.trans h
    exact he
  | unreadable _ h => cases hagain.symm.trans h
  | success _ _ _ _ _ h => cases hagain.symm.trans h
  | failed _ _ _ _ _ _ _ _ h => cases hagain.symm.trans h
  | overflow _ _ _ _ h => cases hagain.symm.trans h

end Turns

end Chic.Moysklad
