import Chic.Retries

namespace Chic.Moysklad
open RetryLoop (Step rounds run_ends run_of_done)

variable {ε β : Type*} (c : Client) (loads : β → Option Profile.Decoded)
  (outcomes : ℕ → Outcome ε β)

/-- The call ends with what its request number `k` came to, and not before the last attempt if
that can be retried. -/
def EndsWith (k : ℕ) (result : Except (Raised ε) β) : Prop :=
  (Retriable (outcomes k) → k = c.maxRetries) ∧
    match outcomes k with
    | .networkError exc => result = .error (.network exc)
    | .response status _ body =>
      if 200 ≤ status ∧ status < 300 then result = .ok body
      else ∃ e, parseApiError loads status body = some e ∧ result = .error (.moysklad e)

/-- So many requests with a backoff between any two of them, all but the last one retriable, and
the last one decides. -/
def FollowsProtocol : Prop :=
  ∃ k ≤ c.maxRetries, (attempts c loads outcomes).shape = rounds k ++ [true] ∧
    (∀ i < k, Retriable (outcomes i)) ∧ EndsWith c loads outcomes k (doGet c loads outcomes)

/-- No exception comes from a malformed error body, and a 429 or 5xx before the last attempt is
followed by another request unless its wait does not fit a float. -/
def ErrorsContained : Prop :=
  doGet c loads outcomes ≠ .error .typeError ∧
    ∀ k < c.maxRetries, (attempts c loads outcomes).shape = rounds k ++ [true] →
      Retriable (outcomes k) → doGet c loads outcomes = .error .overflowError

variable {c loads outcomes}

theorem isAgain_iff {i : ℕ} : (turn c loads i (outcomes i)).IsAgain ↔
    Readable loads (outcomes i) ∧ Retriable (outcomes i) ∧ WaitFits i (outcomes i) ∧
      (i = c.maxRetries → ∃ exc, outcomes i = .networkError exc) := by
  constructor
  · rintro ⟨e, d, hagain⟩
    cases turnCase c loads i (outcomes i) with
    | again hread hretry hwait hlast => exact ⟨hread, hretry, hwait, hlast⟩
    | unreadable _ h => cases hagain.symm.trans h
    | success _ _ _ _ _ h => cases hagain.symm.trans h
    | failed _ _ _ _ _ _ _ _ h => cases hagain.symm.trans h
    | overflow _ _ _ _ h => cases hagain.symm.trans h
  · rintro ⟨hread, hretry, hwait, hlast⟩
    cases turnCase c loads i (outcomes i) with
    | again _ _ _ _ e d _ h => exact ⟨e, d, h⟩
    | unreadable hnot => exact absurd hread hnot
    | success status headers body ho hsuccess =>
      rw [ho] at hretry
      exact absurd hretry (not_retriable_of_success hsuccess)
    | failed status headers body _ ho _ _ hmax =>
      obtain ⟨exc, hexc⟩ := hlast (hmax hretry)
      cases ho.symm.trans hexc
    | overflow _ _ hnot => exact absurd hwait hnot

theorem reached_of_isAgain {k : ℕ} (hk : k ≤ c.maxRetries)
    (h : ∀ j < k, (turn c loads j (outcomes j)).IsAgain) : Reached c outcomes k := by
  refine ⟨hk, fun j hj => ?_⟩
  obtain ⟨-, hretry, hwait, -⟩ := isAgain_iff.mp (h j hj)
  exact ⟨hretry, hwait⟩

theorem Reached.of_le {i j : ℕ} (h : Reached c outcomes i) (hj : j ≤ i) : Reached c outcomes j :=
  ⟨hj.trans h.1, fun l hl => h.2 l (hl.trans_le hj)⟩

/-- Up to a reached request with readable bodies before it the call goes on. -/
theorem isAgain_of_reached {k : ℕ} (h : Reached c outcomes k)
    (hread : ∀ j < k, Readable loads (outcomes j)) :
    ∀ j < k, (turn c loads j (outcomes j)).IsAgain := by
  intro j hj
  obtain ⟨hretry, hwait⟩ := h.2 j hj
  have hlt : j < c.maxRetries := hj.trans_le h.1
  exact isAgain_iff.mpr ⟨hread j hj, hretry, hwait, fun hlast => absurd hlast hlt.ne⟩

inductive CallEnds (c : Client) (loads : β → Option Profile.Decoded)
    (outcomes : ℕ → Outcome ε β) : Prop
  | done (k : ℕ) (hk : k ≤ c.maxRetries) (hagain : ∀ j < k, (turn c loads j (outcomes j)).IsAgain)
      (hdone : turn c loads k (outcomes k) = .done (doGet c loads outcomes))
      (hshape : (attempts c loads outcomes).shape = rounds k ++ [true])
  | exhausted (hagain : ∀ j < c.maxRetries + 1, (turn c loads j (outcomes j)).IsAgain)
      (e : Raised ε) (hended : doGet c loads outcomes = .error e)
      (he : e ≠ .typeError ∧ e ≠ .runtimeError)
      (hshape : (attempts c loads outcomes).shape = rounds (c.maxRetries + 1))

theorem callEnds (c : Client) (loads : β → Option Profile.Decoded) (outcomes : ℕ → Outcome ε β) :
    CallEnds c loads outcomes := by
  cases run_ends (fun attempt => turn c loads attempt (outcomes attempt)) 0 (c.maxRetries + 1)
    none with
  | done k result hk hagain hdone hended hshape =>
    have hresult : doGet c loads outcomes = result := by
      rw [doGet, attempts, hended]
    simp only [Nat.zero_add] at hagain hdone
    exact .done k (Nat.lt_succ_iff.mp hk) hagain (hresult ▸ hdone) hshape
  | exhausted error hagain hended herror hshape =>
    simp only [Nat.zero_add] at hagain
    rcases herror with ⟨hleft, -⟩ | ⟨j, e, d, hj, rfl⟩
    · exact absurd hleft (Nat.succ_ne_zero _)
    · have hresult : doGet c loads outcomes = .error e := by
        rw [doGet, attempts, hended]
      exact .exhausted hagain e hresult (error_of_again hj) hshape

/-- The first turn that ends the call decides. -/
theorem attempts_of_done {k : ℕ} {result : Except (Raised ε) β} (hk : k ≤ c.maxRetries)
    (hagain : ∀ j < k, (turn c loads j (outcomes j)).IsAgain)
    (hdone : turn c loads k (outcomes k) = .done result) :
    doGet c loads outcomes = result ∧
      (attempts c loads outcomes).shape = rounds k ++ [true] := by
  obtain ⟨hended, hshape⟩ := run_of_done
    (fun attempt => turn c loads attempt (outcomes attempt)) 0 none (Nat.lt_succ_of_le hk)
    (by simpa only [Nat.zero_add] using hagain)
    (by simpa only [Nat.zero_add] using hdone)
  refine ⟨?_, hshape⟩
  rw [doGet, attempts, hended]

/-- The branch marked as unreachable is. -/
theorem doGet_ne_runtimeError : doGet c loads outcomes ≠ .error .runtimeError := by
  intro hraised
  cases callEnds c loads outcomes with
  | exhausted _ e hended he =>
    rw [hended] at hraised
    cases hraised
    exact he.2 rfl
  | done k _ _ hdone =>
    rw [hraised] at hdone
    cases turnCase c loads k (outcomes k) with
    | unreadable _ h => cases hdone.symm.trans h
    | success _ _ _ _ _ h => cases hdone.symm.trans h
    | failed _ _ _ _ _ _ _ _ h => cases hdone.symm.trans h
    | overflow _ _ _ _ h => cases hdone.symm.trans h
    | again _ _ _ _ _ _ _ h => cases hdone.symm.trans h

theorem requests_le : (attempts c loads outcomes).shape.count true ≤ c.maxRetries + 1 := by
  cases callEnds c loads outcomes with
  | done k hk _ _ hshape =>
    rw [hshape, List.count_append, RetryLoop.count_rounds]
    exact Nat.add_le_add_right hk 1
  | exhausted _ _ _ _ hshape => rw [hshape, RetryLoop.count_rounds]

theorem EndsWith.ne {k : ℕ} {result : Except (Raised ε) β} (h : EndsWith c loads outcomes k result) :
    result ≠ .error .typeError ∧ result ≠ .error .overflowError := by
  obtain ⟨-, h⟩ := h
  split at h
  · simp [h]
  · split_ifs at h
    · simp [h]
    · obtain ⟨e, -, rfl⟩ := h
      simp

theorem endsWith_of_done {k : ℕ} (hread : Readable loads (outcomes k))
    (hfinal : Retriable (outcomes k) → k = c.maxRetries)
    (hresponse : Retriable (outcomes k) → ∀ exc, outcomes k ≠ .networkError exc) :
    ∃ result, turn c loads k (outcomes k) = .done result ∧ EndsWith c loads outcomes k result := by
  cases turnCase c loads k (outcomes k) with
  | unreadable hnot => exact absurd hread hnot
  | success status headers body ho hsuccess h =>
    refine ⟨_, h, hfinal, ?_⟩
    rw [ho]
    exact (if_pos hsuccess).mpr rfl
  | failed status headers body e ho hsuccess hparse hlast h =>
    refine ⟨_, h, hfinal, ?_⟩
    rw [ho]
    exact (if_neg hsuccess).mpr ⟨e, hparse, rfl⟩
  | overflow _ hretry _ hlast =>
    obtain ⟨exc, hexc⟩ := hlast (hfinal hretry)
    exact absurd hexc (hresponse hretry exc)
  | again _ hretry _ hlast =>
    obtain ⟨exc, hexc⟩ := hlast (hfinal hretry)
    exact absurd hexc (hresponse hretry exc)

theorem exists_last (c : Client) (outcomes : ℕ → Outcome ε β) :
    ∃ k ≤ c.maxRetries, (¬ Retriable (outcomes k) ∨ k = c.maxRetries) ∧
      ∀ j < k, Retriable (outcomes j) ∧ j < c.maxRetries := by
  classical
  have hexists : ∃ k, ¬ Retriable (outcomes k) ∨ k = c.maxRetries := ⟨_, .inr rfl⟩
  have hle : Nat.find hexists ≤ c.maxRetries := Nat.find_min' hexists (.inr rfl)
  refine ⟨Nat.find hexists, hle, Nat.find_spec hexists, fun j hj => ?_⟩
  have hbefore := Nat.find_min hexists hj
  rw [not_or, not_not] at hbefore
  exact ⟨hbefore.1, hj.trans_le hle⟩

theorem reached_of_waits {k : ℕ} (hk : k ≤ c.maxRetries)
    (hbefore : ∀ j < k, Retriable (outcomes j) ∧ j < c.maxRetries)
    (hwait : ∀ i < c.maxRetries, Reached c outcomes i → Retriable (outcomes i) →
      WaitFits i (outcomes i)) : Reached c outcomes k := by
  induction k with
  | zero => exact ⟨Nat.zero_le _, fun j hj => absurd hj (Nat.not_lt_zero j)⟩
  | succ k ih =>
    have hprev := ih (Nat.le_of_succ_le hk) fun j hj => hbefore j (hj.trans (Nat.lt_succ_self k))
    obtain ⟨hretry, hlt⟩ := hbefore k (Nat.lt_succ_self k)
    refine ⟨hk, fun j hj => ?_⟩
    rcases (Nat.lt_succ_iff.mp hj).eq_or_lt with rfl | hj
    · exact ⟨hretry, hwait j hlt hprev hretry⟩
    · exact hprev.2 j hj

theorem readable_of_endsWith {k : ℕ} {result : Except (Raised ε) β}
    (hdone : turn c loads k (outcomes k) = .done result)
    (hends : EndsWith c loads outcomes k result) : Readable loads (outcomes k) := by
  by_contra hnot
  exact hends.ne.1 (Step.done.inj (hdone.symm.trans (turn_of_not_readable hnot)))

/-- A network error on the last attempt is not what ends the call. -/
theorem not_networkError_of_endsWith {k : ℕ} {result : Except (Raised ε) β}
    (hdone : turn c loads k (outcomes k) = .done result)
    (hends : EndsWith c loads outcomes k result) (exc : ε) :
    outcomes k ≠ .networkError exc := by
  intro hexc
  rw [hexc, turn_networkError] at hdone
  cases hwait : backoff c k 0 with
  | none =>
    rw [hwait] at hdone
    exact hends.ne.2 (Step.done.inj hdone).symm
  | some delay =>
    rw [hwait] at hdone
    cases hdone

/-- The call keeps to the protocol exactly when the bodies it reads can be probed, the waits fit
and the last attempt is no network error. -/
theorem followsProtocol_iff (c : Client) (loads : β → Option Profile.Decoded)
    (outcomes : ℕ → Outcome ε β) : FollowsProtocol c loads outcomes ↔
      (∀ i, Reached c outcomes i → Readable loads (outcomes i)) ∧
      (∀ i < c.maxRetries, Reached c outcomes i → Retriable (outcomes i) →
        WaitFits i (outcomes i)) ∧
      (Reached c outcomes c.maxRetries → ∀ exc, outcomes c.maxRetries ≠ .networkError exc) := by
  constructor
  · rintro ⟨k, hk, hshape, -, hends⟩
    cases callEnds c loads outcomes with
    | exhausted _ _ _ _ hshape' => exact absurd (hshape'.symm.trans hshape) RetryLoop.rounds_ne_append
    | done k' _ hagain hdone hshape' =>
      obtain rfl := RetryLoop.rounds_append_inj (hshape'.symm.trans hshape)
      -- the request that decides is retriable only as the last one
      have hle : ∀ i, Reached c outcomes i → i ≤ k' := by
        intro i hi
        by_contra hlt
        have hmax := hends.1 (hi.2 k' (not_le.mp hlt)).1
        have := hi.1
        omega
      refine ⟨fun i hi => ?_, fun i hi hreached hretry => ?_, fun hreached => ?_⟩
      · rcases (hle i hi).eq_or_lt with rfl | hlt
        · exact readable_of_endsWith hdone hends
        · exact (isAgain_iff.mp (hagain i hlt)).1
      · rcases (hle i hreached).eq_or_lt with rfl | hlt
        · exact absurd (hends.1 hretry) hi.ne
        · exact (isAgain_iff.mp (hagain i hlt)).2.2.1
      · rw [hk.antisymm (hle _ hreached)] at hdone hends
        exact not_networkError_of_endsWith hdone hends
  · rintro ⟨hread, hwait, hlast⟩
    obtain ⟨k, hk, hfinal, hbefore⟩ := exists_last c outcomes
    have hreached := reached_of_waits hk hbefore hwait
    have hagain := isAgain_of_reached hreached fun j hj => hread j (hreached.of_le hj.le)
    have hmax : Retriable (outcomes k) → k = c.maxRetries := fun hretry =>
      hfinal.resolve_left (not_not.mpr hretry)
    obtain ⟨result, hdone, hends⟩ := endsWith_of_done (hread k hreached) hmax fun hretry exc => by
      rw [hmax hretry] at hreached ⊢
      exact hlast hreached exc
    obtain ⟨hended, hshape⟩ := attempts_of_done hk hagain hdone
    exact ⟨k, hk, hshape, fun i hi => (hbefore i hi).1, hended ▸ hends⟩

/-- A connection lost on the only attempt is followed by a backoff. -/
theorem lostConnection_backsOff :
    (attempts { maxRetries := 0 } (fun _ : Unit => none)
        fun _ => (.networkError () : Outcome Unit Unit)).shape = [true, false] ∧
    ¬ FollowsProtocol { maxRetries := 0 } (fun _ : Unit => none)
      fun _ => (.networkError () : Outcome Unit Unit) := by
  have hshape : (attempts { maxRetries := 0 } (fun _ : Unit => none)
      fun _ => (.networkError () : Outcome Unit Unit)).shape = [true, false] := by decide +kernel
  refine ⟨hshape, ?_⟩
  rintro ⟨k, hk, hpattern, -⟩
  obtain rfl := Nat.le_zero.mp hk
  rw [hshape] at hpattern
  exact absurd hpattern (by decide)

/-- With a body that can be probed a turn ends the call before the last attempt only if the
outcome is final or its wait does not fit. -/
theorem done_of_readable {k : ℕ} {result : Except (Raised ε) β}
    (hread : Readable loads (outcomes k))
    (hdone : turn c loads k (outcomes k) = .done result) :
    result ≠ .error .typeError ∧
      (k < c.maxRetries → Retriable (outcomes k) → result = .error .overflowError) := by
  cases turnCase c loads k (outcomes k) with
  | unreadable hnot => exact absurd hread hnot
  | success _ _ _ ho hsuccess h =>
    obtain rfl := Step.done.inj (hdone.symm.trans h)
    rw [ho]
    exact ⟨by simp, fun _ hretry => absurd hretry (not_retriable_of_success hsuccess)⟩
  | failed _ _ _ _ _ _ _ hlast h =>
    obtain rfl := Step.done.inj (hdone.symm.trans h)
    exact ⟨by simp, fun hlt hretry => absurd (hlast hretry) hlt.ne⟩
  | overflow _ _ _ _ h =>
    obtain rfl := Step.done.inj (hdone.symm.trans h)
    exact ⟨by simp, fun _ _ => rfl⟩
  | again _ _ _ _ _ _ _ h => cases hdone.symm.trans h

/-- A call contains the errors exactly when the bodies it reads can be probed. -/
theorem errorsContained_iff_readable (c : Client) (outcomes : ℕ → Outcome ε β) :
    ErrorsContained c loads outcomes ↔ ∀ i, Reached c outcomes i → Readable loads (outcomes i) := by
  constructor
  · rintro ⟨hraised, -⟩ i hi
    induction i using Nat.strong_induction_on with
    | _ i ih =>
      -- the first body that cannot be probed ends the call
      by_contra hnot
      have hagain := isAgain_of_reached hi fun j hj => ih j hj (hi.of_le hj.le)
      exact hraised (attempts_of_done hi.1 hagain (turn_of_not_readable hnot)).1
  · intro hread
    cases callEnds c loads outcomes with
    | exhausted _ e hended he hshape =>
      refine ⟨?_, fun k _ hpattern => ?_⟩
      · rw [hended]
        exact fun h => he.1 (Except.error.inj h)
      · exact absurd (hshape.symm.trans hpattern) RetryLoop.rounds_ne_append
    | done k hk hagain hdone hshape =>
      have hreached := reached_of_isAgain hk hagain
      obtain ⟨hraised, hlast⟩ := done_of_readable (hread k (reached_of_isAgain hk hagain)) hdone
      refine ⟨hraised, fun k' hlt hpattern hretry => ?_⟩
      obtain rfl := RetryLoop.rounds_append_inj (hshape.symm.trans hpattern)
      exact hlast hlt hretry

/-- An error body gets through exactly when its `errors` is true or a number other than zero, in
a call as in the parser. -/
theorem errorParsing_iff (loads : β → Option Profile.Decoded) :
    (∀ (status : ℤ) (body : β),
      (∃ e, parseApiError loads status body = some e ∧ e.statusCode = status) ↔
        ¬ Unsubscriptable loads body) ∧
    ∀ (c : Client) (outcomes : ℕ → Outcome ε β),
      ErrorsContained c loads outcomes ↔
        ∀ i, Reached c outcomes i → Readable loads (outcomes i) := by
  refine ⟨fun status body => ?_, errorsContained_iff_readable⟩
  rw [← parseApiError_eq_none_iff, ← ne_eq, Option.ne_none_iff_exists']
  exact ⟨fun ⟨e, he, _⟩ => ⟨e, he⟩, fun ⟨e, he⟩ => ⟨e, he, parseApiError_statusCode he⟩⟩

/-- What `json.loads` makes of `{"errors": true}`. -/
def errorsTrue : Profile.Decoded := .dict [(Text.ofString "errors", .bool true)]

/-- A 429 with the body `{"errors": true}` is not retried. -/
theorem errorsTrue_escapes :
    (∀ status, parseApiError (fun _ : Unit => some errorsTrue) status () = none) ∧
    doGet {} (fun _ : Unit => some errorsTrue)
      (fun _ => (.response 429 (fun _ => none) () : Outcome Unit Unit)) = .error .typeError ∧
    ¬ ErrorsContained {} (fun _ : Unit => some errorsTrue)
      fun _ => (.response 429 (fun _ => none) () : Outcome Unit Unit) := by
  have hraised : doGet {} (fun _ : Unit => some errorsTrue)
      (fun _ => (.response 429 (fun _ => none) () : Outcome Unit Unit)) = .error .typeError := rfl
  exact ⟨fun _ => rfl, hraised, fun h => h.1 hraised⟩

end Chic.Moysklad
