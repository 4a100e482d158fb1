import Mathlib.Data.Rat.Floor
import Chic.RateLimiter
import Chic.TokenBucket

namespace Chic.RateLimiter
open AppDb TokenBucket

structure Decision where
  userId : UserId
  nowTs : ℚ
  allowed : Bool
  deriving DecidableEq

def allowAll (perHour : ℤ) : Buckets ℚ → List (UserId × ℚ) → List Decision × Buckets ℚ
  | buckets, [] => ([], buckets)
  | buckets, (userId, nowTs) :: calls =>
    let (allowed, buckets') := allow perHour buckets userId nowTs
    let (decisions, t) := allowAll perHour buckets' calls
    (⟨userId, nowTs, allowed⟩ :: decisions, t)

def timesOf (calls : List (UserId × ℚ)) (u : UserId) : List ℚ :=
  (calls.filter (·.1 = u)).map Prod.snd

def Decision.call (d : Decision) : UserId × ℚ := (d.userId, d.nowTs)

section
variable {perHour : ℤ} {buckets buckets' : Buckets ℚ} {u : UserId}

/-- In exact arithmetic a call takes a token from the user's bucket. -/
theorem allow_eq_take (h : 1 ≤ perHour) (buckets : Buckets ℚ) (u : UserId) (now : ℚ) :
    (allow perHour buckets u now).1 =
        (take (perHour : ℚ) (perHour / 3600) (buckets.get? u) now).1 ∧
      (allow perHour buckets u now).2.get? u =
        (take (perHour : ℚ) (perHour / 3600) (buckets.get? u) now).2 := by
  have hneg : ¬ perHour < 0 := by omega
  have hlevel : min (perHour : ℚ) (((buckets.get? u).getD (perHour, now)).1 +
      (now - ((buckets.get? u).getD (perHour, now)).2) * (perHour / (3600 : ℕ))) =
      level (perHour : ℚ) (perHour / 3600) now (buckets.get? u) := by
    cases buckets.get? u with
    | none => simp [level]
    | some e => rfl
  simp only [allow, if_neg hneg, hlevel, take, Nat.cast_one]
  split_ifs <;> simp

/-- Each user has a bucket of their own. -/
theorem allowAll_eq_takeAll (h : 1 ≤ perHour) (calls : List (UserId × ℚ)) (buckets : Buckets ℚ)
    (u : UserId) :
    ((allowAll perHour buckets calls).1.filter (·.userId = u)).map (fun d => (d.nowTs, d.allowed)) =
        (takeAll (perHour : ℚ) (perHour / 3600) (buckets.get? u) (timesOf calls u)).1 ∧
      (allowAll perHour buckets calls).2.get? u =
        (takeAll (perHour : ℚ) (perHour / 3600) (buckets.get? u) (timesOf calls u)).2 := by
  induction calls generalizing buckets with
  | nil => exact ⟨rfl, rfl⟩
  | cons call calls ih =>
    obtain ⟨v, now⟩ := call
    obtain ⟨hdecisions, hbucket⟩ := ih (allow perHour buckets v now).2
    by_cases hv : v = u
    · subst hv
      obtain ⟨hallowed, hleft⟩ := allow_eq_take h buckets v now
      have htimes : timesOf ((v, now) :: calls) v = now :: timesOf calls v := by
        simp [timesOf]
      rw [hleft] at hdecisions hbucket
      simp only [allowAll, htimes, takeAll, List.filter_cons, decide_true, if_true, List.map_cons]
      exact ⟨by rw [hdecisions, hallowed], hbucket⟩
    · have htimes : timesOf ((v, now) :: calls) u = timesOf calls u := by
        simp [timesOf, hv]
      rw [allow_get?_of_ne (Ne.symm hv)] at hdecisions hbucket
      simp only [allowAll, htimes, List.filter_cons, hv, decide_false, Bool.false_eq_true, if_false]
      exact ⟨hdecisions, hbucket⟩

/-- Buckets that fill up alike give the same answers, and a denied call is as if it had not been
made. -/
theorem allowAll_granted (h : 1 ≤ perHour) (calls : List (UserId × ℚ))
    (hsame : ∀ u, Same ((perHour : ℚ) / 3600) (buckets.get? u) (buckets'.get? u)) :
    (allowAll perHour buckets'
        (((allowAll perHour buckets calls).1.filter (·.allowed)).map Decision.call)).1 =
      (allowAll perHour buckets calls).1.filter (·.allowed) := by
  induction calls generalizing buckets buckets' with
  | nil => rfl
  | cons call calls ih =>
    obtain ⟨v, now⟩ := call
    obtain ⟨hallowed, hleft⟩ := allow_eq_take h buckets v now
    obtain ⟨hallowed', hleft'⟩ := allow_eq_take h buckets' v now
    have htake := (hsame v).take_eq (perHour : ℚ) now
    cases hok : (allow perHour buckets v now).1 with
    | true =>
      have hok' : (allow perHour buckets' v now).1 = true := by
        rw [hallowed', ← htake, ← hallowed, hok]
      have hnext : ∀ u, Same ((perHour : ℚ) / 3600) ((allow perHour buckets v now).2.get? u)
          ((allow perHour buckets' v now).2.get? u) := by
        intro u
        by_cases hu : u = v
        · rw [hu, hleft, hleft', htake]
          exact Same.refl _ _
        · rw [allow_get?_of_ne hu, allow_get?_of_ne hu]
          exact hsame u
      simp only [allowAll, hok, List.filter_cons, if_true, List.map_cons, Decision.call, hok']
      exact congrArg _ (ih hnext)
    | false =>
      -- the call is missing on the other side
      have hnext : ∀ u, Same ((perHour : ℚ) / 3600) ((allow perHour buckets v now).2.get? u)
          (buckets'.get? u) := by
        intro u
        by_cases hu : u = v
        · rw [hu, hleft]
          have hcap : (1 : ℚ) ≤ perHour := by exact_mod_cast h
          exact (same_of_denied hcap (hallowed.symm.trans hok)).trans (hsame v)
        · rw [allow_get?_of_ne hu]
          exact hsame u
      simp only [allowAll, hok, List.filter_cons, Bool.false_eq_true, if_false]
      exact ih hnext

end

/-- Tokens stay within the hourly rate, no window sees more calls allowed than the rate permits,
denied calls cost nothing, and after the time of one token a call is allowed. -/
theorem rate_limited {perHour : ℤ} (h : 1 ≤ perHour) {calls : List (UserId × ℚ)}
    (hmono : ∀ u, (timesOf calls u).Pairwise (· ≤ ·)) :
    let r := allowAll perHour Dict.empty calls
    (∀ u tokens last, r.2.get? u = some (tokens, last) → 0 ≤ tokens ∧ tokens ≤ perHour) ∧
    (∀ u start d, 0 ≤ d →
      ((r.1.countP fun x => x.userId = u ∧ x.allowed = true ∧ start ≤ x.nowTs ∧
        x.nowTs ≤ start + d : ℕ) : ℚ) ≤ perHour + perHour * d / 3600) ∧
    (allowAll perHour Dict.empty ((r.1.filter (·.allowed)).map Decision.call)).1 =
      r.1.filter (·.allowed) ∧
    ∀ u last now, (timesOf calls u).getLast? = some last → 3600 / perHour ≤ now - last →
      (allow perHour r.2 u now).1 = true := by
  intro r
  have hcap : (1 : ℚ) ≤ perHour := by exact_mod_cast h
  have hpos : (0 : ℚ) < perHour := by linarith
  have hrefill : (0 : ℚ) ≤ perHour / 3600 := by positivity
  -- the bucket of a user depends on the calls of this user only
  have hbucket : ∀ u, r.2.get? u =
      (takeAll (perHour : ℚ) (perHour / 3600) none (timesOf calls u)).2 :=
    fun u => (allowAll_eq_takeAll h calls Dict.empty u).2
  refine ⟨?_, ?_, ?_, ?_⟩
  · intro u tokens last hget
    rw [hbucket] at hget
    exact tokens_mem hpos.le hrefill (hmono u) hget
  · intro u start d hd
    have hle := taken_le hpos.le hrefill (hmono u) (show start ≤ start + d by linarith)
    have hdecisions := (allowAll_eq_takeAll h calls Dict.empty u).1
    rw [Dict.get?_empty] at hdecisions
    have hcount : taken (takeAll (perHour : ℚ) (perHour / 3600) none (timesOf calls u)).1 start
        (start + d) = r.1.countP fun x => x.userId = u ∧ x.allowed = true ∧ start ≤ x.nowTs ∧
          x.nowTs ≤ start + d := by
      rw [← hdecisions, taken, List.countP_map, List.countP_filter]
      apply List.countP_congr
      intro x _
      simp [and_comm]
    have hsum : (start + d - start) * ((perHour : ℚ) / 3600) = perHour * d / 3600 := by ring
    rw [hcount, hsum] at hle
    exact hle
  · exact allowAll_granted h calls fun u => Same.refl _ _
  · intro u last now hlast hwait
    have hwaited : 1 ≤ (now - last) * ((perHour : ℚ) / 3600) := by
      rw [div_le_iff₀ hpos] at hwait
      linarith
    rw [(allow_eq_take h r.2 u now).1, hbucket]
    exact take_of_waited hcap hrefill (hmono u) hlast hwaited

/-- Two messages an hour: the third within a minute is denied, and half an hour after it there is a
token again; the other user is not concerned. -/
def busyHour : List (UserId × ℚ) := [(1, 0), (1, 10), (2, 5), (1, 60)]

theorem busyHour_limited :
    (allowAll 2 Dict.empty busyHour).1.map (·.allowed) = [true, true, true, false] ∧
      (allow 2 (allowAll 2 Dict.empty busyHour).2 1 1860).1 = true := by
  have hmono : ∀ u, (timesOf busyHour u).Pairwise (· ≤ ·) := by
    intro u
    by_cases hfirst : u = 1
    · rw [hfirst]
      decide +kernel
    · by_cases hsecond : u = 2
      · rw [hsecond]
        decide +kernel
      · have hnone : timesOf busyHour u = [] := by
          simp [timesOf, busyHour, Ne.symm hfirst, Ne.symm hsecond]
        rw [hnone]
        exact List.Pairwise.nil
  refine ⟨by decide +kernel, ?_⟩
  exact (rate_limited (by decide) hmono).2.2.2 1 60 1860 (by decide +kernel) (by norm_num)

end Chic.RateLimiter
