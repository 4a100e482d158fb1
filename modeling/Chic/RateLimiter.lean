import Chic.AppDb

namespace Chic.RateLimiter
open AppDb

/-- Tokens and the time they were counted at, for each user seen so far. `F` is the type of the
floats, of whose arithmetic nothing is assumed. -/
abbrev Buckets (F : Type*) := Dict UserId (F × F)

section
variable {F : Type*} [Add F] [Sub F] [Mul F] [Div F] [Min F] [LT F] [DecidableLT F] [IntCast F]
  [NatCast F]

/-- `_RateLimiter.allow`: a token is taken if there is one. A negative rate limits nothing. -/
def allow (perHour : ℤ) (buckets : Buckets F) (userId : UserId) (nowTs : F) : Bool × Buckets F :=
  if perHour < 0 then (true, buckets)
  else
    let cap : F := perHour
    let refill : F := (perHour : F) / (3600 : ℕ)
    let (tokens, last) := (buckets.get? userId).getD (cap, nowTs)
    let tokens := min cap (tokens + (nowTs - last) * refill)
    if tokens < (1 : ℕ) then (false, buckets.set userId (tokens, nowTs))
    else (true, buckets.set userId (tokens - (1 : ℕ), nowTs))

variable {perHour : ℤ} {buckets buckets' : Buckets F} {u v : UserId}

theorem allow_get?_of_ne (h : v ≠ u) (nowTs : F) :
    (allow perHour buckets u nowTs).2.get? v = buckets.get? v := by
  unfold allow
  dsimp only
  split_ifs
  · rfl
  · exact Dict.get?_set_of_ne _ _ h
  · exact Dict.get?_set_of_ne _ _ h

theorem allow_congr (h : buckets.get? u = buckets'.get? u) (nowTs : F) :
    (allow perHour buckets u nowTs).1 = (allow perHour buckets' u nowTs).1 ∧
      (allow perHour buckets u nowTs).2.get? u = (allow perHour buckets' u nowTs).2.get? u := by
  unfold allow
  dsimp only
  rw [h]
  split_ifs
  · exact ⟨rfl, h⟩
  · simp
  · simp

end

end Chic.RateLimiter
