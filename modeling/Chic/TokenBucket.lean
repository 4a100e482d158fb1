import Mathlib.Algebra.Order.Field.Basic
import Mathlib.Data.List.Induction
import Mathlib.Tactic.FieldSimp
import Mathlib.Tactic.Linarith
import Mathlib.Tactic.Ring

namespace Chic.TokenBucket

variable {F : Type*} [Field F] [LinearOrder F]

abbrev Bucket (F : Type*) := Option (F × F)

/-- What is in a bucket when it is looked at: it has filled up since, and not beyond its size. -/
def level (cap refill now : F) : Bucket F → F
  | none => cap
  | some (tokens, last) => min cap (tokens + (now - last) * refill)

/-- A token is taken if there is a whole one. -/
def take (cap refill : F) (b : Bucket F) (now : F) : Bool × Bucket F :=
  let tokens := level cap refill now b
  if tokens < 1 then (false, some (tokens, now)) else (true, some (tokens - 1, now))

def takeAll (cap refill : F) : Bucket F → List F → List (F × Bool) × Bucket F
  | b, [] => ([], b)
  | b, now :: times =>
    let (ok, b') := take cap refill b now
    let (answers, t) := takeAll cap refill b' times
    ((now, ok) :: answers, t)

def taken (answers : List (F × Bool)) (start stop : F) : ℕ :=
  answers.countP fun a => a.2 = true ∧ start ≤ a.1 ∧ a.1 ≤ stop

section Take
variable {cap refill now : F} {b b' : Bucket F}

theorem take_snd (cap refill now : F) (b : Bucket F) :
    (take cap refill b now).2 =
      some (level cap refill now b - if (take cap refill b now).1 = true then 1 else 0, now) := by
  unfold take
  dsimp only
  split_ifs <;> simp_all

theorem take_fst (cap refill now : F) (b : Bucket F) :
    (take cap refill b now).1 = true ↔ 1 ≤ level cap refill now b := by
  unfold take
  dsimp only
  split_ifs with h
  · simpa using h
  · simpa using h

theorem level_le (cap refill now : F) (b : Bucket F) : level cap refill now b ≤ cap := by
  cases b with
  | none => exact le_rfl
  | some e => exact min_le_left _ _

theorem takeAll_concat (b : Bucket F) (times : List F) (now : F) :
    takeAll cap refill b (times ++ [now]) =
      ((takeAll cap refill b times).1 ++
          [(now, (take cap refill (takeAll cap refill b times).2 now).1)],
        (take cap refill (takeAll cap refill b times).2 now).2) := by
  induction times generalizing b with
  | nil => rfl
  | cons t times ih => simp only [List.cons_append, takeAll, ih]

theorem times_takeAll (b : Bucket F) (times : List F) :
    (takeAll cap refill b times).1.map Prod.fst = times := by
  induction times generalizing b with
  | nil => rfl
  | cons t times ih => simp only [takeAll, List.map_cons, ih]

theorem time_mem {times : List F} {a : F × Bool} (h : a ∈ (takeAll cap refill b times).1) :
    a.1 ∈ times := by
  rw [← times_takeAll b times]
  exact List.mem_map_of_mem h

end Take

section Taken
variable {answers : List (F × Bool)} {start stop : F}

omit [Field F] in
theorem taken_append (answers answers' : List (F × Bool)) (start stop : F) :
    taken (answers ++ answers') start stop = taken answers start stop + taken answers' start stop :=
  List.countP_append

omit [Field F] in
theorem taken_eq_zero (h : ∀ a ∈ answers, a.1 < start) : taken answers start stop = 0 := by
  apply List.countP_eq_zero.mpr
  intro a ha
  simp [(h a ha).not_ge]

omit [Field F] in
/-- Past the last call the end of the window does not matter. -/
theorem taken_congr {stop' : F} (h : ∀ a ∈ answers, a.1 ≤ stop) (h' : ∀ a ∈ answers, a.1 ≤ stop') :
    taken answers start stop = taken answers start stop' := by
  apply List.countP_congr
  intro a ha
  simp [h a ha, h' a ha]

end Taken

theorem level_take (cap refill now : F) (b : Bucket F) (later : F) :
    level cap refill later (take cap refill b now).2 = min cap
      (level cap refill now b - (if (take cap refill b now).1 = true then 1 else 0) +
        (later - now) * refill) := by
  rw [take_snd, level]

/-- Two buckets that fill up alike, whenever they were counted. -/
def Same (refill : F) : Bucket F → Bucket F → Prop
  | none, none => True
  | some (tokens, last), some (tokens', last') => tokens - last * refill = tokens' - last' * refill
  | _, _ => False

section Same
variable {cap refill now : F} {b b' : Bucket F}

omit [LinearOrder F] in
theorem Same.refl (refill : F) (b : Bucket F) : Same refill b b := by
  cases b with
  | none => trivial
  | some e => rfl

omit [LinearOrder F] in
theorem Same.trans {b'' : Bucket F} (h : Same refill b b') (h' : Same refill b' b'') :
    Same refill b b'' := by
  match b, b', b'', h, h' with
  | none, none, none, _, _ => trivial
  | some e, some e', some e'', h, h' => exact Eq.trans h h'

theorem Same.level_eq (h : Same refill b b') (cap now : F) :
    level cap refill now b = level cap refill now b' := by
  match b, b', h with
  | none, none, _ => rfl
  | some (tokens, last), some (tokens', last'), h =>
    have h : tokens - last * refill = tokens' - last' * refill := h
    have hshift : ∀ x y : F, x + (now - y) * refill = x - y * refill + now * refill := by
      intro x y
      ring
    rw [level, level, hshift, hshift, h]

theorem Same.take_eq (h : Same refill b b') (cap now : F) :
    take cap refill b now = take cap refill b' now := by
  rw [take, take, h.level_eq]

theorem same_of_denied (hcap : 1 ≤ cap) (h : (take cap refill b now).1 = false) :
    Same refill (take cap refill b now).2 b := by
  have hdenied : ¬ (take cap refill b now).1 = true := by simp [h]
  have hlt : level cap refill now b < 1 := not_le.mp ((take_fst cap refill now b).not.mp hdenied)
  rw [take_snd, if_neg hdenied, sub_zero]
  match b, hlt with
  | none, hlt => exact absurd hlt (not_lt.mpr hcap)
  | some (tokens, last), hlt =>
    have hlevel : level cap refill now (some (tokens, last)) = tokens + (now - last) * refill :=
      min_eq_right_iff.mpr ((min_lt_iff.mp (hlt.trans_le hcap)).resolve_left (lt_irrefl cap)).le
    show level cap refill now (some (tokens, last)) - now * refill = tokens - last * refill
    rw [hlevel, sub_mul]
    ring

end Same

variable [IsStrictOrderedRing F]

section Run
variable {cap refill now : F} {times : List F}

theorem left_nonneg {b : Bucket F} (h : 0 ≤ level cap refill now b) :
    0 ≤ level cap refill now b - if (take cap refill b now).1 = true then 1 else 0 := by
  split_ifs with htake
  · exact sub_nonneg.mpr ((take_fst cap refill now b).mp htake)
  · rwa [sub_zero]

theorem level_nonneg (hcap : 0 ≤ cap) (hrefill : 0 ≤ refill) (h : times.Pairwise (· ≤ ·))
    {later : F} (hlater : ∀ t ∈ times, t ≤ later) :
    0 ≤ level cap refill later (takeAll cap refill none times).2 := by
  induction times using List.reverseRecOn generalizing later with
  | nil => exact hcap
  | append_singleton times now ih =>
    obtain ⟨htimes, -, hnow⟩ := List.pairwise_append.mp h
    have hlevel := ih htimes fun t ht => hnow t ht now (List.mem_singleton_self now)
    have hle : now ≤ later := hlater now List.mem_concat_self
    have hrefilled := mul_nonneg (sub_nonneg.mpr hle) hrefill
    rw [takeAll_concat, level_take]
    exact le_min hcap (add_nonneg (left_nonneg hlevel) hrefilled)

theorem tokens_mem (hcap : 0 ≤ cap) (hrefill : 0 ≤ refill) (h : times.Pairwise (· ≤ ·))
    {tokens last : F} (hb : (takeAll cap refill none times).2 = some (tokens, last)) :
    0 ≤ tokens ∧ tokens ≤ cap := by
  cases times using List.reverseRecOn with
  | nil => cases hb
  | append_singleton times now =>
    obtain ⟨htimes, -, hnow⟩ := List.pairwise_append.mp h
    have hlevel := level_nonneg hcap hrefill htimes fun t ht =>
      hnow t ht now (List.mem_singleton_self now)
    have hle := level_le cap refill now (takeAll cap refill none times).2
    rw [takeAll_concat, take_snd] at hb
    cases hb
    refine ⟨left_nonneg hlevel, ?_⟩
    split_ifs
    · linarith
    · rwa [sub_zero]

/-- A call in the window takes one token or none, and the bucket fills up after it. -/
theorem taken_add_level_concat (hbefore : ∀ t ∈ times, t ≤ now) {start later : F}
    (hstart : start ≤ now) (hlater : now ≤ later) :
    (taken (takeAll cap refill none (times ++ [now])).1 start later : F) +
        level cap refill later (takeAll cap refill none (times ++ [now])).2 ≤
      taken (takeAll cap refill none times).1 start now +
        level cap refill now (takeAll cap refill none times).2 + (later - now) * refill := by
  have hone : taken [(now, (take cap refill (takeAll cap refill none times).2 now).1)] start later =
      if (take cap refill (takeAll cap refill none times).2 now).1 = true then 1 else 0 := by
    simp [taken, List.countP_cons, hstart, hlater]
  have hearlier : taken (takeAll cap refill none times).1 start later =
      taken (takeAll cap refill none times).1 start now :=
    taken_congr (fun a ha => (hbefore a.1 (time_mem ha)).trans hlater)
      fun a ha => hbefore a.1 (time_mem ha)
  have hlevel := min_le_right cap (level cap refill now (takeAll cap refill none times).2 -
    (if (take cap refill (takeAll cap refill none times).2 now).1 = true then 1 else 0) +
      (later - now) * refill)
  rw [takeAll_concat, taken_append, hone, hearlier, level_take]
  push_cast
  linarith

/-- What was taken since `start` is missing from the bucket, or has come in since. -/
theorem taken_add_level_le (cap : F) (hrefill : 0 ≤ refill) (h : times.Pairwise (· ≤ ·))
    {start later : F} (hlater : ∀ t ∈ times, t ≤ later) (hstart : start ≤ later) :
    taken (takeAll cap refill none times).1 start later +
        level cap refill later (takeAll cap refill none times).2 ≤
      cap + (later - start) * refill := by
  induction times using List.reverseRecOn generalizing later with
  | nil =>
    have := mul_nonneg (sub_nonneg.mpr hstart) hrefill
    simpa [takeAll, taken, level] using this
  | append_singleton times now ih =>
    obtain ⟨htimes, -, hnow⟩ := List.pairwise_append.mp h
    have hbefore : ∀ t ∈ times, t ≤ now := fun t ht => hnow t ht now (List.mem_singleton_self now)
    have hle : now ≤ later := hlater now List.mem_concat_self
    by_cases hs : start ≤ now
    · calc (taken (takeAll cap refill none (times ++ [now])).1 start later : F) +
            level cap refill later (takeAll cap refill none (times ++ [now])).2
        _ ≤ taken (takeAll cap refill none times).1 start now +
            level cap refill now (takeAll cap refill none times).2 + (later - now) * refill :=
          taken_add_level_concat hbefore hs hle
        _ ≤ cap + (now - start) * refill + (later - now) * refill :=
          add_le_add_left (ih htimes hbefore hs) _
        _ = cap + (later - start) * refill := by ring
    · -- nothing was taken yet, and a bucket holds no more than its size
      have hnone : taken (takeAll cap refill none (times ++ [now])).1 start later = 0 := by
        apply taken_eq_zero
        intro a ha
        rcases List.mem_append.mp (time_mem ha) with ht | ht
        · exact (hbefore a.1 ht).trans_lt (not_le.mp hs)
        · exact (List.mem_singleton.mp ht).trans_lt (not_le.mp hs)
      have hlevel := level_le cap refill later (takeAll cap refill none (times ++ [now])).2
      have hrefilled := mul_nonneg (sub_nonneg.mpr hstart) hrefill
      rw [hnone]
      push_cast
      linarith

/-- In a window no more is taken than the bucket holds and than comes in meanwhile. -/
theorem taken_le (hcap : 0 ≤ cap) (hrefill : 0 ≤ refill) (h : times.Pairwise (· ≤ ·))
    {start stop : F} (hwindow : start ≤ stop) :
    taken (takeAll cap refill none times).1 start stop ≤ cap + (stop - start) * refill := by
  induction times using List.reverseRecOn with
  | nil =>
    have hrefilled := mul_nonneg (sub_nonneg.mpr hwindow) hrefill
    simpa [takeAll, taken] using add_nonneg hcap hrefilled
  | append_singleton times now ih =>
    obtain ⟨htimes, -, hnow⟩ := List.pairwise_append.mp h
    by_cases hstop : now ≤ stop
    · have hall : ∀ t ∈ times ++ [now], t ≤ stop := by
        intro t ht
        rcases List.mem_append.mp ht with ht | ht
        · exact (hnow t ht now (List.mem_singleton_self now)).trans hstop
        · exact (List.mem_singleton.mp ht).trans_le hstop
      have hlevel := level_nonneg hcap hrefill h hall
      have hsum := taken_add_level_le cap hrefill h hall hwindow
      exact (le_add_of_nonneg_right hlevel).trans hsum
    · -- a call after the window does not count, and what it leaves does not matter
      have hout : taken [(now, (take cap refill (takeAll cap refill none times).2 now).1)] start stop =
          0 := by
        simp [taken, hstop]
      rw [takeAll_concat, taken_append, hout, Nat.add_zero]
      exact ih htimes

/-- After the time in which one token comes in there is one. -/
theorem take_of_waited (hcap : 1 ≤ cap) (hrefill : 0 ≤ refill) (h : times.Pairwise (· ≤ ·))
    {last : F} (hlast : times.getLast? = some last) (hwaited : 1 ≤ (now - last) * refill) :
    (take cap refill (takeAll cap refill none times).2 now).1 = true := by
  obtain ⟨before, rfl⟩ := List.getLast?_eq_some_iff.mp hlast
  obtain ⟨hbefore, -, hle⟩ := List.pairwise_append.mp h
  have hlevel := level_nonneg (zero_le_one.trans hcap) hrefill hbefore fun t ht =>
    hle t ht last (List.mem_singleton_self last)
  have hleft := left_nonneg hlevel
  rw [take_fst, takeAll_concat, level_take]
  exact le_min hcap (by linarith)

end Run

end Chic.TokenBucket
