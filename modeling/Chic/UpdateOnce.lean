import Chic.WebhookRuns

namespace Chic.Bot
open Effects Telegram

namespace ChicBot
variable (bot : ChicBot)

def accepts (d : Dedupe) (r : Request) : Option ℤ :=
  if r.pathSecret ≠ bot.webhookSecret ∨ r.header.getD "" ≠ bot.webhookSecret then none
  else r.body.bind fun u =>
    if (d.firstSeen u.updateId).map Prod.fst = some true then some u.updateId else none

def acceptedFrom : Dedupe → List Request → List ℤ
  | _, [] => []
  | d, r :: rs => (bot.accepts d r).toList ++ acceptedFrom (bot.webhook d r).1 rs

def Positive (rs : List Request) : Prop := ∀ r ∈ rs, ∀ u ∈ r.body, 0 < u.updateId

instance : DecidablePred Positive := fun rs =>
  inferInstanceAs (Decidable (∀ r ∈ rs, ∀ u ∈ r.body, 0 < u.updateId))

section
variable {bot : ChicBot} {d : Dedupe} {r : Request} {rs : List Request} {log : List ℤ} {n : ℕ}

theorem acceptedFrom_append (d : Dedupe) (rs rs' : List Request) :
    bot.acceptedFrom d (rs ++ rs') = bot.acceptedFrom d rs ++
      bot.acceptedFrom (rs.foldl (fun d r => (bot.webhook d r).1) d) rs' := by
  induction rs generalizing d with
  | nil => rfl
  | cons r rs ih => simp only [List.cons_append, acceptedFrom, ih, List.foldl_cons, List.append_assoc]

theorem webhook_inv (h : d.Inv n log) (hpos : ∀ u ∈ r.body, 0 < u.updateId) :
    (bot.webhook d r).1.Inv n (log ++ (bot.accepts d r).toList) := by
  unfold webhook accepts
  split_ifs with hsecret
  · simpa using h
  cases hbody : r.body with
  | none => simpa using h
  | some u =>
    dsimp only [Option.bind_some]
    by_cases hmem : u.updateId ∈ log.rtake n
    · rw [h.firstSeen_of_mem hmem]
      simpa using h
    · obtain ⟨d', hd', hinv⟩ := h.accept (hpos u hbody) hmem
      rw [hd']
      simpa using hinv

theorem foldl_inv (h : d.Inv n log) (hpos : Positive rs) :
    (rs.foldl (fun d r => (bot.webhook d r).1) d).Inv n (log ++ bot.acceptedFrom d rs) := by
  induction rs generalizing d log with
  | nil => simpa [acceptedFrom] using h
  | cons r rs ih =>
    obtain ⟨hr, hrs⟩ := List.forall_mem_cons.mp hpos
    rw [acceptedFrom, ← List.append_assoc]
    exact ih (webhook_inv h hr) hrs

end

end ChicBot

theorem mem_rtake {α : Type*} (pre post : List α) (x : α) {n : ℕ} (h : post.length < n) :
    x ∈ (pre ++ x :: post).rtake n := by
  rw [List.rtake_eq_reverse_take_reverse, List.mem_reverse, List.reverse_append, List.reverse_cons,
    List.append_assoc, List.take_append, List.mem_append]
  right
  rw [List.length_reverse, List.singleton_append, List.take_cons (by omega)]
  exact List.mem_cons_self

open ChicBot

variable {bot : ChicBot} {xs : List Request} {i j : ℕ} {u u' : Update} {event event' : Event}

/-- An update that is admitted again has left the ring: so many others came in between. -/
theorem admitted_twice (hpos : Positive xs) (hij : i < j) (hi : bot.Admitted xs i u event)
    (hj : bot.Admitted xs j u' event') (hid : u.updateId = u'.updateId) :
    1024 ≤ (bot.acceptedFrom (bot.server.stateAfter (xs.take (i + 1)))
      ((xs.take j).drop (i + 1))).length := by
  obtain ⟨r, hr, hpath, hheader, hbody⟩ := hi.request
  have haccepts : bot.accepts (bot.server.stateAfter (xs.take i)) r = some u.updateId := by
    rw [accepts, if_neg (by simp [hpath, hheader]), hbody, Option.bind_some, if_pos hi.fresh]
  set mid := (xs.take j).drop (i + 1) with hmid
  have htake : xs.take (i + 1) = xs.take i ++ [r] := by
    rw [List.take_add_one, hr, Option.toList_some]
  have hsplit : xs.take j = xs.take (i + 1) ++ mid := by
    conv_lhs => rw [← List.take_append_drop (i + 1) (xs.take j), List.take_take]
    rw [Nat.min_eq_left hij]
  have hlog : bot.acceptedFrom (Dedupe.init 1024) (xs.take j) =
      bot.acceptedFrom (Dedupe.init 1024) (xs.take i) ++
        u.updateId :: bot.acceptedFrom (bot.server.stateAfter (xs.take (i + 1))) mid := by
    rw [hsplit, acceptedFrom_append, htake, acceptedFrom_append, List.append_assoc]
    change _ ++ ((bot.accepts (bot.server.stateAfter (xs.take i)) r).toList ++ [] ++ _) = _
    rw [haccepts, ← htake]
    rfl
  have hinv : (bot.server.stateAfter (xs.take j)).Inv 1024
      ([] ++ bot.acceptedFrom (Dedupe.init 1024) (xs.take j)) :=
    foldl_inv (Dedupe.inv_init (by decide)) fun r hr => hpos r (List.mem_of_mem_take hr)
  rw [List.nil_append, hlog] at hinv
  by_contra hfew
  have hseen := hinv.firstSeen_of_mem (mem_rtake _ _ u.updateId (not_le.mp hfew))
  have hfresh := hj.fresh
  rw [← hid, hseen] at hfresh
  cases hfresh

/-- In any run two tasks that have done something and serve one update are far apart: among the
requests between theirs the bot has accepted 1024 new updates at least. -/
theorem update_once {w : World Effect Answer Dedupe Request}
    {es : List (Effects.Event Effect Answer Request)}
    (h : Trace.run bot.server.step bot.server.start es = some w) (hpos : Positive w.inputs)
    {d d' : Done Effect Answer} (hij : i < j) (hi : (i, d) ∈ w.log) (hj : (j, d') ∈ w.log) :
    ∃ u u' event event', bot.Admitted w.inputs i u event ∧ bot.Admitted w.inputs j u' event' ∧
      (u.updateId = u'.updateId →
        1024 ≤ (bot.acceptedFrom (bot.server.stateAfter (w.inputs.take (i + 1)))
          ((w.inputs.take j).drop (i + 1))).length) := by
  obtain ⟨l, l', hsplit⟩ := List.append_of_mem hi
  obtain ⟨u, event, hadmitted, -⟩ := run_keeps h hsplit
  obtain ⟨m, m', hsplit'⟩ := List.append_of_mem hj
  obtain ⟨u', event', hadmitted', -⟩ := run_keeps h hsplit'
  exact ⟨u, u', event, event', hadmitted, hadmitted', admitted_twice hpos hij hadmitted hadmitted'⟩

/-- The question and the press are two updates. -/
theorem question_and_press : ∃ w u u' event event',
    Trace.run shopBot.server.step shopBot.server.start shopEvents = some w ∧
      shopBot.Admitted w.inputs 0 u event ∧ shopBot.Admitted w.inputs 2 u' event' ∧
      u.updateId ≠ u'.updateId := by
  obtain ⟨w, hrun, hinputs, hlog⟩ := exists_shop_run
  have hpos : Positive w.inputs := by
    rw [hinputs]
    decide
  have hasked : (0, ⟨.handle 1 "продажи" "", some periodQuestion⟩) ∈ w.log := by
    rw [hlog]
    decide
  have hpressed : (2, ⟨.handle 1 "неделя" "", some ⟨"12 шт.", [], false⟩⟩) ∈ w.log := by
    rw [hlog]
    decide
  obtain ⟨u, u', event, event', hu, hu', hfar⟩ := update_once hrun hpos (by decide) hasked hpressed
  refine ⟨w, u, u', event, event', hrun, hu, hu', fun hid => ?_⟩
  have hmany := hfar hid
  rw [hinputs] at hmany
  exact absurd hmany (by decide +kernel)

end Chic.Bot
