import Chic.BotPolicy

namespace Chic.Bot
open Effects Keyboards Telegram

/-- The chunks of a text, the keyboard with the last one. -/
def pieces (text : String) (markup : Option Markup) : List (String × Option Markup) :=
  let chunks := sourceChunks text
  chunks.zipIdx.map fun (chunk, i) => (chunk, if i = chunks.length - 1 then markup else none)

def shown (done : Past) : List (String × Option ParseMode × Option Markup) :=
  done.filterMap fun
    | ⟨.telegram (.sendMessage _ text mode markup), some .ok⟩ => some (text, mode, markup)
    | _ => none

def lost (done : Past) : List String :=
  done.filterMap fun
    | ⟨.telegram (.sendMessage _ text none _), some .badRequest⟩ => some text
    | _ => none

section Pieces
variable {text : String} {markup : Option Markup}

theorem map_fst_pieces (text : String) (markup : Option Markup) :
    (pieces text markup).map Prod.fst = sourceChunks text := by
  rw [pieces, List.map_map]
  exact List.zipIdx_map_fst 0 _

theorem length_pieces : (pieces text markup).length = (sourceChunks text).length := by
  rw [← map_fst_pieces text markup, List.length_map]

theorem getElem?_pieces (text : String) (markup : Option Markup) (k : ℕ) :
    (pieces text markup)[k]? = (sourceChunks text)[k]?.map fun chunk =>
      (chunk, if k = (sourceChunks text).length - 1 then markup else none) := by
  rw [pieces, List.getElem?_map, List.getElem?_zipIdx, Option.map_map, Nat.zero_add]
  rfl

theorem pairwise_pieces : (pieces text markup).Pairwise fun p _ => p.2 = none := by
  rw [List.pairwise_iff_getElem]
  intro i j hi hj hij
  have hget := getElem?_pieces text markup i
  rw [length_pieces] at hi hj
  rw [List.getElem?_eq_getElem (by rwa [length_pieces]), List.getElem?_eq_getElem hi,
    Option.map_some, if_neg (by omega)] at hget
  rw [Option.some.inj hget]

theorem exists_newlines (text : String) :
    ∃ cut : List (List Char × ℕ), cut.map Prod.fst = (sourceChunks text).map String.toList ∧
      text.toList = joined cut := by
  by_cases hshort : text.length ≤ splitTarget
  · refine ⟨[(text.toList, 0)], ?_, by simp [joined]⟩
    rw [sourceChunks, if_pos hshort, List.map_singleton, List.map_singleton]
  · have hlong : splitTarget < text.toList.length := not_le.mp hshort
    obtain ⟨chunks, hloop, ⟨cut, rfl, htext⟩, -⟩ := chunks_returns hlong
    refine ⟨cut, ?_, by rw [htext, List.append_nil]⟩
    rw [sourceChunks, if_neg hshort, ← String.length_toList, hloop, Option.getD_some, List.map_map]
    exact ((List.map_congr_left fun c _ => String.toList_ofList).trans (List.map_id _)).symm

end Pieces

namespace ChicBot
variable (bot : ChicBot) (chatId : ℤ)

/-- A piece gets through as MarkdownV2, or is rejected and sent once more as it is. -/
inductive Sent (p : String × Option Markup) : Past → Prop
  | rendered {text : String} (h : bot.toMarkdownV2 p.1 = some text) :
    Sent p [⟨.telegram (.sendMessage chatId text (some .markdownV2) p.2), some .ok⟩]
  | again {text : String} (h : bot.toMarkdownV2 p.1 = some text) (r : Reply) :
    Sent p [⟨.telegram (.sendMessage chatId text (some .markdownV2) p.2), some .badRequest⟩,
      ⟨.telegram (.sendMessage chatId p.1 none p.2), some r⟩]

/-- An exception ends the delivery at a piece. -/
inductive Broken (p : String × Option Markup) : Past → Prop
  | unconverted (h : bot.toMarkdownV2 p.1 = none) : Broken p []
  | first {text : String} (h : bot.toMarkdownV2 p.1 = some text) :
    Broken p [⟨.telegram (.sendMessage chatId text (some .markdownV2) p.2), none⟩]
  | second {text : String} (h : bot.toMarkdownV2 p.1 = some text) :
    Broken p [⟨.telegram (.sendMessage chatId text (some .markdownV2) p.2), some .badRequest⟩,
      ⟨.telegram (.sendMessage chatId p.1 none p.2), none⟩]

/-- The pieces go out one after the other, to the end or up to an exception. -/
inductive Delivers : List (String × Option Markup) → Past → Bool → Prop
  | nil : Delivers [] [] true
  | cons {p ps ds ds' b} (h : bot.Sent chatId p ds) (hrest : Delivers ps ds' b) :
    Delivers (p :: ps) (ds ++ ds') b
  | broken {p ps ds} (h : bot.Broken chatId p ds) : Delivers (p :: ps) ds false

section
variable {bot : ChicBot} {chatId : ℤ} {p : String × Option Markup}
  {ps : List (String × Option Markup)} {ds : Past} {b : Bool}

theorem sendChunk_tries (past : Past) (p : String × Option Markup) :
    (bot.sendChunk chatId p.1 p.2).Only (fun _ _ => True)
      (fun past' o => ∃ ds, past' = past ++ ds ∧
        (o.isSome ∧ bot.Sent chatId p ds ∨ o = none ∧ bot.Broken chatId p ds)) past := by
  rw [sendChunk]
  cases hrendered : bot.toMarkdownV2 p.1 with
  | none => exact ⟨[], (List.append_nil past).symm, .inr ⟨rfl, .unconverted hrendered⟩⟩
  | some text =>
    refine Prog.only_bind.mpr (Prog.only_call.mpr ⟨trivial, fun r => ?_⟩)
    rcases r with - | - | -
    · exact ⟨_, rfl, .inr ⟨rfl, .first hrendered⟩⟩
    · exact ⟨_, rfl, .inl ⟨rfl, .rendered hrendered⟩⟩
    · refine Prog.only_bind.mpr (Prog.only_call.mpr ⟨trivial, fun r => ?_⟩)
      rw [List.append_assoc]
      cases r with
      | none => exact ⟨_, rfl, .inr ⟨rfl, .second hrendered⟩⟩
      | some r => exact ⟨_, rfl, .inl ⟨rfl, .again hrendered r⟩⟩

theorem forM_sendChunk (past : Past) (ps : List (String × Option Markup)) :
    (ps.forM fun p => bot.sendChunk chatId p.1 p.2).Only (fun _ _ => True)
      (fun past' o => ∃ ds, past' = past ++ ds ∧ bot.Delivers chatId ps ds o.isSome) past := by
  induction ps generalizing past with
  | nil => exact ⟨[], (List.append_nil past).symm, .nil⟩
  | cons p ps ih =>
    change (bot.sendChunk chatId p.1 p.2 >>= fun _ => ps.forM _).Only _ _ past
    refine (sendChunk_tries past p).bind ?_ ?_
    · rintro _ ⟨ds, rfl, ⟨⟨⟩, -⟩ | ⟨-, hbroken⟩⟩
      exact ⟨ds, rfl, .broken hbroken⟩
    · rintro _ - ⟨ds, rfl, ⟨-, hsent⟩ | ⟨⟨⟩, -⟩⟩
      refine (ih (past ++ ds)).mono (fun _ _ h => h) ?_
      rintro _ o ⟨ds', rfl, hrest⟩
      exact ⟨ds ++ ds', List.append_assoc past ds ds', .cons hsent hrest⟩

def Shows (bot : ChicBot) (p : String × Option Markup)
    (message : String × Option ParseMode × Option Markup) : Prop :=
  bot.Renders p.1 message.1 message.2.1 ∧ message.2.2 = p.2

theorem Sent.shown (h : bot.Sent chatId p ds) :
    (∃ message, shown ds = [message] ∧ bot.Shows p message ∧ lost ds = []) ∨
      shown ds = [] ∧ lost ds = [p.1] := by
  cases h with
  | rendered h => exact .inl ⟨_, rfl, ⟨h, rfl⟩, rfl⟩
  | again h r =>
    cases r with
    | ok => exact .inl ⟨_, rfl, ⟨rfl, rfl⟩, rfl⟩
    | badRequest => exact .inr ⟨rfl, rfl⟩

theorem Broken.shown (h : bot.Broken chatId p ds) : shown ds = [] := by cases h <;> rfl

theorem Sent.length_le (h : bot.Sent chatId p ds) : ds.length ≤ 2 := by cases h <;> simp

theorem Broken.length_le (h : bot.Broken chatId p ds) : ds.length ≤ 2 := by cases h <;> simp

theorem Delivers.length_le (h : bot.Delivers chatId ps ds b) : ds.length ≤ 2 * ps.length := by
  induction h with
  | nil => exact Nat.zero_le _
  | cons h hrest ih =>
    have hle := h.length_le
    rw [List.length_append, List.length_cons]
    omega
  | broken h =>
    have hle := h.length_le
    rw [List.length_cons]
    omega

/-- The messages show some of the pieces, in their order; the others were lost. -/
theorem Delivers.shown (h : bot.Delivers chatId ps ds b) :
    ∃ kept, kept.Sublist ps ∧ List.Forall₂ bot.Shows kept (shown ds) ∧
      (b = true → kept.length + (lost ds).length = ps.length) := by
  induction h with
  | nil => exact ⟨[], .slnil, .nil, fun _ => rfl⟩
  | cons h hrest ih =>
    obtain ⟨kept, hkept, hshown, hcount⟩ := ih
    rw [Bot.shown, lost, List.filterMap_append, List.filterMap_append, ← Bot.shown, ← Bot.shown,
      ← lost, ← lost]
    rcases h.shown with ⟨message, hmessage, hshows, hlost⟩ | ⟨hnone, hlost⟩
    · rw [hmessage, hlost]
      refine ⟨_ :: kept, hkept.cons_cons _, .cons hshows hshown, fun hb => ?_⟩
      rw [List.length_cons, List.length_cons, List.nil_append, ← hcount hb]
      omega
    · rw [hnone, hlost]
      refine ⟨kept, hkept.cons _, hshown, fun hb => ?_⟩
      rw [List.length_append, List.length_singleton, List.length_cons, ← hcount hb]
      omega
  | broken h =>
    rw [h.shown]
    exact ⟨[], List.nil_sublist _, .nil, fun hb => by cases hb⟩

theorem map_markup {kept : List (String × Option Markup)}
    {messages : List (String × Option ParseMode × Option Markup)}
    (h : List.Forall₂ bot.Shows kept messages) :
    messages.map (·.2.2) = kept.map Prod.snd := by
  induction h with
  | nil => rfl
  | cons h _ ih => rw [List.map_cons, List.map_cons, h.2, ih]

theorem sendChunks_delivers (past : Past) (text : String) (markup : Option Markup) :
    (bot.sendChunks chatId text markup).Only (fun _ _ => True)
      (fun past' o => ∃ ds, past' = past ++ ds ∧
        bot.Delivers chatId (pieces text markup) ds o.isSome) past := by
  have hpieces : bot.sendChunks chatId text markup =
      (pieces text markup).forM fun p => bot.sendChunk chatId p.1 p.2 := by
    rw [pieces, Prog.forM_map]
    rfl
  rw [hpieces]
  exact forM_sendChunk past _

end

end ChicBot

open ChicBot

/-- Whatever Telegram and the network do, the chunks of an answer are tried one after the other, each as
MarkdownV2 and, when that is rejected, once more as it is, up to the end or an exception. So it is shown
as some of its chunks in their order, each at most once, and nothing comes after the keyboard. If no
exception ends the delivery, what is not shown was rejected twice, and if nothing was, the chunks shown
are the whole text but for newlines between them. -/
theorem delivery_in_order (bot : ChicBot) (world : Past → (e : Effect) → Option (Answer e))
    (past : Past) (chatId : ℤ) (text : String) (markup : Option Markup) :
    ∃ ds kept, ((bot.sendChunks chatId text markup).exec world past).1 = past ++ ds ∧
      bot.Delivers chatId (pieces text markup) ds
        ((bot.sendChunks chatId text markup).exec world past).2.isSome ∧
      kept.Sublist (pieces text markup) ∧ List.Forall₂ bot.Shows kept (shown ds) ∧
      (shown ds).Pairwise (fun message _ => message.2.2 = none) ∧
      ds.length ≤ 2 * (sourceChunks text).length ∧
      (((bot.sendChunks chatId text markup).exec world past).2 = some () →
        (shown ds).length + (lost ds).length = (sourceChunks text).length ∧
          (lost ds = [] → kept = pieces text markup ∧
            ∃ cut : List (List Char × ℕ), text.toList = joined cut ∧
              cut.map Prod.fst = kept.map fun p => p.1.toList)) := by
  have honly : (bot.sendChunks chatId text markup).Only _ _ past := sendChunks_delivers past text markup
  obtain ⟨ds, hds, hdelivers⟩ := honly.exec world
  obtain ⟨kept, hkept, hshown, hcount⟩ := hdelivers.shown
  have hlen := hshown.length_eq
  refine ⟨ds, kept, hds, hdelivers, hkept, hshown, ?_, length_pieces ▸ hdelivers.length_le, fun hend => ?_⟩
  · have hpairwise : (kept.map Prod.snd).Pairwise fun markup _ => markup = none :=
      List.pairwise_map.mpr (pairwise_pieces.sublist hkept)
    rw [← map_markup hshown] at hpairwise
    exact List.pairwise_map.mp hpairwise
  · have hall := hcount (by rw [hend]; rfl)
    rw [length_pieces] at hall
    refine ⟨hlen ▸ hall, fun hlost => ?_⟩
    -- nothing is lost, so as many pieces are shown as there are
    have hkeep : kept = pieces text markup := by
      refine hkept.eq_of_length ?_
      rw [length_pieces, ← hall, hlost]
      rfl
    obtain ⟨cut, hcut, hjoined⟩ := exists_newlines text
    refine ⟨hkeep, cut, hjoined, ?_⟩
    rw [hcut, ← map_fst_pieces text markup, hkeep, List.map_map]
    rfl

end Chic.Bot
