import Chic.SummaryFolding

namespace Chic.Dialog
open AppDb Trace

section CondenseHistory
variable {cfg : AgentConfig} {db : Store} {u : UserId} {epoch upTo : ℕ} {s : String}
  {foldable recent : List Message}

theorem condenseHistory_fits (hb : 0 ≤ cfg.summaryCharBudget)
    (hmark : watermark db u epoch = (s, upTo))
    (hplan : condensePlan cfg.summaryCharBudget
      (db.messages.messagesSince u upTo maxUnsummarizedScan) = none)
    (summarise : String → Option String) :
    condenseHistory cfg db u epoch summarise =
      ((s, db.messages.messagesSince u upTo maxUnsummarizedScan), db) := by
  simp only [condenseHistory, if_neg (not_lt.mpr hb), hmark, hplan]

theorem condenseHistory_cut (hb : 0 ≤ cfg.summaryCharBudget)
    (hmark : watermark db u epoch = (s, upTo))
    (hplan : condensePlan cfg.summaryCharBudget
      (db.messages.messagesSince u upTo maxUnsummarizedScan) = some (foldable, recent))
    (summarise : String → Option String) :
    condenseHistory cfg db u epoch summarise =
      if summaryText (summarise (summaryPrompt s foldable)) = "" then ((s, recent), db)
      else ((summaryText (summarise (summaryPrompt s foldable)), recent),
        db.putSessionSummary u epoch (summaryText (summarise (summaryPrompt s foldable)))
          ((foldable.getLast?.map (·.id)).getD 0)) := by
  simp only [condenseHistory, if_neg (not_lt.mpr hb), hmark, hplan]

end CondenseHistory

/-- The turns that a condensation sees are the first ones after the watermark; it returns the
end of these, at least six of them. -/
theorem condenseHistory_window {cfg : AgentConfig} (hb : 0 ≤ cfg.summaryCharBudget) (db : Store)
    (u : UserId) (epoch : ℕ) (summarise : String → Option String) :
    let window := (condenseHistory cfg db u epoch summarise).1.2
    let tail := (db.messages.chatSince u (watermark db u epoch).2).take 400
    window <:+ tail ∧ min summaryKeepRecent tail.length ≤ window.length := by
  intro window tail
  have htail : db.messages.messagesSince u (watermark db u epoch).2 maxUnsummarizedScan = tail :=
    rfl
  have hcut : window = tail ∨
      ∃ foldable, condensePlan cfg.summaryCharBudget tail = some (foldable, window) := by
    dsimp only [window]
    cases hplan : condensePlan cfg.summaryCharBudget tail with
    | none =>
      rw [condenseHistory_fits hb rfl hplan]
      exact .inl htail
    | some cut =>
      refine .inr ⟨cut.1, ?_⟩
      rw [condenseHistory_cut hb rfl hplan]
      split_ifs <;> rfl
  rcases hcut with h | ⟨foldable, hplan⟩
  · rw [h]
    exact ⟨List.suffix_rfl, min_le_right _ _⟩
  · obtain ⟨happ, -, hlen⟩ := condensePlan_some hplan
    rw [hlen]
    exact ⟨⟨foldable, happ⟩, min_le_left _ _⟩

/-- In a list sorted by id, a nonempty beginning that ends like the list is all of it. -/
theorem length_le_of_getLast?_take {l : List Message} (hs : l.Pairwise (·.id < ·.id)) {n : ℕ}
    (hn : 0 < n) (h : (l.take n).getLast? = l.getLast?) : l.length ≤ n := by
  by_contra hlt
  rw [not_le] at hlt
  have hdrop : l.drop n ≠ [] := by simpa using hlt
  have htake : l.take n ≠ [] := List.ne_nil_of_length_pos (by rw [List.length_take]; omega)
  have hlast : l.getLast? = (l.drop n).getLast? := by
    rw [List.getLast?_drop, if_neg (not_le.mpr hlt)]
  rw [hlast, List.getLast?_eq_some_getLast htake, List.getLast?_eq_some_getLast hdrop,
    Option.some.injEq] at h
  rw [← List.take_append_drop n l] at hs
  have := (List.pairwise_append.mp hs).2.2 _ (List.getLast_mem htake) _ (List.getLast_mem hdrop)
  rw [h] at this
  exact lt_irrefl _ this

theorem getLast?_of_suffix {α : Type*} {a b : List α} (h : a <:+ b) (hne : a ≠ []) :
    b.getLast? = a.getLast? := by
  obtain ⟨c, rfl⟩ := h
  exact List.getLast?_append_of_ne_nil c hne

/-- More turns after the watermark than one scan reads, and the newest one is lost. -/
theorem condenseHistory_loses_newest {w : World} {cfg : AgentConfig}
    (hb : 0 ≤ cfg.summaryCharBudget) {u : UserId} {epoch : ℕ} {s : String} {upTo : ℕ}
    (hmark : watermark w.db u epoch = (s, upTo)) (hle : epoch ≤ upTo)
    (hmany : 400 < (w.db.messages.chatSince u upTo).length) (summarise : String → Option String) :
    ¬ (condenseHistory cfg w.db u epoch summarise).1.2 <:+ w.db.messages.chatSince u epoch := by
  intro hsuf
  obtain ⟨hwin, hlen⟩ := condenseHistory_window hb w.db u epoch summarise
  simp only [hmark] at hwin hlen
  have hne : (condenseHistory cfg w.db u epoch summarise).1.2 ≠ [] := by
    apply List.ne_nil_of_length_pos
    refine lt_of_lt_of_le ?_ hlen
    rw [List.length_take, summaryKeepRecent]
    omega
  have hsince : w.db.messages.chatSince u upTo <:+ w.db.messages.chatSince u epoch :=
    ⟨_, Messages.chatBetween_append_chatSince hle⟩
  have hpos : w.db.messages.chatSince u upTo ≠ [] :=
    List.ne_nil_of_length_pos (lt_trans (by decide) hmany)
  -- the scan ends before the newest turn, the session with it
  have hlast := (getLast?_of_suffix hwin hne).trans (getLast?_of_suffix hsuf hne).symm
  rw [getLast?_of_suffix hsince hpos] at hlast
  exact absurd (length_le_of_getLast?_take (Messages.chatSince_sorted _ u upTo) (by decide) hlast)
    (not_le.mpr hmany)

/-- From the reply of the model on, a turn left to itself stores the summary and runs with it. -/
theorem summarised_alone {w : World} {i : ℕ} {t : Turn} {prev : String} {foldable recent : List Message}
    (ht : w.turns i = some t) (hpc : t.pc = .summarising prev foldable recent)
    (reply : Option String) :
    let result := if summaryText reply = "" then ((prev, recent), w.db)
      else ((summaryText reply, recent), w.db.putSessionSummary t.userId t.epoch
        (summaryText reply) ((foldable.getLast?.map (·.id)).getD 0))
    ∃ es w', run step w es = some w' ∧ w'.db = result.2 ∧
      ∀ j, w'.turns j =
        if j = i then some { t with pc := .running result.1.1 result.1.2 } else w.turns j := by
  by_cases hreply : summaryText reply = ""
  · -- a failed summary leaves the store as it was
    have hend := step_of_moves (.declined ht hpc hreply)
    simp only [if_pos hreply]
    exact ⟨[.summarised i reply], _, run_cons_some.mpr ⟨_, hend, rfl⟩, rfl,
      fun j => setTurn_turns w i j _⟩
  · have hnext := step_of_moves (.condensed ht hpc hreply)
    have hstore := step_of_moves (.stored
      (w := { w.setTurn i
          { t with
            pc := .storing (summaryText reply) ((foldable.getLast?.map (·.id)).getD 0) recent }
        with asked := w.asked ++ [(summaryPrompt prev foldable, reply)] })
      ((setTurn_turns w i i _).trans (if_pos rfl)) rfl)
    simp only [if_neg hreply]
    refine ⟨[.summarised i reply, .advance i], _,
      run_cons_some.mpr ⟨_, hnext, run_cons_some.mpr ⟨_, hstore, rfl⟩⟩, rfl, ?_⟩
    intro j
    change Function.update (Function.update w.turns i _) i _ j = _
    rw [Function.update_idem, Function.update_apply]

/-- A turn left to itself condenses as `condenseHistory` does. -/
theorem condenses_alone {w : World} {i : ℕ} {t : Turn} (ht : w.turns i = some t)
    (hpc : t.pc = .condensing) (summarise : String → Option String) :
    let result := condenseHistory t.cfg w.db t.userId t.epoch summarise
    ∃ es w', run step w es = some w' ∧ w'.db = result.2 ∧
      ∀ j, w'.turns j =
        if j = i then some { t with pc := .running result.1.1 result.1.2 } else w.turns j := by
  intro result
  have hat : ∀ t', (w.setTurn i t').turns i = some t' := fun t' => by
    rw [setTurn_turns, if_pos rfl]
  -- without a budget nothing is condensed; else the tail fits, or it is cut and summarised
  rcases lt_or_ge t.cfg.summaryCharBudget 0 with hb | hb
  · have hresult : result =
        (("", w.db.messages.recentMessages t.userId t.cfg.historyDepth), w.db) := if_pos hb
    rw [hresult]
    refine ⟨[.advance i], _, run_cons_some.mpr ⟨_, step_of_moves (.recent ht hpc hb), rfl⟩, rfl, ?_⟩
    exact fun j => setTurn_turns w i j _
  rcases hmark : watermark w.db t.userId t.epoch with ⟨s, upTo⟩
  have hscan := step_of_moves (.watermark ht hpc hb hmark)
  cases hplan : condensePlan t.cfg.summaryCharBudget (t.tail w.db upTo) with
  | none =>
    have hresult : result = ((s, t.tail w.db upTo), w.db) :=
      condenseHistory_fits hb hmark hplan summarise
    have hfits := step_of_moves (.fits (hat { t with pc := .scanning s upTo }) rfl hplan)
    rw [setTurn_setTurn] at hfits
    rw [hresult]
    refine ⟨[.advance i, .advance i], _,
      run_cons_some.mpr ⟨_, hscan, run_cons_some.mpr ⟨_, hfits, rfl⟩⟩, rfl, ?_⟩
    exact fun j => setTurn_turns w i j _
  | some cut =>
    obtain ⟨foldable, recent⟩ := cut
    have hcut := step_of_moves (.cut (hat { t with pc := .scanning s upTo }) rfl hplan)
    rw [setTurn_setTurn] at hcut
    obtain ⟨es, w', hrun, hdb, hturns⟩ := summarised_alone
      (hat { t with pc := .summarising s foldable recent }) rfl (summarise (summaryPrompt s foldable))
    have hresult : result = _ := condenseHistory_cut hb hmark hplan summarise
    rw [hresult]
    refine ⟨.advance i :: .advance i :: es, w',
      run_cons_some.mpr ⟨_, hscan, run_cons_some.mpr ⟨_, hcut, hrun⟩⟩, hdb, ?_⟩
    intro j
    rw [hturns, setTurn_turns]
    split_ifs <;> rfl

/-- After `n` short exchanges of one user nothing has been summarised. -/
structure Chatted (n : ℕ) (w : World) : Prop where
  reachable : Reachable step World.init w
  fresh : ∀ j, n ≤ j → w.turns j = none
  noSummary : w.db.sessionSummary = Dict.empty
  noBoundary : w.db.messages.sessionEpoch 1 = 0
  length : (w.db.messages.chatSince 1 0).length = 2 * n
  short : ∀ m ∈ w.db.messages.chatSince 1 0, m.content.length = 1

theorem sum_short {tail : List Message} (hshort : ∀ m ∈ tail, m.content.length = 1) :
    (tail.map fun m => (m.content.length : ℤ)).sum = tail.length := by
  rw [List.map_congr_left (g := fun _ => (1 : ℤ)) (by
    intro m hm
    rw [hshort m hm, Nat.cast_one])]
  simp

theorem condensePlan_short {tail : List Message} (hlen : tail.length ≤ 400)
    (hshort : ∀ m ∈ tail, m.content.length = 1) : condensePlan 300000 tail = none := by
  have hfit : (tail.map fun m => (m.content.length : ℤ)).sum ≤ 300000 := by
    rw [sum_short hshort]
    omega
  exact if_pos (.inl hfit)

def exchange (n : ℕ) : List Event :=
  [.begin n 1 {} "?" false, .advance n, .advance n, .advance n, .ran n (.answer "!"),
    .advance n, .advance n]

theorem Chatted.run_exchange {n : ℕ} {w : World} (h : Chatted n w) :
    ∃ w', run step w (exchange n) = some w' ∧
      w'.db = (w.db.appendMessage 1 .user "?").appendMessage 1 .assistant "!" ∧
        ∀ j, n + 1 ≤ j → w'.turns j = none := by
  have hnew := h.fresh n le_rfl
  have hmark : watermark w.db 1 0 = ("", 0) := by
    simp [watermark, Store.getSessionSummary, h.noSummary]
  have hplan : condensePlan 300000 (w.db.messages.messagesSince 1 0 400) = none :=
    condensePlan_short (List.length_take_le _ _) fun m hm => h.short m (List.mem_of_mem_take hm)
  have hstrip : PyText.strip "!" = "!" := by decide
  simp [exchange, run_cons, step, hnew, World.advance, World.ran, setTurn_turns, h.noBoundary,
    hmark, maxUnsummarizedScan, hplan, Turn.pending, Turn.stored, Turn.persist, hstrip]
  intro j hj
  have hne : j ≠ n := by omega
  simp [hne, h.fresh j (by omega)]

theorem Chatted.next {n : ℕ} {w : World} (h : Chatted n w) : ∃ w', Chatted (n + 1) w' := by
  obtain ⟨w', hrun, hdb, hfresh⟩ := h.run_exchange
  have hturns : w'.db.messages.chatSince 1 0 = w.db.messages.chatSince 1 0 ++
      [⟨w.db.messages.lastId + 1, .user, "?"⟩] ++
        [⟨w.db.messages.lastId + 2, .assistant, "!"⟩] := by
    rw [hdb]
    simp [Store.appendMessage, Messages.chatSince_append, Messages.lastId_append]
  refine ⟨w', h.reachable.run hrun, hfresh, ?_, ?_, ?_, ?_⟩
  · rw [hdb]
    exact h.noSummary
  · rw [hdb, Store.appendMessage, Messages.sessionEpoch_append_of_ne (by decide),
      Store.appendMessage, Messages.sessionEpoch_append_of_ne (by decide), h.noBoundary]
  · rw [hturns, List.length_append, List.length_append, h.length]
    rfl
  · intro m hm
    rw [hturns, List.append_assoc, List.mem_append] at hm
    rcases hm with hm | hm
    · exact h.short m hm
    · simp only [List.cons_append, List.nil_append, List.mem_cons, List.not_mem_nil,
        or_false] at hm
      rcases hm with rfl | rfl
      · exact (by decide : "?".length = 1)
      · exact (by decide : "!".length = 1)

theorem exists_chatted (n : ℕ) : ∃ w, Chatted n w := by
  induction n with
  | zero => exact ⟨World.init, Reachable.refl, fun _ _ => rfl, rfl, rfl, rfl, fun _ hm => (by cases hm)⟩
  | succ n ih =>
    obtain ⟨w, hw⟩ := ih
    exact hw.next

/-- What the model is given as history ends with the newest turn of the session, and has six of
its turns or all, exactly when one scan reads everything after the watermark. -/
theorem condensed_history_suffix_iff {w : World} (hw : Reachable step World.init w) (u : UserId)
    (cfg : AgentConfig) (hb : 0 ≤ cfg.summaryCharBudget) (summarise : String → Option String) :
    let epoch := w.db.messages.sessionEpoch u
    let session := w.db.messages.chatSince u epoch
    let window := (condenseHistory cfg w.db u epoch summarise).1.2
    (window <:+ session ∧ min 6 session.length ≤ window.length) ↔
      (w.db.messages.chatSince u (watermark w.db u epoch).2).length ≤ 400 := by
  intro epoch session window
  rcases hmark : watermark w.db u epoch with ⟨s, upTo⟩
  obtain ⟨hcov, hkeep⟩ := watermark_marks (inv_of_reachable hw)
    (Messages.sessionEpoch_le_lastId _ u) hmark
  have hsince : w.db.messages.chatSince u upTo <:+ session :=
    ⟨_, Messages.chatBetween_append_chatSince hcov.epoch_le⟩
  refine ⟨?_, ?_⟩
  · intro h
    by_contra hmany
    exact condenseHistory_loses_newest hb hmark hcov.epoch_le (not_le.mp hmany) summarise h.1
  · intro hfew
    obtain ⟨hwin, hlen⟩ := condenseHistory_window hb w.db u epoch summarise
    simp only [hmark, List.take_of_length_le hfew] at hwin hlen
    refine ⟨hwin.trans hsince, le_trans ?_ hlen⟩
    -- before the first fold the watermark is the boundary, later six turns are after it
    rcases hkeep with rfl | hkeep
    · exact le_rfl
    · rw [min_eq_left hkeep]
      exact min_le_left _ _

/-- Ten short exchanges with a budget of ten characters: fourteen turns are folded into a summary, and
the model is given the last six. -/
theorem tenExchanges_keep_six : ∃ w, Reachable step World.init w ∧
    let session := w.db.messages.chatSince 1 (w.db.messages.sessionEpoch 1)
    let window := (condenseHistory { summaryCharBudget := 10 } w.db 1 (w.db.messages.sessionEpoch 1)
      fun _ => some "привет").1.2
    session.length = 20 ∧ window.length = 6 ∧ window <:+ session := by
  obtain ⟨w, hw⟩ := exists_chatted 10
  have hmark : watermark w.db 1 0 = ("", 0) := by
    simp [watermark, Store.getSessionSummary, hw.noSummary]
  have hwindow := condensed_history_suffix_iff hw.reachable 1 { summaryCharBudget := 10 } (by decide)
    fun _ => some "привет"
  simp only [hw.noBoundary, hmark, hw.length] at hwindow ⊢
  refine ⟨w, hw.reachable, ?_⟩
  rw [hw.noBoundary]
  refine ⟨hw.length, ?_, (hwindow.mpr (by decide)).1⟩
  -- the turns are over the budget, so they are split
  have hall : w.db.messages.messagesSince 1 0 maxUnsummarizedScan = w.db.messages.chatSince 1 0 :=
    List.take_of_length_le (by rw [hw.length]; decide)
  have hover : ¬ (((w.db.messages.chatSince 1 0).map fun m => (m.content.length : ℤ)).sum ≤ 10 ∨
      (w.db.messages.chatSince 1 0).length ≤ summaryKeepRecent) := by
    rw [sum_short hw.short, hw.length]
    decide
  obtain ⟨foldable, recent, hplan⟩ : ∃ foldable recent,
      condensePlan 10 (w.db.messages.messagesSince 1 0 maxUnsummarizedScan) = some (foldable, recent) := by
    rw [hall]
    exact ⟨_, _, if_neg hover⟩
  rw [condenseHistory_cut (by decide) hmark hplan]
  split_ifs <;> exact (condensePlan_some hplan).2.2

/-- After 201 short exchanges the model no longer sees the last one. -/
theorem long_session_loses_newest : ∃ w, Reachable step World.init w ∧
    ¬ (condenseHistory {} w.db 1 (w.db.messages.sessionEpoch 1) fun _ => none).1.2 <:+
      w.db.messages.chatSince 1 (w.db.messages.sessionEpoch 1) := by
  obtain ⟨w, hw⟩ := exists_chatted 201
  have hmark : watermark w.db 1 0 = ("", 0) := by
    simp [watermark, Store.getSessionSummary, hw.noSummary]
  refine ⟨w, hw.reachable, ?_⟩
  rw [hw.noBoundary]
  exact condenseHistory_loses_newest (by decide) hmark le_rfl (by rw [hw.length]; decide) _

end Chic.Dialog
