import Chic.AppDb

namespace Chic.AppDb.Messages

variable {m : Messages} {u u' : UserId} {role : Role} {content : String}

theorem lastId_append : (m.append u role content).lastId = m.lastId + 1 := by
  simp [lastId, append]

def rowsOf (m : Messages) (u : UserId) : List MessageRow := m.rows.filter (·.userId = u)

theorem rowsOf_append (m : Messages) (u v : UserId) (role : Role) (content : String) :
    rowsOf (m.append u role content) v =
      rowsOf m v ++ if v = u then [⟨m.lastId + 1, u, role, content⟩] else [] := by
  unfold rowsOf append
  rw [List.filter_append]
  by_cases huv : v = u
  · simp [huv]
  · simp [huv, Ne.symm huv]

/-- A row of a longer table, and who is noted as its author when the new row gets one. -/
theorem author_append {author : ℕ → Option ℕ} {i : Option ℕ} {r : MessageRow}
    (hr : r ∈ (m.append u role content).rows) :
    (r ∈ m.rows ∧ Function.update author (m.lastId + 1) i r.id = author r.id) ∨
      (r = ⟨m.lastId + 1, u, role, content⟩ ∧
        Function.update author (m.lastId + 1) i r.id = i) := by
  rcases List.mem_append.mp hr with hr | hr
  · have hid := m.le_lastId hr
    exact .inl ⟨hr, Function.update_of_ne (by omega) _ _⟩
  · rw [List.mem_singleton] at hr
    subst hr
    exact .inr ⟨rfl, Function.update_self _ _ _⟩

theorem sessionEpoch_eq (m : Messages) (u : UserId) :
    m.sessionEpoch u = 0 ∨
      ∃ r ∈ m.rows, r.userId = u ∧ r.role = .reset ∧ r.id = m.sessionEpoch u := by
  unfold sessionEpoch
  cases h : ((m.rows.filter fun r => r.userId = u ∧ r.role = .reset).map (·.id)).max? with
  | none => exact .inl rfl
  | some e =>
    obtain ⟨r, hr, rfl⟩ := List.mem_map.mp (List.max?_eq_some_iff.mp h).1
    obtain ⟨hmem, hr⟩ := List.mem_filter.mp hr
    obtain ⟨hu, hrole⟩ := of_decide_eq_true hr
    exact .inr ⟨r, hmem, hu, hrole, rfl⟩

theorem sessionEpoch_le_lastId (m : Messages) (u : UserId) : m.sessionEpoch u ≤ m.lastId := by
  rcases sessionEpoch_eq m u with h | ⟨r, hr, -, -, hid⟩
  · omega
  · exact hid ▸ m.le_lastId hr

theorem le_sessionEpoch (m : Messages) {r : MessageRow} (hr : r ∈ m.rows) (hu : r.userId = u)
    (hrole : r.role = .reset) : r.id ≤ m.sessionEpoch u := by
  have hmem : r.id ∈ (m.rows.filter fun r => r.userId = u ∧ r.role = .reset).map (·.id) :=
    List.mem_map.mpr ⟨r, List.mem_filter.mpr ⟨hr, by simp [hu, hrole]⟩, rfl⟩
  unfold sessionEpoch
  cases h : ((m.rows.filter fun r => r.userId = u ∧ r.role = .reset).map (·.id)).max? with
  | none =>
    rw [List.max?_eq_none_iff.mp h] at hmem
    cases hmem
  | some e => exact (List.max?_eq_some_iff.mp h).2 _ hmem

theorem sessionEpoch_append_reset : (m.append u .reset content).sessionEpoch u = m.lastId + 1 := by
  apply le_antisymm
  · exact lastId_append ▸ sessionEpoch_le_lastId _ u
  · have h := le_sessionEpoch (m.append u .reset content)
      (List.mem_append_right _ (List.mem_singleton_self _)) rfl rfl
    exact h

theorem sessionEpoch_append_of_ne (h : ¬ (u' = u ∧ role = .reset)) :
    (m.append u' role content).sessionEpoch u = m.sessionEpoch u := by
  simp [sessionEpoch, append, List.filter_append, h]

theorem chatSince_append (since : ℕ) :
    (m.append u' role content).chatSince u since = m.chatSince u since ++
      if u' = u ∧ since ≤ m.lastId ∧ role ≠ .reset then [⟨m.lastId + 1, role, content⟩]
      else [] := by
  have hnew : since < m.lastId + 1 ↔ since ≤ m.lastId := Nat.lt_succ_iff
  unfold chatSince append
  rw [List.filter_append, List.map_append]
  congr 1
  simp only [List.filter_cons, List.filter_nil, decide_eq_true_iff, hnew]
  split_ifs <;> rfl

theorem chatSince_prefix_append (since : ℕ) :
    m.chatSince u since <+: (m.append u' role content).chatSince u since := by
  rw [chatSince_append]
  exact List.prefix_append _ _

theorem lt_of_mem_chatSince {since : ℕ} {x : Message} (hx : x ∈ m.chatSince u since) :
    since < x.id := by
  obtain ⟨r, hr, rfl⟩ := List.mem_map.mp hx
  exact (of_decide_eq_true (List.mem_filter.mp hr).2).2.1

theorem le_lastId_of_mem_chatSince {since : ℕ} {x : Message} (hx : x ∈ m.chatSince u since) :
    x.id ≤ m.lastId := by
  obtain ⟨r, hr, rfl⟩ := List.mem_map.mp hx
  exact m.le_lastId (List.mem_filter.mp hr).1

theorem chatSince_sorted (m : Messages) (u : UserId) (since : ℕ) :
    (m.chatSince u since).Pairwise (·.id < ·.id) :=
  List.pairwise_map.mpr (m.sorted.filter _)

theorem chatSince_filter {lo hi : ℕ} (h : lo ≤ hi) :
    (m.chatSince u lo).filter (fun x => hi < x.id) = m.chatSince u hi := by
  unfold chatSince
  rw [List.filter_map, List.filter_filter]
  congr 1
  apply List.filter_congr
  intro r _
  apply Bool.eq_iff_iff.mpr
  simp only [Function.comp_apply, MessageRow.message, Bool.and_eq_true, decide_eq_true_eq]
  constructor
  · rintro ⟨h1, h2, -, h3⟩
    exact ⟨h2, h1, h3⟩
  · rintro ⟨h1, h2, h3⟩
    exact ⟨h2, h1, by omega, h3⟩

/-- The user's turns with `lo < id ≤ hi`. -/
def chatBetween (m : Messages) (u : UserId) (lo hi : ℕ) : List Message :=
  (m.chatSince u lo).filter fun x => x.id ≤ hi

theorem chatBetween_self (m : Messages) (u : UserId) (k : ℕ) : m.chatBetween u k k = [] := by
  apply List.filter_eq_nil_iff.mpr
  intro x hx
  have := lt_of_mem_chatSince hx
  simp only [decide_eq_true_eq]
  omega

theorem chatBetween_append {lo hi : ℕ} (h : hi ≤ m.lastId) :
    (m.append u' role content).chatBetween u lo hi = m.chatBetween u lo hi := by
  unfold chatBetween
  rw [chatSince_append, List.filter_append]
  split_ifs
  · have hn : ¬ m.lastId + 1 ≤ hi := by omega
    simp [hn]
  · simp

theorem filter_le_append_filter_gt {l : List Message} (hs : l.Pairwise (·.id < ·.id)) (k : ℕ) :
    l.filter (fun x => x.id ≤ k) ++ l.filter (fun x => k < x.id) = l := by
  induction l with
  | nil => rfl
  | cons x l ih =>
    obtain ⟨hx, hs⟩ := List.pairwise_cons.mp hs
    by_cases h : x.id ≤ k
    · simp only [List.filter_cons, h, not_lt.mpr h, decide_true, decide_false, if_true,
        Bool.false_eq_true, if_false, List.cons_append]
      rw [ih hs]
    · -- nothing after `x` is smaller either
      have hnone : l.filter (fun y => y.id ≤ k) = [] := by
        apply List.filter_eq_nil_iff.mpr
        intro y hy
        have := hx y hy
        simp only [decide_eq_true_eq]
        omega
      have hall := ih hs
      rw [hnone, List.nil_append] at hall
      simp [h, not_le.mp h, hnone, hall]

/-- The last id of a prefix cuts a sorted list right after the prefix. -/
theorem sorted_split {f rest : List Message} (hs : (f ++ rest).Pairwise (·.id < ·.id))
    {last : Message} (hl : f.getLast? = some last) :
    (f ++ rest).filter (fun x => x.id ≤ last.id) = f ∧
      (f ++ rest).filter (fun x => last.id < x.id) = rest := by
  obtain ⟨init, rfl⟩ := List.getLast?_eq_some_iff.mp hl
  obtain ⟨hf, -, hlt⟩ := List.pairwise_append.mp hs
  have hgt : ∀ x ∈ rest, last.id < x.id := fun x hx =>
    hlt last (List.mem_append_right _ (List.mem_singleton_self _)) x hx
  have hle : ∀ x ∈ init ++ [last], x.id ≤ last.id := by
    intro x hx
    rcases List.mem_append.mp hx with hx | hx
    · exact ((List.pairwise_append.mp hf).2.2 x hx last (List.mem_singleton_self _)).le
    · rw [List.mem_singleton.mp hx]
  have h1 : rest.filter (fun x => x.id ≤ last.id) = [] := by
    apply List.filter_eq_nil_iff.mpr
    intro x hx
    simpa using hgt x hx
  have h2 : (init ++ [last]).filter (fun x => x.id ≤ last.id) = init ++ [last] := by
    apply List.filter_eq_self.mpr
    intro x hx
    simpa using hle x hx
  have hcut := filter_le_append_filter_gt hs last.id
  rw [List.filter_append, h1, h2, List.append_nil] at hcut ⊢
  exact ⟨rfl, List.append_cancel_left hcut⟩

theorem chatBetween_append_chatSince {lo mid : ℕ} (h : lo ≤ mid) :
    m.chatBetween u lo mid ++ m.chatSince u mid = m.chatSince u lo := by
  rw [← chatSince_filter h, chatBetween, filter_le_append_filter_gt (chatSince_sorted m u lo)]

theorem chatBetween_sorted (m : Messages) (u : UserId) (lo hi : ℕ) :
    (m.chatBetween u lo hi).Pairwise (·.id < ·.id) :=
  (chatSince_sorted m u lo).filter _

/-- Folding a prefix of the turns after `mid` moves the watermark to its last id: what is
covered grows by exactly the folded turns, and the rest remains. -/
theorem chat_fold {lo mid : ℕ} {f rest : List Message} {last : Message} (hlo : lo ≤ mid)
    (hl : f.getLast? = some last) (hsplit : m.chatSince u mid = f ++ rest) :
    m.chatBetween u lo last.id = m.chatBetween u lo mid ++ f ∧
      m.chatSince u last.id = rest ∧ mid < last.id ∧ last.id ≤ m.lastId := by
  have hmem : last ∈ m.chatSince u mid := by
    rw [hsplit]
    exact List.mem_append_left _ (List.mem_of_getLast? hl)
  have hmid := lt_of_mem_chatSince hmem
  obtain ⟨hf, hrest⟩ := sorted_split (hsplit ▸ chatSince_sorted m u mid) hl
  refine ⟨?_, ?_, hmid, le_lastId_of_mem_chatSince hmem⟩
  · rw [chatBetween, ← chatBetween_append_chatSince hlo, List.filter_append, hsplit, hf]
    congr 1
    apply List.filter_eq_self.mpr
    intro x hx
    have := of_decide_eq_true (List.mem_filter.mp hx).2
    simp only [decide_eq_true_eq]
    omega
  · rw [← chatSince_filter hmid.le, hsplit, hrest]

end Chic.AppDb.Messages
