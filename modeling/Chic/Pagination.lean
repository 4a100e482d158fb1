import Mathlib.Algebra.Order.Group.Nat
import Mathlib.Tactic.Common
import Mathlib.Tactic.SplitIfs
import Chic.Reports
import Chic.While

namespace Chic.Pagination

/-- What `_paginate` reads of a collection envelope: `meta.size` and `rows`. -/
structure ListResponse (T : Type*) where
  size : ℤ
  rows : List T

def defaultPageLimit : ℕ := 1000

/-- The constructor replaces a page limit that is not positive by the default. -/
structure MoyskladClient where
  pageLimit : ℕ
  pageLimit_pos : 0 < pageLimit

def MoyskladClient.new (pageLimit : ℤ) : MoyskladClient where
  pageLimit := if 0 < pageLimit then pageLimit.toNat else defaultPageLimit
  pageLimit_pos := by
    unfold defaultPageLimit
    split_ifs <;> omega

/-- The two locals that `_paginate` carries round its `while True`. -/
structure PageState (T : Type*) where
  rows : List T
  offset : ℕ

section
variable {T ε : Type*}

/-- One round of `_paginate`; `request p o` is `parse(await self._do_get(..))` with
`limit = p` and `offset = o`, and an error it raises leaves the loop. -/
def paginateBody (request : ℕ → ℕ → Except ε (ListResponse T)) (pageSize : ℕ) (totalLimit : ℤ)
    (s : PageState T) : PageState T ⊕ Except ε (List T) :=
  match request pageSize s.offset with
  | .error e => .inr (.error e)
  | .ok page =>
    let rows := s.rows ++ page.rows
    if page.rows.length < pageSize then .inr (.ok rows)
    else if 0 < totalLimit ∧ totalLimit ≤ rows.length then
      .inr (.ok (rows.take totalLimit.toNat))
    else
      let offset := s.offset + pageSize
      if 0 < page.size ∧ page.size ≤ offset then .inr (.ok rows) else .inl ⟨rows, offset⟩

/-- `page_size or self._page_limit`, shrunk to a smaller positive total limit. -/
def MoyskladClient.pageSize (client : MoyskladClient) (pageSize : Option ℕ) (totalLimit : ℤ) : ℕ :=
  let p := (pageSize.filter (· ≠ 0)).getD client.pageLimit
  if 0 < totalLimit ∧ totalLimit < p then totalLimit.toNat else p

def MoyskladClient.Paginates (client : MoyskladClient)
    (request : ℕ → ℕ → Except ε (ListResponse T)) (totalLimit : ℤ) (pageSize : Option ℕ)
    (result : Except ε (List T)) : Prop :=
  While.Returns (paginateBody request (client.pageSize pageSize totalLimit) totalLimit)
    ⟨[], 0⟩ result

/-- The `/audit` endpoint caps its pages at 100 rows. -/
def MoyskladClient.GetAudit (client : MoyskladClient)
    (request : ℕ → ℕ → Except ε (ListResponse T)) (limit : ℤ) (result : Except ε (List T)) : Prop :=
  client.Paginates request limit (some (min client.pageLimit 100)) result

theorem MoyskladClient.pageSize_pos (client : MoyskladClient) (pageSize : Option ℕ)
    (totalLimit : ℤ) : 0 < client.pageSize pageSize totalLimit := by
  have hp : 0 < (pageSize.filter (· ≠ 0)).getD client.pageLimit := by
    cases hf : pageSize.filter (· ≠ 0) with
    | none => exact client.pageLimit_pos
    | some p =>
      obtain ⟨-, hne⟩ := Option.filter_eq_some_iff.mp hf
      exact Nat.pos_of_ne_zero (by simpa using hne)
  simp only [MoyskladClient.pageSize]
  split_ifs <;> omega

end

/-- A finite server-side list: `limit = p, offset = o` is answered by `rows[o : o+p]`, and
`meta.size` is the length of the list or 0, as it likes. -/
structure Server (T : Type*) where
  rows : List T
  size : ℕ → ℕ → ℤ
  size_eq : ∀ p o, size p o = rows.length ∨ size p o = 0

section
variable {T ε : Type*}

def Server.answer (srv : Server T) (p o : ℕ) : Except ε (ListResponse T) :=
  .ok { size := srv.size p o, rows := (srv.rows.drop o).take p }

def requested (rows : List T) (totalLimit : ℤ) : List T :=
  if totalLimit ≤ 0 then rows else rows.take totalLimit.toNat

/-- What `_paginate` delivers: the limit cuts only on a full page. -/
def delivered (rows : List T) (pageSize : ℕ) (totalLimit : ℤ) : List T :=
  if 0 < totalLimit ∧ totalLimit ≤ pageSize * (rows.length / pageSize) then
    rows.take totalLimit.toNat
  else rows

/-- The loop invariant: whole pages are read, all of them inside the list, and the limit is
not reached yet. -/
structure Reading (rows : List T) (pageSize : ℕ) (totalLimit : ℤ) (s : PageState T) : Prop where
  rows_eq : s.rows = rows.take s.offset
  offset_le : s.offset ≤ rows.length
  offset_dvd : pageSize ∣ s.offset
  limit_lt : 0 < totalLimit → s.offset < totalLimit

theorem take_append_page (rows : List T) (o p : ℕ) :
    rows.take o ++ (rows.drop o).take p = rows.take (o + p) := by
  rw [List.take_add]

theorem lastPage_eq {n o p : ℕ} (hdvd : p ∣ o) (hle : o ≤ n) (hlt : n < o + p) :
    p * (n / p) = o := by
  obtain ⟨k, rfl⟩ := hdvd
  have hk : n / p = k := by
    apply Nat.div_eq_of_lt_le
    · rwa [Nat.mul_comm]
    · rwa [Nat.succ_mul, Nat.mul_comm]
  rw [hk]

theorem le_lastPage {n o p : ℕ} (hp : 0 < p) (hdvd : p ∣ o) (hle : o ≤ n) :
    o ≤ p * (n / p) := by
  obtain ⟨k, rfl⟩ := hdvd
  have hk : k ≤ n / p := (Nat.le_div_iff_mul_le hp).mpr (by rwa [Nat.mul_comm])
  exact Nat.mul_le_mul_left p hk

/-- Every way out of the loop delivers the same list. -/
theorem Reading.stop {srv : Server T} {p : ℕ} {t : ℤ} (hp : 0 < p) {s : PageState T}
    (hs : Reading srv.rows p t s) {r : Except ε (List T)}
    (hbody : paginateBody srv.answer p t s = .inr r) : r = .ok (delivered srv.rows p t) := by
  obtain ⟨hrows, hle, hdvd, hlim⟩ := hs
  have hlen : ((srv.rows.drop s.offset).take p).length = min p (srv.rows.length - s.offset) := by
    rw [List.length_take, List.length_drop]
  simp only [paginateBody, Server.answer, hrows, take_append_page, hlen] at hbody
  split_ifs at hbody with hshort hlimit hsize
  · -- a short page: the list is exhausted before the limit is
    have hlast := lastPage_eq hdvd hle (by omega : srv.rows.length < s.offset + p)
    have hcut : ¬ (0 < t ∧ t ≤ p * (srv.rows.length / p)) := by
      rintro ⟨ht, htle⟩
      have := hlim ht
      have : ((p * (srv.rows.length / p) : ℕ) : ℤ) = s.offset := by rw [hlast]
      push_cast at this
      omega
    cases hbody
    rw [delivered, if_neg hcut, List.take_of_length_le (by omega)]
  · -- the limit was reached on a full page
    have hfull : s.offset + p ≤ p * (srv.rows.length / p) :=
      le_lastPage hp (Nat.dvd_add hdvd (Nat.dvd_refl p)) (by omega)
    obtain ⟨ht, htle⟩ := hlimit
    rw [List.length_take] at htle
    have hcut : 0 < t ∧ t ≤ p * (srv.rows.length / p) := by
      refine ⟨ht, ?_⟩
      have : ((s.offset + p : ℕ) : ℤ) ≤ ((p * (srv.rows.length / p) : ℕ) : ℤ) := by
        exact_mod_cast hfull
      push_cast at this
      omega
    cases hbody
    rw [delivered, if_pos hcut, List.take_take]
    congr 2
    omega
  · -- `meta.size` says that the page just read was the last one
    obtain ⟨hpos, hend⟩ := hsize
    have hall : srv.rows.length = s.offset + p := by
      rcases srv.size_eq p s.offset with h | h <;> push_cast at hend <;> omega
    have hlast : p * (srv.rows.length / p) = s.offset + p :=
      lastPage_eq (Nat.dvd_add hdvd (Nat.dvd_refl p)) (by omega) (by omega)
    have hcut : ¬ (0 < t ∧ t ≤ p * (srv.rows.length / p)) := by
      rintro ⟨ht, htle⟩
      have : ((p * (srv.rows.length / p) : ℕ) : ℤ) = (s.offset + p : ℕ) := by rw [hlast]
      push_cast at this
      rw [List.length_take] at hlimit
      omega
    cases hbody
    rw [delivered, if_neg hcut, List.take_of_length_le (by omega)]

/-- A round that goes on has read one more full page. -/
theorem Reading.again {srv : Server T} {p : ℕ} {t : ℤ} (hp : 0 < p) {s s' : PageState T}
    (hs : Reading srv.rows p t s)
    (hbody : paginateBody (ε := ε) srv.answer p t s = .inl s') :
    Reading srv.rows p t s' ∧
      srv.rows.length - s'.offset < srv.rows.length - s.offset := by
  obtain ⟨hrows, hle, hdvd, hlim⟩ := hs
  have hlen : ((srv.rows.drop s.offset).take p).length = min p (srv.rows.length - s.offset) := by
    rw [List.length_take, List.length_drop]
  simp only [paginateBody, Server.answer, hrows, take_append_page, hlen] at hbody
  split_ifs at hbody with hshort hlimit hsize
  cases hbody
  refine ⟨⟨rfl, by dsimp only; omega, Nat.dvd_add hdvd (Nat.dvd_refl p), ?_⟩, by dsimp only; omega⟩
  intro ht
  rw [List.length_take] at hlimit
  push_cast
  omega

/-- The loop terminates for every page size and every limit. -/
theorem paginates_delivered (client : MoyskladClient) (srv : Server T) (totalLimit : ℤ)
    (pageSize : Option ℕ) :
    client.Paginates (ε := ε) srv.answer totalLimit pageSize
      (.ok (delivered srv.rows (client.pageSize pageSize totalLimit) totalLimit)) := by
  have hp := client.pageSize_pos pageSize totalLimit
  apply While.returns_of_variant_eq (Reading srv.rows (client.pageSize pageSize totalLimit)
    totalLimit) _ (fun s => srv.rows.length - s.offset)
  · intro s s' hs hbody
    exact hs.again hp hbody
  · intro s r hs hbody
    exact hs.stop hp hbody
  · exact ⟨by simp, by simp, Nat.dvd_zero _, by simp⟩

/-- The short last page lies beyond the limit, or there is nothing to cut. -/
def CutsOnFullPage (n : ℕ) (pageSize : ℕ) (totalLimit : ℤ) : Prop :=
  totalLimit ≤ 0 ∨ n ≤ totalLimit ∨ totalLimit ≤ pageSize * (n / pageSize)

theorem delivered_eq_requested_iff (rows : List T) (p : ℕ) (t : ℤ) :
    delivered rows p t = requested rows t ↔ CutsOnFullPage rows.length p t := by
  unfold delivered requested CutsOnFullPage
  split_ifs with hcut ht ht
  · omega
  · simp only [true_iff]
    exact .inr (.inr hcut.2)
  · simp only [true_iff]
    exact .inl ht
  · rw [eq_comm]
    constructor
    · intro h
      have hlen := congrArg List.length h
      rw [List.length_take] at hlen
      omega
    · intro h
      exact List.take_of_length_le (by omega)

theorem length_delivered_le_iff (rows : List T) (p : ℕ) {t : ℤ} (ht : 0 < t) :
    ((delivered rows p t).length : ℤ) ≤ t ↔ CutsOnFullPage rows.length p t := by
  unfold delivered CutsOnFullPage
  split_ifs with hcut
  · rw [List.length_take]
    omega
  · omega

/-- Pagination always returns, and it returns what was asked for exactly when the limit cuts on
a full page; the audit log keeps to its limit under the same condition. -/
theorem paginate_exact_iff (client : MoyskladClient) (srv : Server T) :
    (∀ (totalLimit : ℤ) (pageSize : Option ℕ),
      (∃ rows, client.Paginates (ε := ε) srv.answer totalLimit pageSize (.ok rows)) ∧
      (client.Paginates (ε := ε) srv.answer totalLimit pageSize
          (.ok (requested srv.rows totalLimit)) ↔
        CutsOnFullPage srv.rows.length (client.pageSize pageSize totalLimit) totalLimit)) ∧
    (∀ limit : ℤ,
      (∃ rows, client.GetAudit (ε := ε) srv.answer (clampLimit limit) (.ok rows) ∧
          (rows.length : ℤ) ≤ clampLimit limit) ↔
        CutsOnFullPage srv.rows.length
          (client.pageSize (some (min client.pageLimit 100)) (clampLimit limit))
          (clampLimit limit)) := by
  constructor
  · intro t ps
    have hd := paginates_delivered (ε := ε) client srv t ps
    refine ⟨⟨_, hd⟩, ?_⟩
    rw [← delivered_eq_requested_iff]
    constructor
    · intro h
      exact Except.ok.inj (hd.unique h)
    · intro h
      rwa [h] at hd
  · intro limit
    have hpos : 0 < clampLimit limit := (clampLimit_mem limit).1
    have hd := paginates_delivered (ε := ε) client srv (clampLimit limit)
      (some (min client.pageLimit 100))
    rw [← length_delivered_le_iff srv.rows _ hpos]
    constructor
    · rintro ⟨rows, hrows, hlen⟩
      cases hrows.unique hd
      exact hlen
    · intro h
      exact ⟨_, hd, h⟩

end

/-- 180 audit rows, as a server that reports the size of the list would page them. -/
def auditLog : Server ℕ where
  rows := List.range 180
  size _ _ := 180
  size_eq _ _ := .inl rfl

/-- Asked for 150 audit rows, the client returns all 180: the second page is short. -/
theorem getAudit_overruns :
    (MoyskladClient.new 1000).GetAudit (ε := Unit) auditLog.answer (clampLimit 150)
      (.ok auditLog.rows) ∧ ¬ (auditLog.rows.length : ℤ) ≤ clampLimit 150 := by
  have hn : auditLog.rows.length = 180 := List.length_range
  have hp : (MoyskladClient.new 1000).pageSize (some 100) (clampLimit 150) = 100 := by decide
  have hd := paginates_delivered (ε := Unit) (MoyskladClient.new 1000) auditLog (clampLimit 150)
    (some 100)
  have hcut : ¬ (0 < clampLimit 150 ∧ clampLimit 150 ≤ (100 : ℕ) * ((180 : ℕ) / (100 : ℕ) : ℤ)) := by
    decide
  rw [delivered, hp, hn, if_neg hcut] at hd
  refine ⟨hd, ?_⟩
  rw [hn]
  decide

end Chic.Pagination
