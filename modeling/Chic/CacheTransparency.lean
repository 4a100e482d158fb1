import Chic.CacheMoves

namespace Chic.Cache

variable {Value : Values} {cl : Client Value}

def Stored.blob (cl : Client Value) (st : Stored Value) : ByteArray :=
  (cl.adapter st.answer.call.method).dumpJson st.answer.value

structure Stored.Serves (cl : Client Value) (st : Stored Value) (c : Call) (began : ℚ) : Prop where
  key : cl.key st.answer.call = cl.key c
  before : st.time ≤ began
  fresh : began < st.time + cl.ttl st.answer.call

/-- Where the value of a task comes from, as far as it has one. -/
def TaskSound (cl : Client Value) (w : World Value) (i : ℕ) : Task Value → Prop
  | ⟨c, began, .looking (some raw)⟩ =>
    0 < cl.ttl c ∧ ∃ st ∈ w.stored, st.Serves cl c began ∧ raw = st.blob cl
  | ⟨c, _, .storing v⟩ => ⟨i, c, v⟩ ∈ w.fetched
  | ⟨c, began, .returned v⟩ =>
    ⟨i, c, v⟩ ∈ w.fetched ∨
      (0 < cl.ttl c ∧
        ∃ st ∈ w.stored, st.Serves cl c began ∧ cl.validateJson c (st.blob cl) = some v)
  | _ => True

/-- Every row of the table, every stored and every fetched value has its origin. -/
structure Sound (cl : Client Value) (w : World Value) : Prop where
  row : ∀ key e, w.table.get? key = some e → ∃ st ∈ w.stored, cl.key st.answer.call = key ∧
    e = ⟨st.blob cl, truncToInt (st.time + cl.ttl st.answer.call)⟩
  stored : ∀ st ∈ w.stored, st.answer ∈ w.fetched ∧ st.time ≤ w.now
  fetched : ∀ a ∈ w.fetched, ∃ t, w.tasks a.task = some t ∧ t.call = a.call
  task : ∀ i t, w.tasks i = some t → TaskSound cl w i t

namespace Sound
variable {w : World Value}

theorem init (now : ℚ) : Sound cl (World.init now) where
  row := fun _ _ h => nomatch h
  stored := fun _ h => nomatch h
  fetched := fun _ h => nomatch h
  task := fun _ _ h => nomatch h

theorem tick (hs : Sound cl w) {now : ℚ} (h : w.now ≤ now) : Sound cl { w with now } where
  row := hs.row
  stored := fun st hst => ⟨(hs.stored st hst).1, (hs.stored st hst).2.trans h⟩
  fetched := hs.fetched
  task := hs.task

theorem purge (hs : Sound cl w) (now : ℚ) :
    Sound cl { w with table := (Store.purge w.table now).1 } where
  row := by
    intro key e he
    rw [Store.purge, Dict.get?_filter, Option.filter_eq_some_iff] at he
    exact hs.row key e he.1
  stored := hs.stored
  fetched := hs.fetched
  task := hs.task

theorem setTask (hs : Sound cl w) {i : ℕ} {t : Task Value}
    (hcall : ∀ u, w.tasks i = some u → t.call = u.call) (ht : TaskSound cl w i t) :
    Sound cl (w.setTask i t) where
  row := hs.row
  stored := hs.stored
  fetched := by
    intro a ha
    obtain ⟨u, hu, hcu⟩ := hs.fetched a ha
    by_cases hi : a.task = i
    · subst hi
      exact ⟨t, by simp [World.setTask], (hcall u hu).trans hcu⟩
    · exact ⟨u, by simp [World.setTask, hi, hu], hcu⟩
  task := by
    intro j u hu
    rcases World.tasks_setTask hu with ⟨rfl, rfl⟩ | hold
    · exact ht
    · exact hs.task j u hold

end Sound

/-- The logs only grow, and what they account for stays accounted for. -/
theorem TaskSound.mono {w w' : World Value} {i : ℕ} {t : Task Value} (ht : TaskSound cl w i t)
    (hfetched : w.fetched ⊆ w'.fetched) (hstored : w.stored ⊆ w'.stored) :
    TaskSound cl w' i t := by
  rcases t with ⟨c, began, (_ | raw) | _ | v | v | _⟩
  · trivial
  · obtain ⟨httl, st, hst, h⟩ := ht
    exact ⟨httl, st, hstored hst, h⟩
  · trivial
  · exact hfetched ht
  · rcases ht with h | ⟨httl, st, hst, h⟩
    · exact .inl (hfetched h)
    · exact .inr ⟨httl, st, hstored hst, h⟩
  · trivial

namespace Sound
variable {w : World Value}

theorem note (hs : Sound cl w) {i : ℕ} {t : Task Value} (ht : w.tasks i = some t)
    (v : Value t.call.method) : Sound cl (w.note ⟨i, t.call, v⟩) where
  row := hs.row
  stored := fun st hst => ⟨List.mem_append_left _ (hs.stored st hst).1, (hs.stored st hst).2⟩
  fetched := by
    intro b hb
    rcases List.mem_append.mp hb with hold | hnew
    · exact hs.fetched b hold
    · rw [List.mem_singleton.mp hnew]
      exact ⟨t, ht, rfl⟩
  task := fun i t ht =>
    (hs.task i t ht).mono (List.subset_append_left _ _) (List.Subset.refl _)

theorem store (hs : Sound cl w) {a : Answer Value} (ha : a ∈ w.fetched) (httl : 0 < cl.ttl a.call)
    (writes : Bool) : Sound cl (w.store cl a writes) := by
  cases writes with
  | false => exact hs
  | true =>
    constructor
    case row =>
      -- under the key of the call stands the answer now, under the others what stood there
      intro key e he
      have hget : (w.table.set (cl.key a.call)
          ⟨(cl.adapter a.call.method).dumpJson a.value, truncToInt (w.now + cl.ttl a.call)⟩).get? key
            = some e := by
        simpa [World.store, Store.set, not_le.mpr httl] using he
      rw [Dict.get?_set] at hget
      split_ifs at hget with hkey
      · cases hget
        exact ⟨⟨a, w.now⟩, List.mem_append_right _ (List.mem_singleton_self _), hkey.symm, rfl⟩
      · obtain ⟨st, hst, h⟩ := hs.row key e hget
        exact ⟨st, List.mem_append_left _ hst, h⟩
    case stored =>
      intro st hst
      rcases List.mem_append.mp hst with hold | hnew
      · exact hs.stored st hold
      · rw [List.mem_singleton.mp hnew]
        exact ⟨ha, le_rfl⟩
    case fetched => exact hs.fetched
    case task =>
      intro i t ht
      exact (hs.task i t ht).mono (List.Subset.refl _) (List.subset_append_left _ _)

/-- A lookup finds only answers that are young enough: both the expiry and the reading of the
clock drop their fractions, and this loses no more than the order. -/
theorem get (hs : Sound cl w) {c : Call} {raw : ByteArray}
    (h : Store.get w.table w.now (cl.key c) = some raw) :
    ∃ st ∈ w.stored, st.Serves cl c w.now ∧ raw = st.blob cl := by
  rw [Store.get_eq_live, Option.map_eq_some_iff] at h
  obtain ⟨e, hlive, rfl⟩ := h
  obtain ⟨hrow, hexp⟩ := Store.live_eq_some.mp hlive
  obtain ⟨st, hst, hkey, rfl⟩ := hs.row _ e hrow
  exact ⟨st, hst, ⟨hkey, (hs.stored st hst).2, lt_of_truncToInt_lt hexp⟩, rfl⟩

theorem begin (hs : Sound cl w) (i : ℕ) (c : Call) (reads : Bool) :
    TaskSound cl w i (cl.begin w c reads) := by
  unfold Client.begin
  split_ifs with httl hreads
  · trivial
  · cases hraw : Store.get w.table w.now (cl.key c) with
    | none => trivial
    | some raw => exact ⟨not_le.mp httl, hs.get hraw⟩
  · trivial

theorem advance (hs : Sound cl w) {i : ℕ} {c : Call} {began : ℚ}
    {pc pc' : CallPc (Value c.method)} (h : w.tasks i = some ⟨c, began, pc⟩)
    (ht : TaskSound cl w i ⟨c, began, pc'⟩) : Sound cl (w.setTask i ⟨c, began, pc'⟩) := by
  refine hs.setTask (fun u hu => ?_) ht
  rw [h] at hu
  cases hu
  rfl

theorem moves {w' : World Value} {e : Event Value} (hs : Sound cl w) (h : Moves cl w e w') :
    Sound cl w' := by
  cases h with
  | tick h => exact hs.tick h
  | begun h =>
    refine hs.setTask (fun u hu => ?_) (hs.begin _ _ _)
    rw [h] at hu
    cases hu
  | hit h hv =>
    obtain ⟨httl, st, hst, hserves, hraw⟩ := hs.task _ _ h
    exact hs.advance h (.inr ⟨httl, st, hst, hserves, hraw ▸ hv⟩)
  | miss h => exact hs.advance h trivial
  | direct h =>
    exact (hs.note h _).advance h (.inl (List.mem_append_right _ (List.mem_singleton_self _)))
  | @kept i c began v writes h httl =>
    have hmem : (⟨i, c, v⟩ : Answer Value) ∈ (w.note ⟨i, c, v⟩).fetched :=
      List.mem_append_right _ (List.mem_singleton_self _)
    have hstore := (hs.note h v).store hmem httl writes
    cases writes <;> exact hstore.advance h hmem
  | stored h => exact hs.advance h (.inl (hs.task _ _ h))
  | aborted h => exact hs.advance h trivial
  | purged =>
    split_ifs
    · exact hs.purge _
    · exact hs

theorem of_run {w' : World Value} {es : List (Event Value)} (hs : Sound cl w)
    (hrun : Trace.run (step cl) w es = some w') : Sound cl w' :=
  Trace.run_invariant (fun _ _ _ hs he => hs.moves (step_moves he)) hs hrun

end Sound

section Purges
variable {w w' : World Value}

def Event.notPurge : Event Value → Bool
  | .purge _ => false
  | _ => true

/-- Two worlds that differ at most in rows that no read sees any more. -/
structure Alike (w w' : World Value) : Prop where
  now : w'.now = w.now
  tasks : w'.tasks = w.tasks
  live : ∀ key, Store.live w'.table w.now key = Store.live w.table w.now key

namespace Alike

theorem refl (w : World Value) : Alike w w := ⟨rfl, rfl, fun _ => rfl⟩

theorem purge (h : Alike w w') : Alike { w with table := (Store.purge w.table w.now).1 } w' where
  now := h.now
  tasks := h.tasks
  live := fun key => by rw [Store.live_purge, h.live]

theorem purge_right (h : Alike w w') :
    Alike w { w' with table := (Store.purge w'.table w'.now).1 } where
  now := h.now
  tasks := h.tasks
  live := fun key => by rw [h.now, Store.live_purge, h.live]

theorem tick (h : Alike w w') {now : ℚ} (hle : w.now ≤ now) :
    Alike { w with now } { w' with now } where
  now := rfl
  tasks := h.tasks
  live := Store.live_mono hle h.live

theorem setTask (h : Alike w w') (i : ℕ) (t : Task Value) :
    Alike (w.setTask i t) (w'.setTask i t) where
  now := h.now
  tasks := by rw [World.setTask, World.setTask, h.tasks]
  live := h.live

theorem note (h : Alike w w') (a : Answer Value) : Alike (w.note a) (w'.note a) :=
  ⟨h.now, h.tasks, h.live⟩

theorem store (h : Alike w w') (a : Answer Value) (httl : 0 < cl.ttl a.call) (writes : Bool) :
    Alike (w.store cl a writes) (w'.store cl a writes) := by
  cases writes with
  | false => exact h
  | true =>
    refine ⟨h.now, h.tasks, fun key => ?_⟩
    show Store.live (Store.set w'.table w'.now _ _ _) w.now key =
      Store.live (Store.set w.table w.now _ _ _) w.now key
    rw [h.now, Store.live_set _ _ _ _ _ httl, Store.live_set _ _ _ _ _ httl, h.live]

theorem begin (h : Alike w w') (c : Call) (reads : Bool) :
    cl.begin w' c reads = cl.begin w c reads := by
  rw [Client.begin, Client.begin, h.now, Store.get_eq_live, Store.get_eq_live, h.live]

theorem moves {u : World Value} {e : Event Value} (h : Alike w w') (he : e.notPurge = true)
    (hmove : Moves cl w e u) : ∃ u', Moves cl w' e u' ∧ Alike u u' := by
  cases hmove with
  | tick hle => exact ⟨_, .tick (h.now ▸ hle), h.tick hle⟩
  | begun hi =>
    refine ⟨_, .begun (h.tasks ▸ hi), ?_⟩
    rw [h.begin]
    exact h.setTask _ _
  | hit hi hv => exact ⟨_, .hit (h.tasks ▸ hi) hv, h.setTask _ _⟩
  | miss hi hv => exact ⟨_, .miss (h.tasks ▸ hi) hv, h.setTask _ _⟩
  | direct hi httl => exact ⟨_, .direct (h.tasks ▸ hi) httl, (h.note _).setTask _ _⟩
  | kept hi httl =>
    exact ⟨_, .kept (h.tasks ▸ hi) httl, ((h.note _).store _ httl _).setTask _ _⟩
  | stored hi => exact ⟨_, .stored (h.tasks ▸ hi), h.setTask _ _⟩
  | aborted hi hpc => exact ⟨_, .aborted (h.tasks ▸ hi) hpc, h.setTask _ _⟩
  | purged => cases he

theorem step {u : World Value} {e : Event Value} (h : Alike w w') (he : e.notPurge = true)
    (hstep : Cache.step cl w e = some u) : ∃ u', Cache.step cl w' e = some u' ∧ Alike u u' := by
  obtain ⟨u', hmove, hu⟩ := h.moves he (step_moves hstep)
  exact ⟨u', moves_step hmove, hu⟩

theorem drop {u : World Value} {e : Event Value} (h : Alike w w') (he : e.notPurge = false)
    (hstep : Cache.step cl w e = some u) : Alike u w' := by
  cases step_moves hstep with
  | purged =>
    split_ifs
    · exact h.purge
    · exact h
  | _ => cases he

theorem add {e : Event Value} (h : Alike w w') (he : e.notPurge = false) :
    ∃ u', Cache.step cl w' e = some u' ∧ Alike w u' := by
  cases e with
  | purge works =>
    cases works with
    | false => exact ⟨w', rfl, h⟩
    | true => exact ⟨_, rfl, h.purge_right⟩
  | _ => cases he

end Alike

/-- Runs that differ only in their purges lead to the same tasks. -/
theorem tasks_eq_of_purges {w₀ : World Value} {es es' : List (Event Value)}
    (hes : es'.filter Event.notPurge = es.filter Event.notPurge)
    (hrun : Trace.run (step cl) w₀ es = some w) :
    ∃ w', Trace.run (step cl) w₀ es' = some w' ∧ w'.tasks = w.tasks := by
  obtain ⟨u, hfiltered, hu⟩ := Trace.run_filter (fun _ _ _ _ h he hstep => h.step he hstep)
    (fun _ _ _ _ h he hstep => h.drop he hstep) (Alike.refl w₀) hrun
  rw [← hes] at hfiltered
  obtain ⟨w', hrun', hw'⟩ := Trace.run_of_filter (fun _ _ _ _ h he hstep => h.step he hstep)
    (fun _ _ _ h he => h.add he) (Alike.refl w₀) hfiltered
  exact ⟨w', hrun', hw'.tasks.trans hu.tasks⟩

end Purges

/-- Once no two of the calls collide, a stored answer found under the key of a call is one to
that call. -/
theorem Sound.returned {w : World Value} (hs : Sound cl w)
    (hround : ∀ m v, (cl.adapter m).validateJson ((cl.adapter m).dumpJson v) = some v)
    (hkey : ∀ i j t u, w.tasks i = some t → w.tasks j = some u →
      cl.key t.call = cl.key u.call → t.call = u.call)
    {i : ℕ} {c : Call} {began : ℚ} {v : Value c.method}
    (hi : w.tasks i = some ⟨c, began, .returned v⟩) :
    ⟨i, c, v⟩ ∈ w.fetched ∨ (0 < cl.ttl c ∧ ∃ j time, ⟨j, c, v⟩ ∈ w.fetched ∧
      ⟨⟨j, c, v⟩, time⟩ ∈ w.stored ∧ time ≤ began ∧ began < time + cl.ttl c) := by
  rcases hs.task i _ hi with hfetched | ⟨httl, st, hst, hserves, hvalid⟩
  · exact .inl hfetched
  · right
    obtain ⟨⟨j, c', v'⟩, time⟩ := st
    obtain ⟨hanswer, -⟩ := hs.stored _ hst
    obtain ⟨t, ht, hcall⟩ := hs.fetched _ hanswer
    have hc : c' = c := hcall.symm.trans (hkey j i _ _ ht hi (by rw [hcall]; exact hserves.key))
    subst hc
    have hv : v' = v := Option.some.inj ((hround _ v').symm.trans hvalid)
    subst hv
    exact ⟨httl, j, time, hanswer, hst, hserves.before, hserves.fresh⟩

/-- Under every interleaving a call returns what it fetched, or an answer of the source to the
same call that was stored less than its lifetime before; and the purges do not show. -/
theorem cache_transparent {start : ℚ} {es : List (Event Value)} {w : World Value}
    (hround : ∀ m v, (cl.adapter m).validateJson ((cl.adapter m).dumpJson v) = some v)
    (hcollide : ∀ c ∈ begunCalls es, ∀ c' ∈ begunCalls es,
      keyDigest cl.hexdigest c = keyDigest cl.hexdigest c' → keyBytes c = keyBytes c')
    (hrun : Trace.run (step cl) (World.init start) es = some w) :
    Function.Injective keyBytes ∧
      (∀ i c began v, w.tasks i = some ⟨c, began, .returned v⟩ →
        ⟨i, c, v⟩ ∈ w.fetched ∨ ∃ j time, ⟨j, c, v⟩ ∈ w.fetched ∧
          ⟨⟨j, c, v⟩, time⟩ ∈ w.stored ∧ time ≤ began ∧ began < time + cl.ttl c) ∧
      (∀ i c began v, cl.ttl c ≤ 0 → w.tasks i = some ⟨c, began, .returned v⟩ →
        ⟨i, c, v⟩ ∈ w.fetched) ∧
      ∀ es', es'.filter Event.notPurge = es.filter Event.notPurge →
        ∃ w', Trace.run (step cl) (World.init start) es' = some w' ∧ w'.tasks = w.tasks := by
  have hs : Sound cl w := (Sound.init start).of_run hrun
  have hkey : ∀ i j t u, w.tasks i = some t → w.tasks j = some u →
      cl.key t.call = cl.key u.call → t.call = u.call := by
    intro i j t u ht hu h
    -- equal keys have equal hashes, so the same bytes were hashed
    have hmem : ∀ {k v}, w.tasks k = some v → v.call ∈ begunCalls es := mem_begunCalls (fun _ => rfl) hrun
    exact keyBytes_injective (hcollide _ (hmem ht) _ (hmem hu) (keyDigest_of_key h))
  refine ⟨keyBytes_injective, ?_, ?_, fun es' hes => tasks_eq_of_purges hes hrun⟩
  · intro i c began v hi
    exact (hs.returned hround hkey hi).imp_right And.right
  · intro i c began v httl hi
    rcases hs.returned hround hkey hi with hfetched | ⟨hpos, -⟩
    · exact hfetched
    · exact absurd hpos (not_lt.mpr httl)

/-- Texts go into the table as they are, under the hashes of two searches for products. -/
def productsClient : Client fun _ => String where
  ttls := {}
  adapter := fun _ => { dumpJson := String.toUTF8, validateJson := String.fromUTF8? }
  hexdigest := fun bytes =>
    if bytes.data =
        ("ListProducts\x00\x7b\"expand\": [], \"filter\": [], \"limit\": 0, \"order\": \"\", " ++
          "\"search\": \"\"\x7d").toUTF8.data then
      "1f48dd4d39417bb06f35624ac7956876ef78e006c09fa2f0b20d9d0b98b04b2b"
    else if bytes.data =
        ("ListProducts\x00\x7b\"expand\": [], \"filter\": [], \"limit\": 0, \"order\": \"\", " ++
          "\"search\": \"\\u0427\\u0430\\u0439\"\x7d").toUTF8.data then
      "c8b90acc19ae03d239f088daaf15737676ca6f94ae92e6d6ed9ce2cc1938d10b"
    else ""

/-- Two overlapping misses, and a hit on the second of them half a second before it expires. -/
def warmRun : List (Event fun _ => String) :=
  [.call 0 (.listProducts {}) true, .call 1 (.listProducts { search := "Чай" }) true, .looked 0,
    .looked 1, .fetched 0 (.listProducts {}) "[1]" true,
    .fetched 1 (.listProducts { search := "Чай" }) "[2]" true, .stored 1, .stored 0,
    .tick (3599 / 2), .purge true, .call 2 (.listProducts { search := "Чай" }) true, .looked 2]

theorem warmRun_transparent : ∃ w,
    Trace.run (step productsClient) (World.init 0) warmRun = some w ∧
      w.tasks 2 = some ⟨.listProducts { search := "Чай" }, 3599 / 2, .returned "[2]"⟩ ∧
      (⟨2, .listProducts { search := "Чай" }, "[2]"⟩ ∈ w.fetched ∨ ∃ j time,
        ⟨j, .listProducts { search := "Чай" }, "[2]"⟩ ∈ w.fetched ∧
          ⟨⟨j, .listProducts { search := "Чай" }, "[2]"⟩, time⟩ ∈ w.stored ∧ time ≤ 3599 / 2 ∧
          3599 / 2 < time + productsClient.ttl (.listProducts { search := "Чай" })) := by
  have hround : ∀ m v, (productsClient.adapter m).validateJson
      ((productsClient.adapter m).dumpJson v) = some v := by
    intro m v
    exact dif_pos v.isValidUTF8
  have hcollide : ∀ c ∈ begunCalls warmRun, ∀ c' ∈ begunCalls warmRun,
      keyDigest productsClient.hexdigest c = keyDigest productsClient.hexdigest c' →
        keyBytes c = keyBytes c' := by decide +kernel
  have h : ((Trace.run (step productsClient) (World.init 0) warmRun).bind fun w =>
      (w.tasks 2).bind fun t =>
        match t.pc with
        | .returned v => some (t.call, t.began, v)
        | _ => none) = some (.listProducts { search := "Чай" }, 3599 / 2, "[2]") := by
    decide +kernel
  obtain ⟨w, hrun, hw⟩ := Option.bind_eq_some_iff.mp h
  obtain ⟨⟨c, began, pc⟩, ht, hpc⟩ := Option.bind_eq_some_iff.mp hw
  cases pc with
  | returned v =>
    cases hpc
    exact ⟨w, hrun, ht, (cache_transparent hround hcollide hrun).2.1 _ _ _ _ ht⟩
  | _ => cases hpc

end Chic.Cache
