import Chic.ComputedBridge

namespace Chic.Bridge
open Money

def grossOf (lines : List ProfitProductLine) : ℚ :=
  ((lines.filter fun ln => 0 < ln.sellQuantity).map gross).sum

theorem grossOf_cons (ln : ProfitProductLine) (lines : List ProfitProductLine) :
    grossOf (ln :: lines) = (if ln.sellQuantity ≤ 0 then 0 else gross ln) + grossOf lines := by
  by_cases h : ln.sellQuantity ≤ 0
  · simp [grossOf, h, not_lt.mpr h]
  · simp [grossOf, h, not_le.mp h]

theorem byIdStep_gross (out : Dict String ProfitProductLine) (ln : ProfitProductLine) :
    ((byIdStep out ln).values.map gross).sum =
      (out.values.map gross).sum + if ln.sellQuantity ≤ 0 then 0 else gross ln := by
  unfold byIdStep
  split_ifs with h
  · rw [add_zero]
  · cases hp : out.get? ln.id with
    | none => simp [Dict.sum_values_set, hp]
    | some prev =>
      simp only [Dict.sum_values_set, hp, Option.map_some, Option.getD_some, gross]
      ring

theorem byId_gross (lines : List ProfitProductLine) :
    ((byId lines).values.map gross).sum = grossOf lines := by
  have hfold : ∀ out : Dict String ProfitProductLine,
      ((lines.foldl byIdStep out).values.map gross).sum =
        (out.values.map gross).sum + grossOf lines := by
    induction lines with
    | nil => intro out; simp [grossOf]
    | cons ln lines ih =>
      intro out
      rw [List.foldl_cons, ih, byIdStep_gross, grossOf_cons]
      ring
  rw [byId, hfold, Dict.values_empty, List.map_nil, List.sum_nil, zero_add]

theorem byId_quantity_pos (lines : List ProfitProductLine) :
    ∀ k l, (byId lines).get? k = some l → 0 < l.sellQuantity :=
  Computed.byId_forall Arithmetic.exact (fun _ _ hpos => hpos) fun _ _ hprev hln => add_pos hprev hln

def grossAt (d : Dict String ProfitProductLine) (key : String) : ℚ :=
  ((d.get? key).map gross).getD 0

theorem grossAt_of_get? {d : Dict String ProfitProductLine} {key : String}
    {l : ProfitProductLine} (h : d.get? key = some l) : grossAt d key = gross l := by
  simp [grossAt, h]

theorem sum_grossAt_keys (d : Dict String ProfitProductLine) :
    (d.keys.map (grossAt d)).sum = (d.values.map gross).sum := by
  rw [Dict.keys, Dict.values, List.map_map, List.map_map]
  congr 1
  apply List.map_congr_left
  rintro ⟨k, l⟩ he
  exact grossAt_of_get? (Dict.mem_entries_iff.mp he)

/-- What the loop over the common products has accounted for. -/
def CommonSums.total (s : CommonSums) : ℚ := s.price + s.cost + s.volmix

/-- On a product of both periods the three effects add up to its change of gross profit,
whatever the unit prices are. -/
theorem commonStep_spec {a b : Dict String ProfitProductLine} {key : String}
    (ha : ∀ k l, a.get? k = some l → 0 < l.sellQuantity)
    (hb : ∀ k l, b.get? k = some l → 0 < l.sellQuantity)
    (hka : key ∈ a.keys) (hkb : key ∈ b.keys) (s : CommonSums) :
    ∃ s', commonStep a b s key = some s' ∧
      s'.total = s.total + (grossAt b key - grossAt a key) := by
  obtain ⟨la, hla⟩ := Dict.mem_keys_iff.mp hka
  obtain ⟨lb, hlb⟩ := Dict.mem_keys_iff.mp hkb
  have hqa : la.sellQuantity ≠ 0 := (ha key la hla).ne'
  have hqb : lb.sellQuantity ≠ 0 := (hb key lb hlb).ne'
  simp only [commonStep, hla, hlb, div?_eq_some hqa, div?_eq_some hqb, bind, Option.bind, pure]
  refine ⟨_, rfl, ?_⟩
  rw [grossAt_of_get? hla, grossAt_of_get? hlb, CommonSums.total, CommonSums.total]
  ring

theorem newStep_spec {b : Dict String ProfitProductLine} {key : String} (hkb : key ∈ b.keys)
    (s : ℚ × List BridgeDriver) :
    ∃ s', newStep b s key = some s' ∧ s'.1 = s.1 + grossAt b key := by
  obtain ⟨lb, hlb⟩ := Dict.mem_keys_iff.mp hkb
  simp only [newStep, hlb, bind, Option.bind, pure]
  exact ⟨_, rfl, by rw [grossAt_of_get? hlb]⟩

theorem discStep_spec {a : Dict String ProfitProductLine} {key : String} (hka : key ∈ a.keys)
    (s : ℚ × List BridgeDriver) :
    ∃ s', discStep a s key = some s' ∧ s'.1 = s.1 - grossAt a key := by
  obtain ⟨la, hla⟩ := Dict.mem_keys_iff.mp hka
  simp only [discStep, hla, bind, Option.bind, pure]
  exact ⟨_, rfl, by rw [grossAt_of_get? hla]⟩

/-- A loop that adds to an amount what each key contributes adds their sum. -/
theorem foldlM_amount {σ : Type*} {step : σ → String → Option σ} (amount : σ → ℚ)
    (f : String → ℚ) {keys : List String}
    (hstep : ∀ k ∈ keys, ∀ s, ∃ s', step s k = some s' ∧ amount s' = amount s + f k) (s : σ) :
    ∃ s', keys.foldlM step s = some s' ∧ amount s' = amount s + (keys.map f).sum := by
  induction keys generalizing s with
  | nil => exact ⟨s, rfl, by simp⟩
  | cons key keys ih =>
    obtain ⟨s₁, h₁, ht₁⟩ := hstep key List.mem_cons_self s
    obtain ⟨s₂, h₂, ht₂⟩ := ih (fun k hk => hstep k (List.mem_cons_of_mem key hk)) s₁
    refine ⟨s₂, ?_, ?_⟩
    · rw [List.foldlM_cons, h₁]
      exact h₂
    · rw [ht₂, ht₁, List.map_cons, List.sum_cons, add_assoc]

theorem sum_map_sub (f g : String → ℚ) (keys : List String) :
    (keys.map fun k => f k - g k).sum = (keys.map f).sum - (keys.map g).sum := by
  induction keys with
  | nil => simp
  | cons key keys ih =>
    rw [List.map_cons, List.map_cons, List.map_cons, List.sum_cons, List.sum_cons, List.sum_cons, ih]
    ring

/-- The volume is guarded by its own divisor. -/
theorem volumeEffect_isSome (s : CommonSums) : ∃ v, volumeEffect s = some v := by
  unfold volumeEffect
  split_ifs with hq
  · exact ⟨_, by rw [div?_eq_some hq.ne', Option.map_some]⟩
  · exact ⟨0, rfl⟩

theorem sum_split (p : String → Bool) (f : String → ℚ) (keys : List String) :
    (keys.map f).sum = ((keys.filter p).map f).sum + ((keys.filter fun k => !p k).map f).sum := by
  induction keys with
  | nil => simp
  | cons k keys ih =>
    cases hp : p k
    · simp only [List.filter_cons, hp, List.map_cons, List.sum_cons, ih, Bool.not_false,
        Bool.false_eq_true, if_true, if_false]
      ring
    · simp only [List.filter_cons, hp, List.map_cons, List.sum_cons, ih, Bool.not_true,
        Bool.false_eq_true, if_true, if_false]
      ring

theorem common_perm (a b : Dict String ProfitProductLine) :
    (a.keys.filter (· ∈ b.keys)).Perm (b.keys.filter (· ∈ a.keys)) := by
  apply (List.perm_ext_iff_of_nodup (a.keys_nodup.filter _) (b.keys_nodup.filter _)).mpr
  intro k
  simp only [List.mem_filter, decide_eq_true_eq]
  exact and_comm

theorem sum_map_perm {l l' : List String} (h : l.Perm l') (f : String → ℚ) :
    (l.map f).sum = (l'.map f).sum := (h.map f).sum_eq

/-- The unrounded effects exist and add up to the change of gross profit. -/
theorem bridgeEffects_spec (ord : SetOrder) (aLines bLines : List ProfitProductLine) :
    ∃ e, bridgeEffects ord aLines bLines = some e ∧
      e.profitA = grossOf aLines ∧ e.profitB = grossOf bLines ∧
      e.price + e.cost + e.volume + e.mix + e.newEff + e.discEff = e.profitB - e.profitA := by
  set a := byId aLines with ha
  set b := byId bLines with hb
  have hqa : ∀ k l, a.get? k = some l → 0 < l.sellQuantity := byId_quantity_pos aLines
  have hqb : ∀ k l, b.get? k = some l → 0 < l.sellQuantity := byId_quantity_pos bLines
  have hcommon := ord.perm (a.keys.filter (· ∈ b.keys))
  have haOnly := ord.perm (a.keys.filter (· ∉ b.keys))
  have hbOnly := ord.perm (b.keys.filter (· ∉ a.keys))
  obtain ⟨s, hs, hst⟩ := foldlM_amount CommonSums.total (fun k => grossAt b k - grossAt a k)
    (fun k hk => commonStep_spec hqa hqb (List.mem_filter.mp (hcommon.mem_iff.mp hk)).1
      (by simpa using (List.mem_filter.mp (hcommon.mem_iff.mp hk)).2)) {}
  obtain ⟨new, hnew, hnewSum⟩ := foldlM_amount Prod.fst (grossAt b)
    (fun k hk => newStep_spec (List.mem_filter.mp (hbOnly.mem_iff.mp hk)).1) (0, s.drivers)
  obtain ⟨disc, hdisc, hdiscSum⟩ := foldlM_amount (fun s => -s.1) (grossAt a)
    (fun k hk s => by
      obtain ⟨s', hs', hsum⟩ := discStep_spec (List.mem_filter.mp (haOnly.mem_iff.mp hk)).1 s
      exact ⟨s', hs', by linarith⟩) (0, new.2)
  obtain ⟨volume, hvolume⟩ := volumeEffect_isSome s
  have hpa : (a.values.map gross).sum = grossOf aLines := byId_gross aLines
  have hpb : (b.values.map gross).sum = grossOf bLines := byId_gross bLines
  refine ⟨_, by simp only [bridgeEffects, ← ha, ← hb, hs, hvolume, hnew, hdisc, bind,
    Option.bind, pure]; rfl, hpa, hpb, ?_⟩
  -- both totals split along the common keys
  have hA := sum_split (· ∈ b.keys) (grossAt a) a.keys
  have hB := sum_split (· ∈ a.keys) (grossAt b) b.keys
  rw [sum_grossAt_keys] at hA hB
  rw [sum_map_sub, sum_map_perm hcommon, sum_map_perm hcommon,
    sum_map_perm (common_perm a b) (grossAt b)] at hst
  rw [sum_map_perm hbOnly] at hnewSum
  rw [sum_map_perm haOnly] at hdiscSum
  simp only [CommonSums.total] at hst
  simp only [decide_not] at hnewSum hdiscSum
  linarith

/-- Rounding six effects and their total leaves a residual of at most three cents. -/
theorem publish_rounding_le (topN : ℤ) (e : Effects)
    (h : e.price + e.cost + e.volume + e.mix + e.newEff + e.discEff = e.delta) :
    |(publish topN e).rounding| ≤ 3 / 100 := by
  obtain ⟨cents, hcents, hbound⟩ := sum_moneyRound
    [e.delta, -e.price, -e.cost, -e.volume, -e.mix, -e.newEff, -e.discEff] (by
      simp only [List.sum_cons, List.sum_nil]
      linarith)
  simp only [List.map_cons, List.map_nil, List.sum_cons, List.sum_nil, moneyRound_neg,
    List.length_cons, List.length_nil] at hcents hbound
  have hr : (publish topN e).rounding = cents / 100 := by
    simp only [publish, List.sum_cons, List.sum_nil]
    linarith
  have hc : |cents| ≤ 3 := by omega
  have hq : |(cents : ℚ)| ≤ 3 := by exact_mod_cast hc
  rw [hr, abs_div, abs_of_pos (by norm_num : (0 : ℚ) < 100)]
  linarith

/-- The profit bridge never divides by zero, its six unrounded effects are the change of gross
profit exactly, `rounding` is at most three cents, and the seven published amounts add up to
the published delta. -/
theorem profitBridge_reconciles (ord : SetOrder) (aLines bLines : List ProfitProductLine)
    (topN : ℤ) :
    ∃ e r, bridgeEffects ord aLines bLines = some e ∧
      profitBridge ord aLines bLines topN = some r ∧
      e.profitA = grossOf aLines ∧ e.profitB = grossOf bLines ∧
      e.price + e.cost + e.volume + e.mix + e.newEff + e.discEff = e.profitB - e.profitA ∧
      r = publish topN e ∧ |r.rounding| ≤ 3 / 100 ∧
      r.priceEffect + r.costEffect + r.volumeEffect + r.mixEffect + r.newProductsEffect +
        r.discontinuedEffect + r.rounding = r.delta := by
  obtain ⟨e, he, hA, hB, hsum⟩ := bridgeEffects_spec ord aLines bLines
  refine ⟨e, publish topN e, he, ?_, hA, hB, hsum, rfl, publish_rounding_le topN e hsum, ?_⟩
  · rw [profitBridge, he, Option.map_some]
  · simp only [publish, List.sum_cons, List.sum_nil]
    ring

end Chic.Bridge
