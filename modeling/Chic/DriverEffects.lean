import Chic.ComputedBridge

namespace Chic.Bridge
open Arithmetic Binary64 Money

/-- What rounding to cents takes off an amount. -/
def centsOff (v : ℚ) : ℚ := v - moneyRound v

/-- A quantity as it is written, which is what amounts are divided by. -/
def writtenQuantity (ln : ProfitProductLine) : ℚ := python.written (nearest ln.sellQuantity)

/-- A unit price or a unit cost, to 28 digits. -/
def perUnit (amount : ℚ) (ln : ProfitProductLine) : ℚ := python.decimal (amount / writtenQuantity ln)

section
variable (la lb : ProfitProductLine)

def rowDelta : ℚ := python.decimal (Computed.gross python lb - Computed.gross python la)

/-- The new quantity at the change of the unit price. -/
def rowPrice : ℚ :=
  python.decimal (writtenQuantity lb * python.decimal (perUnit lb.revenue lb - perUnit la.revenue la))

/-- The new quantity at the change of the unit cost, against the profit. -/
def rowCost : ℚ :=
  python.decimal (python.decimal (-writtenQuantity lb) *
    python.decimal (perUnit lb.cost lb - perUnit la.cost la))

/-- What price and cost leave of the change of profit. -/
def rowRest : ℚ := python.decimal (python.decimal (rowDelta la lb - rowPrice la lb) - rowCost la lb)

/-- What rounding takes off the three effects, to cents off price and cost and to 28 digits off the
rest, is together less than half a cent, or it is half a cent and has the sign of the rest. -/
def CancelsOut : Prop :=
  let off := centsOff (rowPrice la lb) + centsOff (rowCost la lb) +
    (rowDelta la lb - rowPrice la lb - rowCost la lb - rowRest la lb)
  |off| < 1 / 200 ∨ (0 < rowRest la lb ∧ off = 1 / 200) ∨ (rowRest la lb < 0 ∧ off = -1 / 200)

end

def BridgeDriver.AddsUp (d : BridgeDriver) : Prop :=
  d.priceEffect + d.costEffect + d.qtyEffect = d.delta ∧ d.profitB - d.profitA = d.delta

/-- Every row of a product of both periods adds up, however many rows are asked for. -/
def DriversAddUp (ord : SetOrder) (aLines bLines : List ProfitProductLine) : Prop :=
  ∀ topN r, Computed.profitBridge python ord aLines bLines topN = some r →
    ∀ d ∈ r.topDrivers, d.kind = .common → d.AddsUp

def InCents (ln : ProfitProductLine) : Prop := WholeCents ln.revenue ∧ WholeCents ln.cost

/-- A row shows the two lines of a product, each amount rounded to cents. -/
structure Shows (la lb : ProfitProductLine) (d : BridgeDriver) : Prop where
  kind : d.kind = .common
  profitA : Computed.moneyRound python (Computed.gross python la) = some d.profitA
  profitB : Computed.moneyRound python (Computed.gross python lb) = some d.profitB
  delta : Computed.moneyRound python (rowDelta la lb) = some d.delta
  price : Computed.moneyRound python (rowPrice la lb) = some d.priceEffect
  cost : Computed.moneyRound python (rowCost la lb) = some d.costEffect
  rest : Computed.moneyRound python (rowRest la lb) = some d.qtyEffect

section Row
variable {la lb : ProfitProductLine} {d : BridgeDriver}

theorem wholeCents_gross {ln : ProfitProductLine} (h : InCents ln) :
    WholeCents (Computed.gross python ln) :=
  Computed.wholeCents_decimal (h.1.sub h.2)

theorem inCents_byId {lines : List ProfitProductLine} (h : ∀ ln ∈ lines, InCents ln) :
    ∀ k l, (Computed.byId python lines).get? k = some l → InCents l :=
  Computed.byId_forall python (fun ln hln _ => h ln hln) fun _ _ hprev hln =>
    ⟨Computed.wholeCents_decimal (hprev.1.add hln.1), Computed.wholeCents_decimal (hprev.2.add hln.2)⟩

/-- A row adds up exactly when its roundings cancel out. -/
theorem Shows.addsUp_iff (h : Shows la lb d) (ha : InCents la) (hb : InCents lb) :
    d.AddsUp ↔ CancelsOut la lb := by
  have hga := wholeCents_gross ha
  have hgb := wholeCents_gross hb
  -- the profits and their difference are in whole cents, so only the effects are rounded
  have hprofitA : d.profitA = Computed.gross python la := by
    rw [← (Computed.moneyRound_eq_some.mp h.profitA).2, hga.moneyRound_eq]
  have hprofitB : d.profitB = Computed.gross python lb := by
    rw [← (Computed.moneyRound_eq_some.mp h.profitB).2, hgb.moneyRound_eq]
  have hprofit : d.profitB - d.profitA = d.delta := by
    rw [hprofitA, hprofitB, Computed.moneyRound_decimal (hgb.sub hga) h.delta]
  have hdelta : rowDelta la lb = d.delta := by
    rw [← (Computed.moneyRound_eq_some.mp h.delta).2, rowDelta,
      (Computed.wholeCents_decimal (hgb.sub hga)).moneyRound_eq]
  have hprice := (Computed.moneyRound_eq_some.mp h.price).2
  have hcost := (Computed.moneyRound_eq_some.mp h.cost).2
  have hleft : WholeCents (d.delta - d.priceEffect - d.costEffect) := by
    rw [← hdelta, ← hprice, ← hcost]
    exact ((Computed.wholeCents_decimal (hgb.sub hga)).sub (wholeCents_moneyRound _)).sub
      (wholeCents_moneyRound _)
  have hoff : rowRest la lb - (d.delta - d.priceEffect - d.costEffect) =
      -(centsOff (rowPrice la lb) + centsOff (rowCost la lb) +
        (rowDelta la lb - rowPrice la lb - rowCost la lb - rowRest la lb)) := by
    rw [centsOff, centsOff, hprice, hcost, hdelta]
    ring
  have hsum : d.AddsUp ↔ moneyRound (rowRest la lb) = d.delta - d.priceEffect - d.costEffect := by
    rw [(Computed.moneyRound_eq_some.mp h.rest).2, BridgeDriver.AddsUp, and_iff_left hprofit]
    constructor <;> intro h <;> linarith
  rw [hsum, moneyRound_eq_iff _ hleft, hoff, abs_neg, CancelsOut, neg_eq_iff_eq_neg,
    neg_eq_iff_eq_neg, neg_div, neg_neg]

end Row

section Loop
variable {a b : Dict String ProfitProductLine} {s s' : CommonSums} {keys : List String}

theorem decQuantity_eq {q x : ℚ} (h : Computed.decQuantity python q = some x) :
    x = python.written (nearest q) := by
  obtain ⟨y, hy, rfl⟩ := Option.map_eq_some_iff.mp h
  rw [(ofRat_eq_some_iff.mp hy).2]

theorem div?_eq {x y z : ℚ} (h : Computed.div? python x y = some z) : z = python.decimal (x / y) :=
  (Option.some_inj.mp (Option.ite_none_left_eq_some.mp h).2).symm

theorem commonStep_eq_some {key : String} (h : Computed.commonStep python a b s key = some s') :
    ∃ la lb d, a.get? key = some la ∧ b.get? key = some lb ∧ Shows la lb d ∧
      s'.drivers = s.drivers ++ [d] := by
  obtain ⟨la, hla, h⟩ := Option.bind_eq_some_iff.mp h
  obtain ⟨lb, hlb, h⟩ := Option.bind_eq_some_iff.mp h
  obtain ⟨qa, hqa, h⟩ := Option.bind_eq_some_iff.mp h
  obtain ⟨qb, hqb, h⟩ := Option.bind_eq_some_iff.mp h
  obtain ⟨pa, hpa, h⟩ := Option.bind_eq_some_iff.mp h
  obtain ⟨ca, hca, h⟩ := Option.bind_eq_some_iff.mp h
  obtain ⟨pb, hpb, h⟩ := Option.bind_eq_some_iff.mp h
  obtain ⟨cb, hcb, h⟩ := Option.bind_eq_some_iff.mp h
  obtain ⟨profitA, hprofitA, h⟩ := Option.bind_eq_some_iff.mp h
  obtain ⟨profitB, hprofitB, h⟩ := Option.bind_eq_some_iff.mp h
  obtain ⟨delta, hdelta, h⟩ := Option.bind_eq_some_iff.mp h
  obtain ⟨price, hprice, h⟩ := Option.bind_eq_some_iff.mp h
  obtain ⟨cost, hcost, h⟩ := Option.bind_eq_some_iff.mp h
  obtain ⟨rest, hrest, h⟩ := Option.bind_eq_some_iff.mp h
  obtain rfl := Option.some_inj.mp h
  obtain rfl := decQuantity_eq hqa
  obtain rfl := decQuantity_eq hqb
  obtain rfl := div?_eq hpa
  obtain rfl := div?_eq hca
  obtain rfl := div?_eq hpb
  obtain rfl := div?_eq hcb
  refine ⟨la, lb, _, hla, hlb, ?_, rfl⟩
  exact ⟨rfl, hprofitA, hprofitB, hdelta, hprice, hcost, hrest⟩

/-- The loop over the products of both periods gives a row for each of them, in their order. -/
theorem foldlM_commonStep_eq_some (h : keys.foldlM (Computed.commonStep python a b) s = some s') :
    ∃ ds, s'.drivers = s.drivers ++ ds ∧ List.Forall₂ (fun key d =>
      ∃ la lb, a.get? key = some la ∧ b.get? key = some lb ∧ Shows la lb d) keys ds := by
  induction keys generalizing s with
  | nil => exact ⟨[], by rw [Option.some_inj.mp h, List.append_nil], .nil⟩
  | cons key keys ih =>
    rw [List.foldlM_cons] at h
    obtain ⟨mid, hmid, h⟩ := Option.bind_eq_some_iff.mp h
    obtain ⟨la, lb, d, hla, hlb, hshows, hdrivers⟩ := commonStep_eq_some hmid
    obtain ⟨ds, hds, hall⟩ := ih h
    refine ⟨d :: ds, ?_, .cons ⟨la, lb, hla, hlb, hshows⟩ hall⟩
    rw [hds, hdrivers, List.append_assoc, List.singleton_append]

theorem absentDriver_kind {name : String} {kind : DriverKind} {ln : ProfitProductLine}
    {profitA profitB delta : ℚ} {d : BridgeDriver}
    (h : Computed.absentDriver python name kind ln profitA profitB delta = some d) : d.kind = kind := by
  obtain ⟨_, -, h⟩ := Option.bind_eq_some_iff.mp h
  obtain ⟨_, -, h⟩ := Option.bind_eq_some_iff.mp h
  obtain ⟨_, -, h⟩ := Option.bind_eq_some_iff.mp h
  obtain rfl := Option.some_inj.mp h
  rfl

theorem foldlM_absent {step : ℚ × List BridgeDriver → String → Option (ℚ × List BridgeDriver)}
    (hstep : ∀ t key t', step t key = some t' → ∃ d : BridgeDriver, d.kind ≠ .common ∧ t'.2 = t.2 ++ [d])
    {t t' : ℚ × List BridgeDriver} (h : keys.foldlM step t = some t') :
    ∃ ds, t'.2 = t.2 ++ ds ∧ ∀ d ∈ ds, d.kind ≠ .common := by
  induction keys generalizing t with
  | nil => exact ⟨[], by rw [Option.some_inj.mp h, List.append_nil], by simp⟩
  | cons key keys ih =>
    rw [List.foldlM_cons] at h
    obtain ⟨mid, hmid, h⟩ := Option.bind_eq_some_iff.mp h
    obtain ⟨d, hkind, hd⟩ := hstep _ _ _ hmid
    obtain ⟨ds, hds, hall⟩ := ih h
    refine ⟨d :: ds, ?_, List.forall_mem_cons.mpr ⟨hkind, hall⟩⟩
    rw [hds, hd, List.append_assoc, List.singleton_append]

theorem newStep_eq_some {key : String} {t t' : ℚ × List BridgeDriver}
    (h : Computed.newStep python b t key = some t') :
    ∃ d : BridgeDriver, d.kind ≠ .common ∧ t'.2 = t.2 ++ [d] := by
  obtain ⟨lb, -, h⟩ := Option.bind_eq_some_iff.mp h
  obtain ⟨d, hd, h⟩ := Option.bind_eq_some_iff.mp h
  obtain rfl := Option.some_inj.mp h
  refine ⟨d, ?_, rfl⟩
  rw [absentDriver_kind hd]
  decide

theorem discStep_eq_some {key : String} {t t' : ℚ × List BridgeDriver}
    (h : Computed.discStep python a t key = some t') :
    ∃ d : BridgeDriver, d.kind ≠ .common ∧ t'.2 = t.2 ++ [d] := by
  obtain ⟨la, -, h⟩ := Option.bind_eq_some_iff.mp h
  obtain ⟨d, hd, h⟩ := Option.bind_eq_some_iff.mp h
  obtain rfl := Option.some_inj.mp h
  refine ⟨d, ?_, rfl⟩
  rw [absentDriver_kind hd]
  decide

end Loop

section Published
variable {ord : SetOrder} {aLines bLines : List ProfitProductLine} {e : Effects} {r : ProfitBridge}
  {topN : ℤ}

/-- The rows of both periods are those of the keys of both. -/
theorem mem_drivers_common (h : Computed.bridgeEffects python ord aLines bLines = some e) :
    (∀ d ∈ e.drivers, d.kind = .common → ∃ key la lb, (Computed.byId python aLines).get? key = some la ∧
      (Computed.byId python bLines).get? key = some lb ∧ Shows la lb d) ∧
    ∀ key la lb, (Computed.byId python aLines).get? key = some la →
      (Computed.byId python bLines).get? key = some lb → ∃ d ∈ e.drivers, Shows la lb d := by
  obtain ⟨s, hs, h⟩ := Option.bind_eq_some_iff.mp h
  obtain ⟨volume, -, h⟩ := Option.bind_eq_some_iff.mp h
  obtain ⟨new, hnew, h⟩ := Option.bind_eq_some_iff.mp h
  obtain ⟨disc, hdisc, h⟩ := Option.bind_eq_some_iff.mp h
  obtain rfl := Option.some_inj.mp h
  obtain ⟨ds, hds, hall⟩ := foldlM_commonStep_eq_some hs
  obtain ⟨news, hnews, hnewKind⟩ := foldlM_absent (fun _ _ _ => newStep_eq_some) hnew
  obtain ⟨discs, hdiscs, hdiscKind⟩ := foldlM_absent (fun _ _ _ => discStep_eq_some) hdisc
  obtain ⟨hrow, hkey⟩ := Computed.mem_of_forall₂ hall
  have hdrivers : disc.2 = ds ++ news ++ discs := by rw [hdiscs, hnews, hds, List.nil_append]
  dsimp only
  rw [hdrivers]
  constructor
  -- the drivers of one period only are of another kind
  · intro d hd hkind
    rcases List.mem_append.mp hd with hd | hd
    · rcases List.mem_append.mp hd with hd | hd
      · obtain ⟨key, -, la, lb, hla, hlb, hshows⟩ := hkey d hd
        exact ⟨key, la, lb, hla, hlb, hshows⟩
      · exact absurd hkind (hnewKind d hd)
    · exact absurd hkind (hdiscKind d hd)
  · intro key la lb hla hlb
    have hmem : key ∈ ord.order ((Computed.byId python aLines).keys.filter
        (· ∈ (Computed.byId python bLines).keys)) := by
      rw [(ord.perm _).mem_iff, List.mem_filter, decide_eq_true_iff]
      exact ⟨Dict.mem_keys_iff.mpr ⟨la, hla⟩, Dict.mem_keys_iff.mpr ⟨lb, hlb⟩⟩
    obtain ⟨d, hd, la', lb', hla', hlb', hshows⟩ := hrow key hmem
    obtain rfl := Option.some_inj.mp (hla.symm.trans hla')
    obtain rfl := Option.some_inj.mp (hlb.symm.trans hlb')
    exact ⟨d, List.mem_append_left _ (List.mem_append_left _ hd), hshows⟩

theorem publish_topDrivers_eq (h : Computed.publish python topN e = some r) :
    r.topDrivers =
      if 0 < topN then (e.drivers.mergeSort fun x y => |y.delta| ≤ |x.delta|).take topN.toNat
      else e.drivers.mergeSort fun x y => |y.delta| ≤ |x.delta| := by
  obtain ⟨_, -, h⟩ := Option.bind_eq_some_iff.mp h
  obtain ⟨_, -, h⟩ := Option.bind_eq_some_iff.mp h
  obtain ⟨_, -, h⟩ := Option.bind_eq_some_iff.mp h
  obtain ⟨_, -, h⟩ := Option.bind_eq_some_iff.mp h
  obtain ⟨_, -, h⟩ := Option.bind_eq_some_iff.mp h
  obtain ⟨_, -, h⟩ := Option.bind_eq_some_iff.mp h
  obtain ⟨_, -, h⟩ := Option.bind_eq_some_iff.mp h
  obtain ⟨_, -, h⟩ := Option.bind_eq_some_iff.mp h
  obtain ⟨_, -, h⟩ := Option.bind_eq_some_iff.mp h
  obtain rfl := Option.some_inj.mp h
  rfl

/-- How many rows are asked for decides neither what is computed nor whether it can be published. -/
theorem profitBridge_topN (h : Computed.profitBridge python ord aLines bLines topN = some r) (n : ℤ) :
    ∃ r', Computed.profitBridge python ord aLines bLines n = some r' := by
  obtain ⟨e, he, h⟩ := Option.bind_eq_some_iff.mp h
  obtain ⟨price, hprice, h⟩ := Option.bind_eq_some_iff.mp h
  obtain ⟨cost, hcost, h⟩ := Option.bind_eq_some_iff.mp h
  obtain ⟨volume, hvolume, h⟩ := Option.bind_eq_some_iff.mp h
  obtain ⟨mix, hmix, h⟩ := Option.bind_eq_some_iff.mp h
  obtain ⟨new, hnew, h⟩ := Option.bind_eq_some_iff.mp h
  obtain ⟨disc, hdisc, h⟩ := Option.bind_eq_some_iff.mp h
  obtain ⟨delta, hdelta, h⟩ := Option.bind_eq_some_iff.mp h
  obtain ⟨profitA, hprofitA, h⟩ := Option.bind_eq_some_iff.mp h
  obtain ⟨profitB, hprofitB, -⟩ := Option.bind_eq_some_iff.mp h
  rw [Computed.profitBridge, he, Option.bind_some, Computed.publish, hprice, hcost, hvolume, hmix,
    hnew, hdisc, hdelta, hprofitA, hprofitB]
  exact ⟨_, rfl⟩

end Published

/-- Where the bridge is returned, its rows add up when for every product of both periods the
roundings cancel out. -/
theorem driversAddUp_iff {ord : SetOrder} {aLines bLines : List ProfitProductLine} {topN : ℤ}
    {r : ProfitBridge} (ha : ∀ ln ∈ aLines, InCents ln) (hb : ∀ ln ∈ bLines, InCents ln)
    (hreturn : Computed.profitBridge python ord aLines bLines topN = some r) :
    DriversAddUp ord aLines bLines ↔
      ∀ key la lb, (Computed.byId python aLines).get? key = some la →
        (Computed.byId python bLines).get? key = some lb → CancelsOut la lb := by
  have hiff : ∀ {key la lb d}, (Computed.byId python aLines).get? key = some la →
      (Computed.byId python bLines).get? key = some lb → Shows la lb d →
      (d.AddsUp ↔ CancelsOut la lb) := fun hla hlb hshows =>
    hshows.addsUp_iff (inCents_byId ha _ _ hla) (inCents_byId hb _ _ hlb)
  constructor
  · intro h key la lb hla hlb
    -- no row is cut off when `top_n` is zero
    obtain ⟨r₀, hr₀⟩ := profitBridge_topN hreturn 0
    obtain ⟨e, he, hpublish⟩ := Option.bind_eq_some_iff.mp hr₀
    obtain ⟨d, hd, hshows⟩ := (mem_drivers_common he).2 key la lb hla hlb
    refine (hiff hla hlb hshows).mp (h 0 r₀ hr₀ d ?_ hshows.kind)
    rw [publish_topDrivers_eq hpublish, if_neg (lt_irrefl 0)]
    exact List.mem_mergeSort.mpr hd
  · intro h topN r hr d hd hkind
    obtain ⟨e, he, hpublish⟩ := Option.bind_eq_some_iff.mp hr
    have hmem : d ∈ e.drivers := by
      rw [publish_topDrivers_eq hpublish] at hd
      split_ifs at hd
      · exact List.mem_mergeSort.mp (List.mem_of_mem_take hd)
      · exact List.mem_mergeSort.mp hd
    obtain ⟨key, la, lb, hla, hlb, hshows⟩ := (mem_drivers_common he).1 d hmem hkind
    exact (hiff hla hlb hshows).mpr (h key la lb hla hlb)

def asListed : SetOrder := ⟨id, fun _ => .refl _⟩

def soldLine (key : String) (sellQuantity revenue cost : ℚ) : ProfitProductLine :=
  ⟨key, "Чай", "", sellQuantity, revenue, cost, 0, revenue - cost, 0⟩

theorem inCents_soldLine (key : String) (q : ℚ) {r c : ℚ} (hr : WholeCents r) (hc : WholeCents c) :
    ∀ ln ∈ [soldLine key q r c], InCents ln := by
  intro ln hln
  rw [List.mem_singleton.mp hln]
  exact ⟨hr, hc⟩

theorem eq_of_get?_byId_singleton {ln l : ProfitProductLine} (hq : 0 < ln.sellQuantity) {key : String}
    (h : (Computed.byId python [ln]).get? key = some l) : ln = l := by
  simp only [Computed.byId, List.foldl_cons, List.foldl_nil, Computed.byIdStep, if_neg (not_le.mpr hq),
    Dict.get?_empty, Dict.get?_set] at h
  split_ifs at h
  exact Option.some_inj.mp h

/-- Two packs for 70.00 after seven for 100.00, at costs of 40.00 and 60.00: the effects are
published as 41.43, -22.86 and -28.57. -/
theorem dearerTea_addsUp :
    DriversAddUp asListed [soldLine "чай" 7 100 60] [soldLine "чай" 2 70 40] := by
  obtain ⟨r, hr⟩ := Option.isSome_iff_exists.mp (show (Computed.profitBridge python asListed
    [soldLine "чай" 7 100 60] [soldLine "чай" 2 70 40] 10).isSome by decide +kernel)
  refine (driversAddUp_iff (inCents_soldLine "чай" 7 ⟨10000, by norm_num⟩ ⟨6000, by norm_num⟩)
    (inCents_soldLine "чай" 2 ⟨7000, by norm_num⟩ ⟨4000, by norm_num⟩) hr).mpr ?_
  intro key la lb hla hlb
  rw [← eq_of_get?_byId_singleton (by norm_num [soldLine]) hla,
    ← eq_of_get?_byId_singleton (by norm_num [soldLine]) hlb]
  refine .inl ?_
  decide +kernel

/-- Three packs for 1.00 before, one for 0.40 after: the effects are published as 0.07, -0.03 and
-0.33, the change of profit as -0.30. -/
theorem threePacks_offByOne :
    (∀ ln ∈ [soldLine "чай" 3 1 (1 / 2)], InCents ln) ∧
    (∀ ln ∈ [soldLine "чай" 1 (2 / 5) (1 / 5)], InCents ln) ∧
    (Computed.profitBridge python asListed [soldLine "чай" 3 1 (1 / 2)]
        [soldLine "чай" 1 (2 / 5) (1 / 5)] 10).map
        (fun r => r.topDrivers.map fun d =>
          (d.kind, d.priceEffect, d.costEffect, d.qtyEffect, d.delta)) =
      some [(.common, 7 / 100, -3 / 100, -33 / 100, -30 / 100)] ∧
    ¬ DriversAddUp asListed [soldLine "чай" 3 1 (1 / 2)] [soldLine "чай" 1 (2 / 5) (1 / 5)] := by
  have hrows : (Computed.profitBridge python asListed [soldLine "чай" 3 1 (1 / 2)]
      [soldLine "чай" 1 (2 / 5) (1 / 5)] 10).map (fun r => r.topDrivers.map fun d =>
        (d.kind, d.priceEffect, d.costEffect, d.qtyEffect, d.delta)) =
      some [(.common, 7 / 100, -3 / 100, -33 / 100, -30 / 100)] := by decide +kernel
  refine ⟨inCents_soldLine "чай" 3 ⟨100, by norm_num⟩ ⟨50, by norm_num⟩,
    inCents_soldLine "чай" 1 ⟨40, by norm_num⟩ ⟨20, by norm_num⟩, hrows, fun h => ?_⟩
  obtain ⟨r, hr, hrow⟩ := Option.map_eq_some_iff.mp hrows
  obtain ⟨d, hd, hrow⟩ := List.map_eq_singleton_iff.mp hrow
  simp only [Prod.mk.injEq] at hrow
  obtain ⟨hkind, hprice, hcost, hqty, hdelta⟩ := hrow
  have hsum := (h 10 r hr d (hd ▸ List.mem_singleton_self d) hkind).1
  rw [hprice, hcost, hqty, hdelta] at hsum
  norm_num at hsum

end Chic.Bridge
