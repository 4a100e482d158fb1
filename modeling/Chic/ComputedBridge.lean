import Chic.Bridge
import Chic.Computed

namespace Chic.Computed
open Arithmetic
open Bridge (BridgeDriver DriverKind CommonSums Effects ProfitBridge SetOrder)

section
variable (ar : Arithmetic)

def div? (x y : ℚ) : Option ℚ := if y = 0 then none else some (ar.decimal (x / y))

def folded (prev ln : ProfitProductLine) : ProfitProductLine where
  id := ln.id
  name := ln.name
  sellQuantity := ar.float (prev.sellQuantity + ln.sellQuantity)
  revenue := ar.decimal (prev.revenue + ln.revenue)
  cost := ar.decimal (prev.cost + ln.cost)
  returnSum := ar.decimal (prev.returnSum + ln.returnSum)
  profit := ar.decimal (prev.profit + ln.profit)
  marginPct := 0

/-- `_by_id`, one line of it. A sum of quantities from `2 ^ 1024` on stands for an infinite one. -/
def byIdStep (out : Dict String ProfitProductLine) (ln : ProfitProductLine) :
    Dict String ProfitProductLine :=
  if ln.sellQuantity ≤ 0 then out
  else
    match out.get? ln.id with
    | none => out.set ln.id ln
    | some prev => out.set ln.id (folded ar prev ln)

def byId (lines : List ProfitProductLine) : Dict String ProfitProductLine :=
  lines.foldl (byIdStep ar) Dict.empty

def gross (ln : ProfitProductLine) : ℚ := ar.decimal (ln.revenue - ln.cost)

def absentDriver (name : String) (kind : DriverKind) (ln : ProfitProductLine)
    (profitA profitB delta : ℚ) : Option BridgeDriver := do
  let profitA ← moneyRound ar profitA
  let profitB ← moneyRound ar profitB
  let delta ← moneyRound ar delta
  return {
    name, kind, profitA, profitB, delta
    qtyA := if kind = .discontinued then ln.sellQuantity else 0
    qtyB := if kind = .new then ln.sellQuantity else 0
    priceEffect := 0
    costEffect := 0
    qtyEffect := 0 }

/-- The decimal of a quantity. An infinite one has none: what is computed from it in the end is no
number, and cannot be rounded. -/
def decQuantity (quantity : ℚ) : Option ℚ := (ar.double quantity).map ar.written

def commonStep (a b : Dict String ProfitProductLine) (s : CommonSums) (key : String) :
    Option CommonSums := do
  let la ← a.get? key
  let lb ← b.get? key
  let qa ← decQuantity ar la.sellQuantity
  let qb ← decQuantity ar lb.sellQuantity
  let pa ← div? ar la.revenue qa
  let ca ← div? ar la.cost qa
  let pb ← div? ar lb.revenue qb
  let cb ← div? ar lb.cost qb
  let profitDelta := ar.decimal (gross ar lb - gross ar la)
  let price := ar.decimal (qb * ar.decimal (pb - pa))
  let cost := ar.decimal (ar.decimal (-qb) * ar.decimal (cb - ca))
  -- volume and mix together take what price and cost leave
  let qty := ar.decimal (ar.decimal (profitDelta - price) - cost)
  let profitA ← moneyRound ar (gross ar la)
  let profitB ← moneyRound ar (gross ar lb)
  let delta ← moneyRound ar profitDelta
  let priceEffect ← moneyRound ar price
  let costEffect ← moneyRound ar cost
  let qtyEffect ← moneyRound ar qty
  return {
    price := ar.decimal (s.price + price)
    cost := ar.decimal (s.cost + cost)
    volmix := ar.decimal (s.volmix + qty)
    qaCommon := ar.decimal (s.qaCommon + qa)
    qbCommon := ar.decimal (s.qbCommon + qb)
    profitACommon := ar.decimal (s.profitACommon + gross ar la)
    drivers := s.drivers ++ [{
      name := la.name
      kind := .common
      qtyA := la.sellQuantity
      qtyB := lb.sellQuantity
      profitA, profitB, delta, priceEffect, costEffect, qtyEffect }] }

def newStep (b : Dict String ProfitProductLine) (s : ℚ × List BridgeDriver) (key : String) :
    Option (ℚ × List BridgeDriver) := do
  let lb ← b.get? key
  let g := gross ar lb
  let driver ← absentDriver ar lb.name .new lb 0 g g
  return (ar.decimal (s.1 + g), s.2 ++ [driver])

def discStep (a : Dict String ProfitProductLine) (s : ℚ × List BridgeDriver) (key : String) :
    Option (ℚ × List BridgeDriver) := do
  let la ← a.get? key
  let g := gross ar la
  let driver ← absentDriver ar la.name .discontinued la g 0 (ar.decimal (-g))
  return (ar.decimal (s.1 - g), s.2 ++ [driver])

def volumeEffect (s : CommonSums) : Option ℚ :=
  if 0 < s.qaCommon then
    (div? ar s.profitACommon s.qaCommon).map fun margin =>
      ar.decimal (ar.decimal (s.qbCommon - s.qaCommon) * margin)
  else some 0

/-- `profit_bridge` but for what it publishes; `none` stands for what it raises. -/
def bridgeEffects (ord : SetOrder) (aLines bLines : List ProfitProductLine) : Option Effects := do
  let a := byId ar aLines
  let b := byId ar bLines
  let common := ord.order (a.keys.filter (· ∈ b.keys))
  let aOnly := ord.order (a.keys.filter (· ∉ b.keys))
  let bOnly := ord.order (b.keys.filter (· ∉ a.keys))
  let s ← common.foldlM (commonStep ar a b) {}
  let volume ← volumeEffect ar s
  let new ← bOnly.foldlM (newStep ar b) (0, s.drivers)
  let disc ← aOnly.foldlM (discStep ar a) (0, new.2)
  return {
    price := s.price
    cost := s.cost
    volume
    mix := ar.decimal (s.volmix - volume)
    newEff := new.1
    discEff := disc.1
    profitA := total ar (a.values.map (gross ar))
    profitB := total ar (b.values.map (gross ar))
    drivers := disc.2
    commonCount := common.length
    newCount := bOnly.length
    discontinuedCount := aOnly.length }

def publish (topN : ℤ) (e : Effects) : Option ProfitBridge := do
  let priceEffect ← moneyRound ar e.price
  let costEffect ← moneyRound ar e.cost
  let volumeEffect ← moneyRound ar e.volume
  let mixEffect ← moneyRound ar e.mix
  let newProductsEffect ← moneyRound ar e.newEff
  let discontinuedEffect ← moneyRound ar e.discEff
  let delta ← moneyRound ar (ar.decimal (e.profitB - e.profitA))
  let effects := [priceEffect, costEffect, volumeEffect, mixEffect, newProductsEffect,
    discontinuedEffect]
  let drivers := e.drivers.mergeSort fun x y => |y.delta| ≤ |x.delta|
  let profitA ← moneyRound ar e.profitA
  let profitB ← moneyRound ar e.profitB
  return {
    profitA, profitB, delta, priceEffect, costEffect, volumeEffect, mixEffect
    newProductsEffect, discontinuedEffect
    rounding := ar.decimal (delta - total ar effects)
    commonCount := e.commonCount
    newCount := e.newCount
    discontinuedCount := e.discontinuedCount
    topDrivers := if 0 < topN then drivers.take topN.toNat else drivers }

def profitBridge (ord : SetOrder) (aLines bLines : List ProfitProductLine) (topN : ℤ) :
    Option ProfitBridge :=
  (bridgeEffects ar ord aLines bLines).bind (publish ar topN)

theorem byIdStep_forall {P : ProfitProductLine → Prop} {ln : ProfitProductLine}
    (hline : 0 < ln.sellQuantity → P ln) (hfold : ∀ prev, P prev → P ln → P (folded ar prev ln))
    {out : Dict String ProfitProductLine} (hout : ∀ k l, out.get? k = some l → P l) :
    ∀ k l, (byIdStep ar out ln).get? k = some l → P l := by
  intro k l hl
  unfold byIdStep at hl
  split_ifs at hl with hq
  · exact hout k l hl
  · have hln : P ln := hline (not_le.mp hq)
    cases hp : out.get? ln.id with
    | none =>
      simp only [hp, Dict.get?_set] at hl
      split_ifs at hl
      · cases hl; exact hln
      · exact hout k l hl
    | some prev =>
      simp only [hp, Dict.get?_set] at hl
      split_ifs at hl
      · cases hl; exact hfold prev (hout _ _ hp) hln
      · exact hout k l hl

/-- What holds of every sold line and is kept by folding holds of every indexed product. -/
theorem byId_forall {P : ProfitProductLine → Prop} {lines : List ProfitProductLine}
    (hline : ∀ ln ∈ lines, 0 < ln.sellQuantity → P ln)
    (hfold : ∀ prev ln, P prev → P ln → P (folded ar prev ln)) :
    ∀ k l, (byId ar lines).get? k = some l → P l := by
  have hall : ∀ out : Dict String ProfitProductLine, (∀ k l, out.get? k = some l → P l) →
      ∀ k l, (lines.foldl (byIdStep ar) out).get? k = some l → P l := by
    induction lines with
    | nil => exact fun _ hout => hout
    | cons ln lines ih =>
      rw [List.forall_mem_cons] at hline
      intro out hout
      exact ih hline.2 _ (byIdStep_forall ar hline.1 (fun prev hprev => hfold prev ln hprev) hout)
  exact hall _ fun k l hl => by rw [Dict.get?_empty] at hl; cases hl

end

section Exact

theorem byId_exact (lines : List ProfitProductLine) : byId exact lines = Bridge.byId lines := rfl

theorem commonStep_exact (a b : Dict String ProfitProductLine) :
    commonStep exact a b = Bridge.commonStep a b := rfl

theorem newStep_exact (b : Dict String ProfitProductLine) : newStep exact b = Bridge.newStep b := rfl

theorem discStep_exact (a : Dict String ProfitProductLine) : discStep exact a = Bridge.discStep a := rfl

theorem publish_exact (topN : ℤ) (e : Effects) : publish exact topN e = some (Bridge.publish topN e) := by
  simp only [publish, moneyRound_exact, total_exact]
  rfl

theorem bridgeEffects_exact (ord : SetOrder) (aLines bLines : List ProfitProductLine) :
    bridgeEffects exact ord aLines bLines = Bridge.bridgeEffects ord aLines bLines := by
  simp only [bridgeEffects, byId_exact, commonStep_exact, newStep_exact, discStep_exact, total_exact]
  rfl

theorem profitBridge_exact (ord : SetOrder) (aLines bLines : List ProfitProductLine) (topN : ℤ) :
    profitBridge exact ord aLines bLines topN = Bridge.profitBridge ord aLines bLines topN := by
  rw [profitBridge, bridgeEffects_exact, Bridge.profitBridge, Option.map_eq_bind]
  simp only [publish_exact]
  rfl

end Exact

end Chic.Computed
