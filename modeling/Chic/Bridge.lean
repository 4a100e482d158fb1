import Mathlib.Algebra.BigOperators.Group.List.Lemmas
import Mathlib.Data.List.Perm.Subperm
import Mathlib.Tactic.FieldSimp
import Chic.Dict
import Chic.ReportLines

namespace Chic.Bridge
open Money

/-- A set of strings is enumerated in an order of its own, which changes from process to
process. -/
structure SetOrder where
  order : List String → List String
  perm : ∀ keys, (order keys).Perm keys

/-- Decimal division raises on a zero divisor. -/
def div? (x y : ℚ) : Option ℚ := if y = 0 then none else some (x / y)

theorem div?_eq_some {x y : ℚ} (h : y ≠ 0) : div? x y = some (x / y) := if_neg h

/-- `_by_id`, one line of it: sold products only, the same id twice is folded together. -/
def byIdStep (out : Dict String ProfitProductLine) (ln : ProfitProductLine) :
    Dict String ProfitProductLine :=
  if ln.sellQuantity ≤ 0 then out
  else
    match out.get? ln.id with
    | none => out.set ln.id ln
    | some prev =>
      out.set ln.id
        { id := ln.id
          name := ln.name
          sellQuantity := prev.sellQuantity + ln.sellQuantity
          revenue := prev.revenue + ln.revenue
          cost := prev.cost + ln.cost
          returnSum := prev.returnSum + ln.returnSum
          profit := prev.profit + ln.profit
          marginPct := 0 }

def byId (lines : List ProfitProductLine) : Dict String ProfitProductLine :=
  lines.foldl byIdStep Dict.empty

def gross (ln : ProfitProductLine) : ℚ := ln.revenue - ln.cost

inductive DriverKind
  | common | new | discontinued
  deriving DecidableEq

structure BridgeDriver where
  name : String
  kind : DriverKind
  qtyA : ℚ
  qtyB : ℚ
  profitA : ℚ
  profitB : ℚ
  delta : ℚ
  priceEffect : ℚ
  costEffect : ℚ
  qtyEffect : ℚ

def absentDriver (name : String) (kind : DriverKind) (ln : ProfitProductLine)
    (profitA profitB delta : ℚ) : BridgeDriver where
  name
  kind
  qtyA := if kind = .discontinued then ln.sellQuantity else 0
  qtyB := if kind = .new then ln.sellQuantity else 0
  profitA := moneyRound profitA
  profitB := moneyRound profitB
  delta := moneyRound delta
  priceEffect := 0
  costEffect := 0
  qtyEffect := 0

structure CommonSums where
  price : ℚ := 0
  cost : ℚ := 0
  volmix : ℚ := 0
  qaCommon : ℚ := 0
  qbCommon : ℚ := 0
  profitACommon : ℚ := 0
  drivers : List BridgeDriver := []

def commonStep (a b : Dict String ProfitProductLine) (s : CommonSums) (key : String) :
    Option CommonSums := do
  let la ← a.get? key
  let lb ← b.get? key
  let qa := la.sellQuantity
  let qb := lb.sellQuantity
  let pa ← div? la.revenue qa
  let ca ← div? la.cost qa
  let pb ← div? lb.revenue qb
  let cb ← div? lb.cost qb
  let profitDelta := gross lb - gross la
  let price := qb * (pb - pa)
  let cost := -qb * (cb - ca)
  -- volume and mix together take what price and cost leave
  let qty := profitDelta - price - cost
  return {
    price := s.price + price
    cost := s.cost + cost
    volmix := s.volmix + qty
    qaCommon := s.qaCommon + qa
    qbCommon := s.qbCommon + qb
    profitACommon := s.profitACommon + gross la
    drivers := s.drivers ++ [{
      name := la.name
      kind := .common
      qtyA := la.sellQuantity
      qtyB := lb.sellQuantity
      profitA := moneyRound (gross la)
      profitB := moneyRound (gross lb)
      delta := moneyRound profitDelta
      priceEffect := moneyRound price
      costEffect := moneyRound cost
      qtyEffect := moneyRound qty }] }

def newStep (b : Dict String ProfitProductLine) (s : ℚ × List BridgeDriver) (key : String) :
    Option (ℚ × List BridgeDriver) := do
  let lb ← b.get? key
  let g := gross lb
  return (s.1 + g, s.2 ++ [absentDriver lb.name .new lb 0 g g])

def discStep (a : Dict String ProfitProductLine) (s : ℚ × List BridgeDriver) (key : String) :
    Option (ℚ × List BridgeDriver) := do
  let la ← a.get? key
  let g := gross la
  return (s.1 - g, s.2 ++ [absentDriver la.name .discontinued la g 0 (-g)])

structure Effects where
  price : ℚ
  cost : ℚ
  volume : ℚ
  mix : ℚ
  newEff : ℚ
  discEff : ℚ
  profitA : ℚ
  profitB : ℚ
  drivers : List BridgeDriver
  commonCount : ℕ
  newCount : ℕ
  discontinuedCount : ℕ

def Effects.delta (e : Effects) : ℚ := e.profitB - e.profitA

def volumeEffect (s : CommonSums) : Option ℚ :=
  if 0 < s.qaCommon then
    (div? s.profitACommon s.qaCommon).map fun margin => (s.qbCommon - s.qaCommon) * margin
  else some 0

/-- The unrounded half of `profit_bridge`; `none` stands for a `KeyError` or a division by
zero. -/
def bridgeEffects (ord : SetOrder) (aLines bLines : List ProfitProductLine) : Option Effects := do
  let a := byId aLines
  let b := byId bLines
  let common := ord.order (a.keys.filter (· ∈ b.keys))
  let aOnly := ord.order (a.keys.filter (· ∉ b.keys))
  let bOnly := ord.order (b.keys.filter (· ∉ a.keys))
  let s ← common.foldlM (commonStep a b) {}
  let volume ← volumeEffect s
  let new ← bOnly.foldlM (newStep b) (0, s.drivers)
  let disc ← aOnly.foldlM (discStep a) (0, new.2)
  return {
    price := s.price
    cost := s.cost
    volume
    mix := s.volmix - volume
    newEff := new.1
    discEff := disc.1
    profitA := (a.values.map gross).sum
    profitB := (b.values.map gross).sum
    drivers := disc.2
    commonCount := common.length
    newCount := bOnly.length
    discontinuedCount := aOnly.length }

structure ProfitBridge where
  profitA : ℚ
  profitB : ℚ
  delta : ℚ
  priceEffect : ℚ
  costEffect : ℚ
  volumeEffect : ℚ
  mixEffect : ℚ
  newProductsEffect : ℚ
  discontinuedEffect : ℚ
  rounding : ℚ
  commonCount : ℕ
  newCount : ℕ
  discontinuedCount : ℕ
  topDrivers : List BridgeDriver

/-- The published half: every amount in whole cents, the residual as `rounding`, the drivers
by size of their delta (the sort is stable). -/
def publish (topN : ℤ) (e : Effects) : ProfitBridge :=
  let effects := [moneyRound e.price, moneyRound e.cost, moneyRound e.volume, moneyRound e.mix,
    moneyRound e.newEff, moneyRound e.discEff]
  let drivers := e.drivers.mergeSort fun x y => |y.delta| ≤ |x.delta|
  { profitA := moneyRound e.profitA
    profitB := moneyRound e.profitB
    delta := moneyRound e.delta
    priceEffect := moneyRound e.price
    costEffect := moneyRound e.cost
    volumeEffect := moneyRound e.volume
    mixEffect := moneyRound e.mix
    newProductsEffect := moneyRound e.newEff
    discontinuedEffect := moneyRound e.discEff
    rounding := moneyRound e.delta - effects.sum
    commonCount := e.commonCount
    newCount := e.newCount
    discontinuedCount := e.discontinuedCount
    topDrivers := if 0 < topN then drivers.take topN.toNat else drivers }

def profitBridge (ord : SetOrder) (aLines bLines : List ProfitProductLine) (topN : ℤ) :
    Option ProfitBridge :=
  (bridgeEffects ord aLines bLines).map (publish topN)

end Chic.Bridge
