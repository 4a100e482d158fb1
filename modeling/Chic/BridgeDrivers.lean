import Chic.BridgeReconciliation

namespace Chic.Bridge
open Money

/-- What `_by_id` has under a key, a line of zeros where it has none. -/
def lineAt (d : Dict String ProfitProductLine) (key : String) : ProfitProductLine :=
  (d.get? key).getD ⟨key, "", "", 0, 0, 0, 0, 0, 0⟩

def priceOf (la lb : ProfitProductLine) : ℚ :=
  lb.sellQuantity * (lb.revenue / lb.sellQuantity - la.revenue / la.sellQuantity)

def costOf (la lb : ProfitProductLine) : ℚ :=
  -lb.sellQuantity * (lb.cost / lb.sellQuantity - la.cost / la.sellQuantity)

def qtyOf (la lb : ProfitProductLine) : ℚ := gross lb - gross la - priceOf la lb - costOf la lb

def commonDriver (la lb : ProfitProductLine) : BridgeDriver where
  name := la.name
  kind := .common
  qtyA := la.sellQuantity
  qtyB := lb.sellQuantity
  profitA := moneyRound (gross la)
  profitB := moneyRound (gross lb)
  delta := moneyRound (gross lb - gross la)
  priceEffect := moneyRound (priceOf la lb)
  costEffect := moneyRound (costOf la lb)
  qtyEffect := moneyRound (qtyOf la lb)

def newDriver (lb : ProfitProductLine) : BridgeDriver :=
  absentDriver lb.name .new lb 0 (gross lb) (gross lb)

def discDriver (la : ProfitProductLine) : BridgeDriver :=
  absentDriver la.name .discontinued la (gross la) 0 (-gross la)

section
variable (a b : Dict String ProfitProductLine)

def commonKeys : List String := a.keys.filter (· ∈ b.keys)

def onlyKeys : List String := a.keys.filter (· ∉ b.keys)

def commonSums (keys : List String) : CommonSums :=
  let sum (f : ProfitProductLine → ProfitProductLine → ℚ) : ℚ :=
    (keys.map fun k => f (lineAt a k) (lineAt b k)).sum
  { price := sum priceOf
    cost := sum costOf
    volmix := sum qtyOf
    qaCommon := sum fun la _ => la.sellQuantity
    qbCommon := sum fun _ lb => lb.sellQuantity
    profitACommon := sum fun la _ => gross la
    drivers := keys.map fun k => commonDriver (lineAt a k) (lineAt b k) }

def driversOf (common bOnly aOnly : List String) : List BridgeDriver :=
  common.map (fun k => commonDriver (lineAt a k) (lineAt b k)) ++
    bOnly.map (fun k => newDriver (lineAt b k)) ++ aOnly.map fun k => discDriver (lineAt a k)

def pureVolume (s : CommonSums) : ℚ :=
  if 0 < s.qaCommon then (s.qbCommon - s.qaCommon) * (s.profitACommon / s.qaCommon) else 0

def effectsOf (common bOnly aOnly : List String) : Effects :=
  let s := commonSums a b common
  { price := s.price
    cost := s.cost
    volume := pureVolume s
    mix := s.volmix - pureVolume s
    newEff := (bOnly.map fun k => gross (lineAt b k)).sum
    discEff := -(aOnly.map fun k => gross (lineAt a k)).sum
    profitA := (a.values.map gross).sum
    profitB := (b.values.map gross).sum
    drivers := driversOf a b common bOnly aOnly
    commonCount := common.length
    newCount := bOnly.length
    discontinuedCount := aOnly.length }

end

section Loops
variable {a b : Dict String ProfitProductLine} {keys : List String}

theorem get?_eq_lineAt {key : String} (h : key ∈ a.keys) : a.get? key = some (lineAt a key) := by
  obtain ⟨l, hl⟩ := Dict.mem_keys_iff.mp h
  rw [lineAt, hl, Option.getD_some]

theorem lineAt_quantity_pos {lines : List ProfitProductLine} {key : String}
    (h : key ∈ (byId lines).keys) : 0 < (lineAt (byId lines) key).sellQuantity :=
  byId_quantity_pos lines key _ (get?_eq_lineAt h)

theorem mem_commonKeys {key : String} : key ∈ commonKeys a b ↔ key ∈ a.keys ∧ key ∈ b.keys := by
  simp [commonKeys]

theorem mem_onlyKeys {key : String} : key ∈ onlyKeys a b ↔ key ∈ a.keys ∧ key ∉ b.keys := by
  simp [onlyKeys]

theorem volumeEffect_eq (s : CommonSums) : volumeEffect s = some (pureVolume s) := by
  unfold volumeEffect pureVolume
  split_ifs with h
  · rw [div?_eq_some h.ne', Option.map_some]
  · rfl

def CommonSums.add (s t : CommonSums) : CommonSums where
  price := s.price + t.price
  cost := s.cost + t.cost
  volmix := s.volmix + t.volmix
  qaCommon := s.qaCommon + t.qaCommon
  qbCommon := s.qbCommon + t.qbCommon
  profitACommon := s.profitACommon + t.profitACommon
  drivers := s.drivers ++ t.drivers

theorem commonStep_eq {key : String} (hqa : 0 < (lineAt a key).sellQuantity)
    (hqb : 0 < (lineAt b key).sellQuantity) (hka : key ∈ a.keys) (hkb : key ∈ b.keys)
    (s : CommonSums) : commonStep a b s key = some (s.add (commonSums a b [key])) := by
  simp only [commonStep, get?_eq_lineAt hka, get?_eq_lineAt hkb, div?_eq_some hqa.ne',
    div?_eq_some hqb.ne', bind, Option.bind, pure]
  simp [CommonSums.add, commonSums, commonDriver, qtyOf, priceOf, costOf]

theorem commonSums_cons (key : String) (keys : List String) (s : CommonSums) :
    s.add (commonSums a b (key :: keys)) =
      (s.add (commonSums a b [key])).add (commonSums a b keys) := by
  simp [CommonSums.add, commonSums, add_assoc]

theorem foldlM_commonStep (hqa : ∀ k ∈ keys, 0 < (lineAt a k).sellQuantity)
    (hqb : ∀ k ∈ keys, 0 < (lineAt b k).sellQuantity) (hka : ∀ k ∈ keys, k ∈ a.keys)
    (hkb : ∀ k ∈ keys, k ∈ b.keys) (s : CommonSums) :
    keys.foldlM (commonStep a b) s = some (s.add (commonSums a b keys)) := by
  induction keys generalizing s with
  | nil => simp [commonSums, CommonSums.add]
  | cons key keys ih =>
    rw [List.forall_mem_cons] at hqa hqb hka hkb
    rw [List.foldlM_cons, commonStep_eq hqa.1 hqb.1 hka.1 hkb.1,
      commonSums_cons key keys s]
    exact ih hqa.2 hqb.2 hka.2 hkb.2 _

theorem foldlM_newStep (hkb : ∀ k ∈ keys, k ∈ b.keys) (s : ℚ × List BridgeDriver) :
    keys.foldlM (newStep b) s = some (s.1 + (keys.map fun k => gross (lineAt b k)).sum,
      s.2 ++ keys.map fun k => newDriver (lineAt b k)) := by
  induction keys generalizing s with
  | nil => simp
  | cons key keys ih =>
    rw [List.forall_mem_cons] at hkb
    rw [List.foldlM_cons]
    simp only [newStep, get?_eq_lineAt hkb.1, bind, Option.bind, pure]
    rw [ih hkb.2]
    simp [newDriver, add_assoc]

theorem foldlM_discStep (hka : ∀ k ∈ keys, k ∈ a.keys) (s : ℚ × List BridgeDriver) :
    keys.foldlM (discStep a) s = some (s.1 - (keys.map fun k => gross (lineAt a k)).sum,
      s.2 ++ keys.map fun k => discDriver (lineAt a k)) := by
  induction keys generalizing s with
  | nil => simp
  | cons key keys ih =>
    rw [List.forall_mem_cons] at hka
    rw [List.foldlM_cons]
    simp only [discStep, get?_eq_lineAt hka.1, bind, Option.bind, pure]
    rw [ih hka.2]
    simp [discDriver, sub_sub]

end Loops

theorem bridgeEffects_eq (ord : SetOrder) (aLines bLines : List ProfitProductLine) :
    bridgeEffects ord aLines bLines =
      some (effectsOf (byId aLines) (byId bLines)
        (ord.order (commonKeys (byId aLines) (byId bLines)))
        (ord.order (onlyKeys (byId bLines) (byId aLines)))
        (ord.order (onlyKeys (byId aLines) (byId bLines)))) := by
  have hcommon : ∀ k ∈ ord.order (commonKeys (byId aLines) (byId bLines)),
      k ∈ (byId aLines).keys ∧ k ∈ (byId bLines).keys :=
    fun k hk => mem_commonKeys.mp ((ord.perm _).subset hk)
  -- folded lines have positive quantities, so none of the divisions fails
  have hs := foldlM_commonStep (fun k hk => lineAt_quantity_pos (hcommon k hk).1)
    (fun k hk => lineAt_quantity_pos (hcommon k hk).2) (fun k hk => (hcommon k hk).1)
    (fun k hk => (hcommon k hk).2) {}
  have hstart : CommonSums.add {} (commonSums (byId aLines) (byId bLines)
      (ord.order (commonKeys (byId aLines) (byId bLines)))) = commonSums (byId aLines)
        (byId bLines) (ord.order (commonKeys (byId aLines) (byId bLines))) := by
    simp [CommonSums.add]
  rw [hstart] at hs
  have hnew := foldlM_newStep
    (fun k (hk : k ∈ ord.order (onlyKeys (byId bLines) (byId aLines))) =>
      (mem_onlyKeys.mp ((ord.perm _).subset hk)).1)
    (0, (commonSums (byId aLines) (byId bLines)
      (ord.order (commonKeys (byId aLines) (byId bLines)))).drivers)
  have hdisc := foldlM_discStep
    (fun k (hk : k ∈ ord.order (onlyKeys (byId aLines) (byId bLines))) =>
      (mem_onlyKeys.mp ((ord.perm _).subset hk)).1)
  simp only [commonKeys, onlyKeys] at hs hnew hdisc ⊢
  simp only [bridgeEffects, hs, volumeEffect_eq, hnew, hdisc, bind, Option.bind, pure]
  simp [effectsOf, driversOf, commonSums]

theorem profitBridge_eq (ord : SetOrder) (aLines bLines : List ProfitProductLine) (topN : ℤ) :
    profitBridge ord aLines bLines topN =
      some (publish topN (effectsOf (byId aLines) (byId bLines)
        (ord.order (commonKeys (byId aLines) (byId bLines)))
        (ord.order (onlyKeys (byId bLines) (byId aLines)))
        (ord.order (onlyKeys (byId aLines) (byId bLines))))) := by
  rw [profitBridge, bridgeEffects_eq, Option.map_some]

end Chic.Bridge
