import Chic.Json
import Chic.PyText

namespace Chic.Cache
open Json (strs)

structure ListOptions where
  search : String := ""
  filter : List String := []
  expand : List String := []
  limit : ℤ := 0
  order : String := ""
  deriving DecidableEq

structure ProfitOptions where
  from_ : String := ""
  to_ : String := ""
  filter : List String := []
  limit : ℤ := 0
  deriving DecidableEq

structure StockOptions where
  stockMode : String := ""
  groupBy : String := ""
  moment : String := ""
  storeId : String := ""
  filter : List String := []
  limit : ℤ := 0
  deriving DecidableEq

structure DocumentQuery where
  from_ : String := ""
  to_ : String := ""
  counterpartyId : String := ""
  stateId : String := ""
  organizationId : String := ""
  storeId : String := ""
  filter : List String := []
  search : String := ""
  expand : List String := []
  limit : ℤ := 0
  order : String := ""
  deriving DecidableEq

section ModelDump

def ListOptions.modelDump (o : ListOptions) : Json :=
  .obj [("search", .str o.search), ("filter", strs o.filter), ("expand", strs o.expand),
    ("limit", .int o.limit), ("order", .str o.order)]

def ProfitOptions.modelDump (o : ProfitOptions) : Json :=
  .obj [("from_", .str o.from_), ("to", .str o.to_), ("filter", strs o.filter),
    ("limit", .int o.limit)]

def StockOptions.modelDump (o : StockOptions) : Json :=
  .obj [("stock_mode", .str o.stockMode), ("group_by", .str o.groupBy), ("moment", .str o.moment),
    ("store_id", .str o.storeId), ("filter", strs o.filter), ("limit", .int o.limit)]

def DocumentQuery.modelDump (q : DocumentQuery) : Json :=
  .obj [("from_", .str q.from_), ("to", .str q.to_), ("counterparty_id", .str q.counterpartyId),
    ("state_id", .str q.stateId), ("organization_id", .str q.organizationId),
    ("store_id", .str q.storeId), ("filter", strs q.filter), ("search", .str q.search),
    ("expand", strs q.expand), ("limit", .int q.limit), ("order", .str q.order)]

@[simp] theorem ListOptions.modelDump_inj {o o' : ListOptions} :
    Json.sortKeys o.modelDump = Json.sortKeys o'.modelDump ↔ o = o' := by
  refine ⟨fun h => ?_, fun h => by rw [h]⟩
  have hfields := Json.sortFields_inj h rfl (by simp)
  cases o
  cases o'
  simpa [Json.sortFields, Json.sortKeys] using hfields

@[simp] theorem ProfitOptions.modelDump_inj {o o' : ProfitOptions} :
    Json.sortKeys o.modelDump = Json.sortKeys o'.modelDump ↔ o = o' := by
  refine ⟨fun h => ?_, fun h => by rw [h]⟩
  have hfields := Json.sortFields_inj h rfl (by simp)
  cases o
  cases o'
  simpa [Json.sortFields, Json.sortKeys] using hfields

@[simp] theorem StockOptions.modelDump_inj {o o' : StockOptions} :
    Json.sortKeys o.modelDump = Json.sortKeys o'.modelDump ↔ o = o' := by
  refine ⟨fun h => ?_, fun h => by rw [h]⟩
  have hfields := Json.sortFields_inj h rfl (by simp)
  cases o
  cases o'
  simpa [Json.sortFields, Json.sortKeys] using hfields

@[simp] theorem DocumentQuery.modelDump_inj {q q' : DocumentQuery} :
    Json.sortKeys q.modelDump = Json.sortKeys q'.modelDump ↔ q = q' := by
  refine ⟨fun h => ?_, fun h => by rw [h]⟩
  have hfields := Json.sortFields_inj h rfl (by simp)
  cases q
  cases q'
  simpa [Json.sortFields, Json.sortKeys] using hfields

end ModelDump

inductive Method
  | listProducts | searchCounterparties | accountCurrency | listEntityRefs | searchAssortment
  | listStates | getDashboard | profitByProduct | profitByEntity | getTurnover | getStock
  | getCounterpartyReport | getMoneySeries | getStockByStore | getSalesSeries | getAudit
  | searchDocuments | getDocument
  deriving DecidableEq

def Method.name : Method → String
  | listProducts => "ListProducts"
  | searchCounterparties => "SearchCounterparties"
  | accountCurrency => "AccountCurrency"
  | listEntityRefs => "ListEntityRefs"
  | searchAssortment => "SearchAssortment"
  | listStates => "ListStates"
  | getDashboard => "GetDashboard"
  | profitByProduct => "ProfitByProduct"
  | profitByEntity => "ProfitByEntity"
  | getTurnover => "GetTurnover"
  | getStock => "GetStock"
  | getCounterpartyReport => "GetCounterpartyReport"
  | getMoneySeries => "GetMoneySeries"
  | getStockByStore => "GetStockByStore"
  | getSalesSeries => "GetSalesSeries"
  | getAudit => "GetAudit"
  | searchDocuments => "SearchDocuments"
  | getDocument => "GetDocument"

/-- A method with its arguments. A document type is a `StrEnum`, equal to its text and sent as
that. -/
inductive Call
  | listProducts (opts : ListOptions)
  | searchCounterparties (opts : ListOptions)
  | accountCurrency
  | listEntityRefs (entity : String) (opts : ListOptions)
  | searchAssortment (opts : ListOptions)
  | listStates (docType : String)
  | getDashboard (period : String)
  | profitByProduct (variant : Bool) (opts : ProfitOptions)
  | profitByEntity (dimension : String) (opts : ProfitOptions)
  | getTurnover (opts : ProfitOptions)
  | getStock (opts : StockOptions)
  | getCounterpartyReport (filters : List String) (limit : ℤ)
  | getMoneySeries (dateFrom dateTo interval : String)
  | getStockByStore (opts : StockOptions)
  | getSalesSeries (kind dateFrom dateTo interval storeId organizationId projectId : String)
  | getAudit (filters : List String) (limit : ℤ)
  | searchDocuments (docType : String) (query : DocumentQuery)
  | getDocument (docType docId : String) (expand : List String)
  deriving DecidableEq

namespace Call

def method : Call → Method
  | listProducts _ => .listProducts
  | searchCounterparties _ => .searchCounterparties
  | accountCurrency => .accountCurrency
  | listEntityRefs _ _ => .listEntityRefs
  | searchAssortment _ => .searchAssortment
  | listStates _ => .listStates
  | getDashboard _ => .getDashboard
  | profitByProduct _ _ => .profitByProduct
  | profitByEntity _ _ => .profitByEntity
  | getTurnover _ => .getTurnover
  | getStock _ => .getStock
  | getCounterpartyReport _ _ => .getCounterpartyReport
  | getMoneySeries _ _ _ => .getMoneySeries
  | getStockByStore _ => .getStockByStore
  | getSalesSeries _ _ _ _ _ _ _ => .getSalesSeries
  | getAudit _ _ => .getAudit
  | searchDocuments _ _ => .searchDocuments
  | getDocument _ _ _ => .getDocument

def params : Call → Json
  | listProducts opts => opts.modelDump
  | searchCounterparties opts => opts.modelDump
  | accountCurrency => .null
  | listEntityRefs entity opts => .arr [.str entity, opts.modelDump]
  | searchAssortment opts => opts.modelDump
  | listStates docType => .str docType
  | getDashboard period => .str period
  | profitByProduct variant opts => .arr [.bool variant, opts.modelDump]
  | profitByEntity dimension opts => .arr [.str dimension, opts.modelDump]
  | getTurnover opts => opts.modelDump
  | getStock opts => opts.modelDump
  | getCounterpartyReport filters limit => .arr [strs filters, .int limit]
  | getMoneySeries dateFrom dateTo interval => .arr [.str dateFrom, .str dateTo, .str interval]
  | getStockByStore opts => opts.modelDump
  | getSalesSeries kind dateFrom dateTo interval storeId organizationId projectId =>
    .arr [.str kind, .str dateFrom, .str dateTo, .str interval, .str storeId,
      .str organizationId, .str projectId]
  | getAudit filters limit => .arr [strs filters, .int limit]
  | searchDocuments docType query => .arr [.str docType, query.modelDump]
  | getDocument docType docId expand => .arr [.str docType, .str docId, strs expand]

theorem params_inj {c c' : Call} (hm : c.method = c'.method)
    (h : Json.sortKeys c.params = Json.sortKeys c'.params) : c = c' := by
  cases c <;> cases c' <;> cases hm
  case accountCurrency.accountCurrency => rfl
  all_goals simpa [params, Json.sortKeys, Json.sortItems] using h

end Call

section Key

theorem Method.name_injective : Function.Injective Method.name := by
  intro a b h
  cases a <;> cases b <;> first | rfl | exact absurd h (by decide)

theorem Method.marks_not_mem_name (m : Method) :
    '\x00' ∉ m.name.toList ∧ ':' ∉ m.name.toList := by
  cases m <;> decide

/-- Texts that a mark ends are cut there in one way. -/
theorem cut_inj (mark : Char) {a b s t : String} (ha : mark ∉ a.toList) (hb : mark ∉ b.toList)
    (h : a ++ String.singleton mark ++ s = b ++ String.singleton mark ++ t) : a = b ∧ s = t := by
  have hlist := congrArg String.toList h
  simp only [String.toList_append, String.toList_singleton, List.append_assoc, List.cons_append,
    List.nil_append] at hlist
  suffices hsplit : a.toList = b.toList ∧ s.toList = t.toList from
    ⟨String.toList_inj.mp hsplit.1, String.toList_inj.mp hsplit.2⟩
  rcases List.append_eq_append_iff.mp hlist with ⟨c, hc, hrest⟩ | ⟨c, hc, hrest⟩
  · cases c with
    | nil => exact ⟨by rw [hc, List.append_nil], (List.cons.inj hrest).2⟩
    | cons d c =>
      rw [hc, ← (List.cons.inj hrest).1] at hb
      exact (hb (by simp)).elim
  · cases c with
    | nil => exact ⟨by rw [hc, List.append_nil], (List.cons.inj hrest).2.symm⟩
    | cons d c =>
      rw [hc, ← (List.cons.inj hrest).1] at ha
      exact (ha (by simp)).elim

/-- What `_key` hashes. -/
def keyBytes (c : Call) : ByteArray :=
  c.method.name.toUTF8 ++ ⟨#[0]⟩ ++ (Json.dumps c.params).toUTF8

theorem keyBytes_eq (c : Call) :
    keyBytes c = (c.method.name ++ String.singleton '\x00' ++ Json.dumps c.params).toUTF8 := by
  simp only [keyBytes, String.toUTF8_eq_toByteArray, String.toByteArray_append]
  rfl

theorem keyBytes_injective : Function.Injective keyBytes := by
  intro c c' h
  rw [keyBytes_eq, keyBytes_eq] at h
  have hcut := cut_inj '\x00' c.method.marks_not_mem_name.1 c'.method.marks_not_mem_name.1
    (String.toByteArray_inj.mp h)
  exact Call.params_inj (Method.name_injective hcut.1) (Json.sortKeys_eq_of_dumps hcut.2)

/-- The sixteen hexadecimal digits of the hash that go into the key. -/
def keyDigest (hexdigest : ByteArray → String) (c : Call) : String :=
  PyText.take 16 (hexdigest (keyBytes c))

def key (hexdigest : ByteArray → String) (c : Call) : String :=
  c.method.name ++ ":" ++ keyDigest hexdigest c

theorem keyDigest_of_key {hexdigest : ByteArray → String} {c c' : Call}
    (h : key hexdigest c = key hexdigest c') : keyDigest hexdigest c = keyDigest hexdigest c' :=
  (cut_inj ':' c.method.marks_not_mem_name.2 c'.method.marks_not_mem_name.2 h).2

end Key

end Chic.Cache
