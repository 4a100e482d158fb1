import Chic.CacheKey
import Chic.DocumentRequest
import Chic.GrowingPages
import Chic.Moments
import Chic.Pagination
import Chic.ReportLaws

namespace Chic.Pagination

/-- A collection on the service into which rows are put while its pages are read. The answer to any
page may be an error, and `meta.size` is the length of the list at that moment or 0, as it likes. -/
structure GrowingServer (T ε : Type*) extends GrowingList T where
  size : ℕ → ℕ → ℤ
  size_eq : ∀ p o, size p o = (rows o).length ∨ size p o = 0
  error : ℕ → Option ε

variable {T ε : Type*}

def GrowingServer.answer (srv : GrowingServer T ε) (p o : ℕ) : Except ε (ListResponse T) :=
  match srv.error o with
  | some e => .error e
  | none => .ok { size := srv.size p o, rows := srv.page p o }

section
variable {srv : GrowingServer T ε} {p : ℕ} {t : ℤ} {s s' : PageState T} {r : Except ε (List T)}

theorem paginateBody_error {e : ε} (h : srv.error s.offset = some e) :
    paginateBody srv.answer p t s = .inr (.error e) := by
  simp only [paginateBody, GrowingServer.answer, h]

theorem paginateBody_ok (ht : t ≤ 0) (h : srv.error s.offset = none) :
    (paginateBody srv.answer p t s = .inr (.ok (s.rows ++ srv.page p s.offset)) ∧
        (srv.rows s.offset).length ≤ s.offset + p) ∨
      (paginateBody srv.answer p t s = .inl ⟨s.rows ++ srv.page p s.offset, s.offset + p⟩ ∧
        p ≤ (srv.page p s.offset).length) := by
  have hsize := srv.size_eq p s.offset
  simp only [paginateBody, GrowingServer.answer, h]
  split_ifs with hshort hlimit hend
  · rw [GrowingList.length_page] at hshort
    exact .inl ⟨rfl, by omega⟩
  · omega
  · exact .inl ⟨rfl, by omega⟩
  · exact .inr ⟨rfl, by omega⟩

/-- The loop invariant. -/
def Reads (srv : GrowingServer T ε) (p : ℕ) (s : PageState T) : Prop :=
  srv.Read p s.offset s.rows

/-- The two ways in which the call ends: with the error of a page, or with what a reading of the
growing list gives. -/
def PaginationEnds (srv : GrowingServer T ε) (p : ℕ) (r : Except ε (List T)) : Prop :=
  (∃ o e, srv.error o = some e ∧ r = .error e) ∨ ∃ o acc, srv.Ended p o acc ∧ r = .ok acc

theorem Reads.again (ht : t ≤ 0) (hs : Reads srv p s)
    (hbody : paginateBody srv.answer p t s = .inl s') :
    Reads srv p s' ∧ s'.offset = s.offset + p := by
  cases herror : srv.error s.offset with
  | some e =>
    rw [paginateBody_error herror] at hbody
    cases hbody
  | none =>
    rcases paginateBody_ok (p := p) ht herror with ⟨heq, -⟩ | ⟨heq, hfull⟩
    · rw [heq] at hbody
      cases hbody
    · rw [heq] at hbody
      cases hbody
      exact ⟨hs.next hfull, rfl⟩

theorem Reads.stop (ht : t ≤ 0) (hs : Reads srv p s)
    (hbody : paginateBody srv.answer p t s = .inr r) : PaginationEnds srv p r := by
  cases herror : srv.error s.offset with
  | some e =>
    rw [paginateBody_error herror] at hbody
    cases hbody
    exact .inl ⟨_, e, herror, rfl⟩
  | none =>
    rcases paginateBody_ok (p := p) ht herror with ⟨heq, hend⟩ | ⟨heq, -⟩
    · rw [heq] at hbody
      cases hbody
      exact .inr ⟨_, _, hs.last hend, rfl⟩
    · rw [heq] at hbody
      cases hbody

variable {client : MoyskladClient} {pageSize : Option ℕ}

theorem reads_start (srv : GrowingServer T ε) (p : ℕ) : Reads srv p ⟨[], 0⟩ := srv.read_nil p

/-- Whatever is put in while the pages are read. -/
theorem paginates_growing (ht : t ≤ 0) (h : client.Paginates srv.answer t pageSize r) :
    PaginationEnds srv (client.pageSize pageSize t) r :=
  h.post (Reads srv (client.pageSize pageSize t)) _ (fun _ _ hs hbody => (hs.again ht hbody).1)
    (fun _ _ hs hbody => hs.stop ht hbody) (reads_start srv _)

variable (client pageSize) in
theorem exists_paginates (ht : t ≤ 0) {bound : ℕ} (hbound : ∀ o, (srv.rows o).length ≤ bound) :
    ∃ r, client.Paginates srv.answer t pageSize r := by
  have hp := client.pageSize_pos pageSize t
  have hagain : ∀ s s', Reads srv (client.pageSize pageSize t) s →
      paginateBody srv.answer (client.pageSize pageSize t) t s = .inl s' →
        Reads srv (client.pageSize pageSize t) s' ∧ bound - s'.offset < bound - s.offset := by
    intro s s' hs hbody
    obtain ⟨hs', hoffset⟩ := hs.again ht hbody
    have hle : s'.offset ≤ bound := hs'.offset_le.trans (hbound _)
    exact ⟨hs', by omega⟩
  obtain ⟨r, hr, -⟩ := While.returns_of_variant _ (fun _ => True) _ hagain
    (fun _ _ _ _ => trivial) ⟨[], 0⟩ (reads_start srv _)
  exact ⟨r, hr⟩

end

end Chic.Pagination

namespace Chic.Moysklad
open Cache (DocumentQuery)
open Money (minorToMajor)
open Pagination

def defaultBaseUrl : String := "https://api.moysklad.ru/api/remap/1.2"

/-- `DocumentQuery.values`. -/
def documentValues (q : DocumentQuery) (baseUrl : String) : List (String × String) :=
  let momentFrom := normalizeMoment q.from_
  let momentTo := normalizeMomentEnd q.to_
  let filters :=
    (if momentFrom = "" then [] else ["moment>=" ++ momentFrom]) ++
      (if momentTo = "" then [] else ["moment<=" ++ momentTo]) ++
      (if q.counterpartyId = "" then []
        else ["agent=" ++ baseUrl ++ "/entity/counterparty/" ++ q.counterpartyId]) ++ q.filter
  filters.map (fun f => ("filter", f)) ++
    (if q.search = "" then [] else [("search", q.search)]) ++
    (if q.expand = [] then [] else [("expand", ",".intercalate q.expand)]) ++
    (if q.order = "" then [] else [("order", q.order)])

def searchDocuments (baseUrl docType : String) (query : DocumentQuery) : Option ApiRequest :=
  if validDocumentType docType then
    some
      { path := "/entity/" ++ docType
        params := documentValues query baseUrl ++
          (if query.organizationId = "" then []
            else [("filter", "organization=" ++ baseUrl ++ "/entity/organization/" ++
              query.organizationId)]) ++
          (if query.storeId = "" then []
            else [("filter", "store=" ++ baseUrl ++ "/entity/store/" ++ query.storeId)]) ++
          (if query.stateId = "" then []
            else [("filter", "state=" ++ baseUrl ++ "/entity/" ++ docType ++ "/metadata/states/" ++
              query.stateId)]) }
  else none

structure SearchArgs where
  dateFrom : String := ""
  dateTo : String := ""
  counterpartyId : String := ""
  organizationId : String := ""
  storeId : String := ""
  stateId : String := ""
  search : String := ""
  limit : ℤ := 100

def searchQuery (type : DocumentType) (args : SearchArgs) : DocumentQuery where
  from_ := args.dateFrom
  to_ := args.dateTo
  counterpartyId := args.counterpartyId
  organizationId := args.organizationId
  storeId := args.storeId
  stateId := args.stateId
  search := args.search
  order := "moment,desc"
  expand := if hasCurrency type.value then ["rate.currency"] else []

/-- The tool `search_documents` ends with the result, by the answers of the service to the pages of
each request. -/
def SearchDocumentsTool {ε : Type*} (client : MoyskladClient)
    (service : ApiRequest → ℕ → ℕ → Except ε (ListResponse Document)) (type : DocumentType)
    (args : SearchArgs) (result : Except ε (Report DocumentSummary DocumentTotals)) : Prop :=
  let query := searchQuery type args
  ∃ request, searchDocuments defaultBaseUrl type.value query = some request ∧
    ∃ docs, client.Paginates (service request) query.limit none docs ∧
      result = docs.map fun docs => documentReport docs (clampLimit args.limit)

section
variable {ε : Type*} {client : MoyskladClient} {service : ApiRequest → GrowingServer Document ε}
  {type : DocumentType} {args : SearchArgs} {docs docs' extra : List Document} {limit : ℤ}

theorem exists_searchDocuments (baseUrl : String) (type : DocumentType) (query : DocumentQuery) :
    ∃ request, searchDocuments baseUrl type.value query = some request := by
  rw [searchDocuments, if_pos (validDocumentType_value type)]
  exact ⟨_, rfl⟩

theorem pageSize_none (client : MoyskladClient) : client.pageSize none 0 = client.pageLimit := by
  rw [MoyskladClient.pageSize, if_neg (by simp)]
  rfl

theorem documentReport_total {m : (DocumentTotals → ℚ) × (DocumentSummary → ℚ)}
    (hm : m ∈ [(DocumentTotals.sum, DocumentSummary.sum),
      (DocumentTotals.paid, DocumentSummary.paid)])
    (hperm : docs.Perm (docs' ++ extra)) (limit : ℤ) :
    m.1 (documentReport docs limit).totals = (docs'.map fun d => m.2 (documentSummaryOf d)).sum +
      (extra.map fun d => m.2 (documentSummaryOf d)).sum := by
  have hrows : (documentReport docs 0).rows = docs.map documentSummaryOf := capped_rows_zero _ _
  rw [documentReport_law.sums m hm docs limit, hrows, List.map_map, (hperm.map _).sum_eq,
    List.map_append, List.sum_append]
  rfl

theorem documentReport_rowCount (docs : List Document) (limit : ℤ) :
    (documentReport docs limit).rowCount = docs.length := by
  rw [documentReport, capped_rowCount, List.length_map]

theorem documentReport_rows (hlimit : 0 < limit) :
    (documentReport docs limit).rows = (docs.take limit.toNat).map documentSummaryOf := by
  rw [documentReport, capped_rows, if_neg (by omega), List.map_take]

end

def shipment (id : String) (sum : ℚ) : Document where
  id := id
  name := id
  moment := "2026-03-01 10:00:00"
  applicable := true
  sum := sum
  payedSum := 0
  agent := none
  store := none
  salesChannel := none
  state := none
  rate := none

def shipmentsAt (o : ℕ) : List Document :=
  let known := [shipment "3" 30000, shipment "2" 12000, shipment "1" 8000]
  if o = 0 then known else shipment "4" 25000 :: known

theorem shipmentsAt_grow {o o' : ℕ} (h : o ≤ o') : (shipmentsAt o).Sublist (shipmentsAt o') := by
  rw [shipmentsAt, shipmentsAt]
  split_ifs with ho ho' ho'
  · exact .refl _
  · exact List.sublist_cons_self _ _
  · omega
  · exact .refl _

theorem shipmentsAt_size (_p o : ℕ) : (0 : ℤ) = (shipmentsAt o).length ∨ (0 : ℤ) = 0 := .inr rfl

def shipments : GrowingServer Document Unit where
  rows := shipmentsAt
  grows := shipmentsAt_grow
  size _ _ := 0
  size_eq := shipmentsAt_size
  error _ := none

end Chic.Moysklad
