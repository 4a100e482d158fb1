import Chic.PercentEncoding
import Mathlib.Data.List.Basic

namespace Chic.Moysklad
open PercentEncoding

inductive DocumentType
  | demand
  | customerOrder
  | supply
  | purchaseOrder
  | internalOrder
  | invoiceOut
  | invoiceIn
  | salesReturn
  | purchaseReturn
  | paymentIn
  | paymentOut
  | cashIn
  | cashOut
  | commissionReportIn
  | commissionReportOut
  | factureOut
  | factureIn
  | counterpartyAdjustment
  | prepayment
  | prepaymentReturn
  | retailDemand
  | retailSalesReturn
  | retailShift
  | retailDrawerCashIn
  | retailDrawerCashOut
  | move
  | inventory
  | loss
  | enter
  | processing
  deriving DecidableEq

def DocumentType.value : DocumentType → String
  | demand => "demand"
  | customerOrder => "customerorder"
  | supply => "supply"
  | purchaseOrder => "purchaseorder"
  | internalOrder => "internalorder"
  | invoiceOut => "invoiceout"
  | invoiceIn => "invoicein"
  | salesReturn => "salesreturn"
  | purchaseReturn => "purchasereturn"
  | paymentIn => "paymentin"
  | paymentOut => "paymentout"
  | cashIn => "cashin"
  | cashOut => "cashout"
  | commissionReportIn => "commissionreportin"
  | commissionReportOut => "commissionreportout"
  | factureOut => "factureout"
  | factureIn => "facturein"
  | counterpartyAdjustment => "counterpartyadjustment"
  | prepayment => "prepayment"
  | prepaymentReturn => "prepaymentreturn"
  | retailDemand => "retaildemand"
  | retailSalesReturn => "retailsalesreturn"
  | retailShift => "retailshift"
  | retailDrawerCashIn => "retaildrawercashin"
  | retailDrawerCashOut => "retaildrawercashout"
  | move => "move"
  | inventory => "inventory"
  | loss => "loss"
  | enter => "enter"
  | processing => "processing"

/-- `_DOCUMENT_TYPES`: the types in display order, and whether they carry a currency. -/
def documentTypes : List (DocumentType × Bool) :=
  [(.demand, true), (.customerOrder, true), (.supply, true), (.purchaseOrder, true),
    (.internalOrder, false), (.invoiceOut, true), (.invoiceIn, true), (.salesReturn, true),
    (.purchaseReturn, true), (.paymentIn, true), (.paymentOut, true), (.cashIn, true),
    (.cashOut, true), (.commissionReportIn, true), (.commissionReportOut, true),
    (.factureOut, false), (.factureIn, false), (.counterpartyAdjustment, true),
    (.prepayment, true), (.prepaymentReturn, true), (.retailDemand, true),
    (.retailSalesReturn, true), (.retailShift, true), (.retailDrawerCashIn, true),
    (.retailDrawerCashOut, true), (.move, false), (.inventory, false), (.loss, false),
    (.enter, false), (.processing, false)]

def currencyOf? (docType : String) : Option Bool :=
  (documentTypes.find? (·.1.value = docType)).map Prod.snd

def hasCurrency (docType : String) : Bool := (currencyOf? docType).getD false

def validDocumentType (s : String) : Bool := (currencyOf? s).isSome

def utf8 (s : String) : List (Fin 256) := s.toByteArray.data.toList.map UInt8.toFin

/-- `quote(s, safe='')`. -/
def quote (s : String) : String := String.ofList (encode (utf8 s))

structure ApiRequest where
  path : String
  params : List (String × String)
  deriving DecidableEq

/-- The request of `MoyskladClient.get_document`; an unsupported type raises. -/
def getDocument (docType docId : String) (expand : List String) : Option ApiRequest :=
  if validDocumentType docType then
    some
      { path := "/entity/" ++ docType ++ "/" ++ quote docId
        params := if expand ≠ [] then [("expand", ",".intercalate expand)] else [] }
  else none

section
variable {s t t' id id' : String} {c : Char} {expand expand' : List String} {r r' : ApiRequest}

theorem utf8_injective : Function.Injective utf8 := by
  intro s t h
  have hbytes := List.map_injective_iff.mpr (fun _ _ => UInt8.toFin_inj.mp) h
  exact String.toByteArray_inj.mp (ByteArray.ext (Array.toList_inj.mp hbytes))

theorem decode_quote (s : String) : decode (quote s).toList = some (utf8 s) := by
  rw [quote, String.toList_ofList, decode_encode]

theorem quote_injective : Function.Injective quote := fun s t h =>
  utf8_injective (Option.some.inj (by rw [← decode_quote, h, decode_quote]))

theorem mem_quote (h : c ∈ (quote s).toList) : c ∈ '%' :: unreserved := by
  rw [quote, String.toList_ofList] at h
  exact mem_encode h

theorem exists_type_of_valid (h : validDocumentType t) : ∃ d : DocumentType, d.value = t := by
  obtain ⟨x, hx⟩ := Option.isSome_iff_exists.mp h
  obtain ⟨d, hd, -⟩ := Option.map_eq_some_iff.mp hx
  exact ⟨d.1, by simpa using List.find?_some hd⟩

theorem validDocumentType_value (d : DocumentType) : validDocumentType d.value := by
  cases d <;> decide +kernel

theorem not_mem_of_valid (h : validDocumentType t) : '/' ∉ t.toList := by
  obtain ⟨d, rfl⟩ := exists_type_of_valid h
  cases d <;> decide +kernel

theorem getDocument_eq_some (h : getDocument t id expand = some r) : validDocumentType t ∧
    r.path = "/entity/" ++ t ++ "/" ++ quote id := by
  rw [getDocument] at h
  by_cases hvalid : validDocumentType t
  · rw [if_pos hvalid] at h
    exact ⟨hvalid, by rw [← Option.some.inj h]⟩
  · rw [if_neg hvalid] at h
    cases h

theorem segments (h : getDocument t id expand = some r) :
    r.path.toList.splitOn '/' = [[], "entity".toList, t.toList, (quote id).toList] := by
  obtain ⟨hvalid, hpath⟩ := getDocument_eq_some h
  have hsplit : r.path.toList =
      ['/'].intercalate [[], "entity".toList, t.toList, (quote id).toList] := by
    rw [hpath]
    simp [String.toList_append, List.intercalate]
  have hquote : '/' ∉ (quote id).toList := fun hc =>
    absurd (mem_quote hc) (by decide +kernel)
  rw [hsplit, List.splitOn_intercalate _ (fun l hl => ?_) (List.cons_ne_nil _ _)]
  simp only [List.mem_cons, List.not_mem_nil, or_false] at hl
  rcases hl with rfl | rfl | rfl | rfl
  · exact List.not_mem_nil
  · decide
  · exact not_mem_of_valid hvalid
  · exact hquote

theorem dot_iff (s : String) : quote s ∈ [".", ".."] ↔ s ∈ [".", ".."] := by
  have hdot : quote "." = "." := by decide +kernel
  have hdots : quote ".." = ".." := by decide +kernel
  simp only [List.mem_cons, List.not_mem_nil, or_false]
  refine or_congr ⟨fun h => ?_, fun h => h ▸ hdot⟩ ⟨fun h => ?_, fun h => h ▸ hdots⟩
  · exact quote_injective (h.trans hdot.symm)
  · exact quote_injective (h.trans hdots.symm)

end

/-- Whatever the id contains, it is one segment of the path and ends neither the path nor begins a
query; it is read back from it, and documents of different types or ids have different paths. Only the
ids of one dot and of two dots make a segment that is a dot segment. -/
theorem getDocument_path {t t' id id' : String} {expand expand' : List String} {r r' : ApiRequest}
    (h : getDocument t id expand = some r) (h' : getDocument t' id' expand' = some r') :
    (∃ segment, r.path.toList.splitOn '/' = [[], "entity".toList, t.toList, segment] ∧
        (∀ c ∈ segment, c ∈ '%' :: unreserved) ∧ decode segment = some (utf8 id) ∧
        (segment ∈ [['.'], ['.', '.']] ↔ id ∈ [".", ".."])) ∧
      (r.path = r'.path ↔ t = t' ∧ id = id') := by
  refine ⟨⟨(quote id).toList, segments h, fun c => mem_quote, decode_quote id, ?_⟩, ?_⟩
  · rw [← dot_iff]
    change (quote id).toList ∈ [".".toList, "..".toList] ↔ _
    simp only [List.mem_cons, List.not_mem_nil, or_false, String.toList_inj]
  · refine ⟨fun hpath => ?_, ?_⟩
    · have hsegments := (segments h).symm.trans (hpath ▸ segments h')
      simp only [List.cons.injEq, String.toList_inj, true_and, and_true] at hsegments
      exact ⟨hsegments.1, quote_injective hsegments.2⟩
    · rintro ⟨rfl, rfl⟩
      rw [(getDocument_eq_some h).2, (getDocument_eq_some h').2]

/-- An id that would reach for another document. -/
theorem getDocument_path_escaped :
    getDocument "demand" "../supply/1?a=%" [] = some ⟨"/entity/demand/..%2Fsupply%2F1%3Fa%3D%25", []⟩ ∧
      decode "..%2Fsupply%2F1%3Fa%3D%25".toList = some (utf8 "../supply/1?a=%") := by
  have hrequest : getDocument "demand" "../supply/1?a=%" [] =
      some ⟨"/entity/demand/..%2Fsupply%2F1%3Fa%3D%25", []⟩ := by decide +kernel
  obtain ⟨⟨segment, hsplit, -, hdecode, -⟩, -⟩ := getDocument_path hrequest hrequest
  have hsegment : "/entity/demand/..%2Fsupply%2F1%3Fa%3D%25".toList.splitOn '/' =
      [[], "entity".toList, "demand".toList, "..%2Fsupply%2F1%3Fa%3D%25".toList] := by decide +kernel
  obtain rfl : segment = "..%2Fsupply%2F1%3Fa%3D%25".toList := by
    simpa using (hsplit.symm.trans hsegment)
  exact ⟨hrequest, hdecode⟩

end Chic.Moysklad
