import Chic.WebhookRuns

namespace Chic.Bot
open AppDb (UserId)
open Effects Telegram
open ChicBot

variable {bot : ChicBot} {w : World Effect Answer Dedupe Request} {i : ℕ}

theorem ChicBot.Chosen.mem {m : Message} {p : PhotoSize} (h : Chosen m p) : p ∈ m.photo :=
  List.argmax_mem h.largest

theorem ChicBot.Chosen.le {m : Message} {p q : PhotoSize} (h : Chosen m p) (hq : q ∈ m.photo) :
    q.width * q.height ≤ p.width * p.height := List.le_of_mem_argmax hq h.largest

def imageBytes (uri : String) : Option (List (Fin 256)) :=
  let head := "data:image/jpeg;base64,".toList
  if head.isPrefixOf uri.toList then Base64.decode (uri.toList.drop head.length) else none

theorem imageBytes_encode (data : List (Fin 256)) :
    imageBytes ("data:image/jpeg;base64," ++ String.ofList (Base64.encode data)) = some data := by
  rw [imageBytes, String.toList_append, String.toList_ofList,
    if_pos (List.isPrefixOf_iff_prefix.mpr (List.prefix_append _ _)), List.drop_left,
    String.toList_ofList, Base64.decode_encode]

/-- However the deliveries are interleaved, an image that the agent is given with a turn is, byte for
byte, what was downloaded for this very message: a photo of its sender, no other of the message
larger, of at most 20 MB by every size that is known of it. -/
theorem image_provenance {es : List (Effects.Event Effect Answer Request)}
    (h : Trace.run bot.server.step bot.server.start es = some w) {userId : UserId}
    {text image : String} {r : Option Result}
    (hlog : (i, ⟨.handle userId text image, r⟩) ∈ w.log) (himage : image ≠ "") :
    ∃ u m p file path data, bot.Admitted w.inputs i u (.message m) ∧ m.fromUser = some userId ∧
      userId ∈ bot.allowed ∧ text = m.caption.getD "" ∧
      p ∈ m.photo ∧ (∀ q ∈ m.photo, q.width * q.height ≤ p.width * p.height) ∧
      (i, ⟨.getFile p.fileId, some file⟩) ∈ w.log ∧ file.filePath = some path ∧
      (i, ⟨.downloadFile path, some data⟩) ∈ w.log ∧ imageBytes image = some data ∧
      ∀ size, p.fileSize = some size ∨ file.fileSize = some size ∨ data.length = size →
        size ≤ maxPhotoBytes := by
  obtain ⟨l, l', hsplit⟩ := List.append_of_mem hlog
  obtain ⟨u, event, hadmitted, hkeeps⟩ := run_keeps h hsplit
  have hinlog : ∀ d : Done Effect Answer, d ∈ past i l → (i, d) ∈ w.log := fun d hd => by
    rw [hsplit]
    exact List.mem_append_left _ (mem_past hd)
  have hsmall : ∀ {size : Option ℕ} {n : ℕ}, tooLarge size = false → size = some n →
      n ≤ maxPhotoBytes := by
    rintro _ n hsize rfl
    exact not_lt.mp (of_decide_eq_false hsize)
  rcases hkeeps.allowed_or with ⟨v, hallowed, huser, hpermitted⟩ | ⟨-, hrefused⟩
  swap
  · cases hrefused
  cases hpermitted.userId_eq rfl
  obtain ⟨⟩ := hpermitted
  -- typed texts, menu buttons and options put no image
  case handle hquestion =>
    cases hquestion with
    | photo m path data hcommand hlocated hdata hlength =>
      obtain ⟨p, file, hp, hfile, hfilesize, hpath⟩ := hlocated
      refine ⟨u, m, p, file, path, data, hadmitted, huser, hallowed, rfl, hp.mem, fun q => hp.le,
        hinlog _ hfile, hpath, hinlog _ hdata, imageBytes_encode data, ?_⟩
      rintro size (hsize | hsize | rfl)
      · exact hsmall hp.size hsize
      · exact hsmall hfilesize hsize
      · exact hlength
    | typed => exact absurd rfl himage
    | menu => exact absurd rfl himage
    | option => exact absurd rfl himage

def receipt : Message :=
  { textMessage 1 "" with
    text := none
    caption := some "чек"
    photo := [⟨"small", 90, 60, none⟩, ⟨"large", 900, 600, some 4⟩] }

def receiptBytes : List (Fin 256) := [255, 216, 255, 217].map UInt8.toFin

def receiptEvents : List (Effects.Event Effect Answer Request) :=
  [.input (delivered 7 (.message receipt)),
    .act 0 ⟨.getFile "large", some ⟨some 4, some "photos/1.jpg"⟩⟩,
    .input (delivered 8 (.message (textMessage 1 "продажи"))),
    .act 1 ⟨.handle 1 "продажи" "", none⟩,
    .act 0 ⟨.downloadFile "photos/1.jpg", some receiptBytes⟩,
    .act 0 ⟨.handle 1 "чек" "data:image/jpeg;base64,/9j/2Q==", some ⟨"12 шт.", [], false⟩⟩]

theorem receipt_image : ∃ w p file path,
    Trace.run shopBot.server.step shopBot.server.start receiptEvents = some w ∧ p ∈ receipt.photo ∧
      (0, ⟨.getFile p.fileId, some file⟩) ∈ w.log ∧ file.filePath = some path ∧
      (0, ⟨.downloadFile path, some receiptBytes⟩) ∈ w.log := by
  have h : (Trace.run shopBot.server.step shopBot.server.start receiptEvents).map
      (fun w => (w.inputs[0]?, w.log.getLast?)) =
        some (some (delivered 7 (.message receipt)),
          some (0, ⟨.handle 1 "чек" "data:image/jpeg;base64,/9j/2Q==", some ⟨"12 шт.", [], false⟩⟩)) := by
    decide +kernel
  obtain ⟨w, hrun, heq⟩ := Option.map_eq_some_iff.mp h
  obtain ⟨hinput, hlast⟩ := Prod.mk.inj heq
  obtain ⟨u, m, p, file, path, data, hadmitted, -, -, -, hp, -, hfile, hpath, hdata, hbytes, -⟩ :=
    image_provenance hrun (List.mem_of_getLast? hlast) (by decide)
  have himage : imageBytes "data:image/jpeg;base64,/9j/2Q==" = some receiptBytes := by
    decide +kernel
  obtain ⟨r, hr, -, -, hbody⟩ := hadmitted.request
  obtain rfl := Option.some.inj (hinput.symm.trans hr)
  obtain rfl := Option.some.inj hbody
  cases hadmitted.event
  cases himage.symm.trans hbytes
  exact ⟨w, p, file, path, hrun, hp, hfile, hpath, hdata⟩

end Chic.Bot
