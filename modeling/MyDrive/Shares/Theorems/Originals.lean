import MyDrive.Shares.Theorems.Scope

namespace MyDrive.Shares

open Drive Transfers

-- No bytes of the answer are those of a payload.
def Answer.derived : Answer → Bool
  | .view _    => true
  | .payload r => r.body.derived

namespace Db

variable {db : Db} {now : Time} {request : Request} {id : Id} {share : Share} {a : Answer}
  {headers : RequestHeaders} {response : Response} {x : Id} [Digest]

theorem thumbnailShared_derived (h : db.thumbnailShared share x headers = .ok response) :
    response.body.derived = true := by
  simp only [thumbnailShared] at h
  obtain ⟨-, h⟩ := Except.ite_throw_eq_ok_iff.mp h
  exact Files.thumbnailResponse_derived (transfer_ok h)

variable [Services]

theorem not_downloadShared (hd : share.allowDownload = false) :
    db.downloadShared now share x headers ≠ .ok response := by
  simp [downloadShared, hd, throw, throwThe, MonadExceptOf.throw, bind, Except.bind]

theorem previewShared_derived (hd : share.allowDownload = false)
    (h : db.previewShared share x headers = .ok response) :
    response.body.derived = true ∨ db.files.InlineDocument share.ownerId x := by
  simp only [previewShared, hd, Bool.false_eq_true, if_false] at h
  obtain ⟨-, h⟩ := Except.ite_throw_eq_ok_iff.mp h
  cases ho : db.files.previewsOriginal share.ownerId x false
  case false => exact .inl (Files.previewResponseInner_derived (transfer_ok h) ho)
  case true  => exact .inr (Files.inlineDocument_of_previewsOriginal ho)

-- Where downloads are not allowed, a payload is served only as the preview of a PDF or of a text.
theorem original_is_document [Collation]
    (hf : db.fetchActiveShare now request.token = .ok (id, share))
    (hd : share.allowDownload = false) (h : db.answer now request = .ok a) :
    a.derived = true ∨
      ∃ x, request.endpoint = .preview x ∧ db.files.InlineDocument share.ownerId x := by
  obtain ⟨id', share', hf', -, ha⟩ := answer_ok h
  cases hf.symm.trans hf'
  cases he : request.endpoint <;> simp only [he, serve] at ha
  all_goals obtain ⟨r, hr, rfl⟩ := Except.map_eq_ok_iff.mp ha
  case view      => exact .inl rfl
  case download  => exact absurd hr (not_downloadShared hd)
  case preview x => exact (previewShared_derived hd hr).imp_right fun hx => ⟨x, rfl, hx⟩
  case thumbnail => exact .inl (thumbnailShared_derived hr)

end Db

section

attribute [local instance] Collation.binary Digest.hi Services.offline

def hiddenPhoto : Share where
  ownerId       := 7
  resource      := ⟨.file, 1⟩
  token         := 0
  allowDownload := false

-- A photo with an indexed derivative, shared without downloads.
def gallery : Db where
  files  := {
    entries     := ⟨[(1, ⟨7, none, .file, "p.jpg", none, none⟩)], by decide⟩
    files       := ⟨[(1, some 2)], by decide⟩
    versions    := ⟨[(2, ⟨1, 3, 4, 0⟩)], by decide⟩
    objects     := ⟨[(3, ⟨⟨4, some "5e", .ready, 0⟩, some "image/jpeg"⟩)], by decide⟩
    payloads    := ⟨[(3, [0xff, 0xd8, 0xff, 0xe0])], by decide⟩
    derivatives := ⟨[((2, .viewer, 1), ⟨"image/webp", 2, Digest.sha256 [104, 105]⟩)], by decide⟩
    previews    := some ⟨[((2, .viewer, 1), [104, 105])], by decide⟩ }
  index  := .empty
  albums := .empty
  items  := .empty
  shares := ⟨[(9, hiddenPhoto)], by decide⟩
  access := .empty
  linked := linked_of_all (by decide)
  owner  := by
    intro x e r _ hr
    simp at hr
  unique := by
    intro i j s t hs ht _
    cases List.mem_singleton.mp (Table.lookup_eq_some_iff.mp hs)
    cases List.mem_singleton.mp (Table.lookup_eq_some_iff.mp ht)
    rfl

def previewPhoto : Request where
  token    := "AAAAAAAAAAAAAAAAAAAAAAAAAAAAAAAAAAAAAAAAAAA"
  endpoint := .preview 1
  headers  := { range := some "bytes=0-0" }

def photoPreview : Response where
  status        := 206
  contentType   := .media .webp
  etag          := "\"" ++ Digest.sha256 [104, 105] ++ "\""
  lastModified  := some 0
  contentLength := some 1
  contentRange  := some (⟨0, 0⟩, 2)
  body          := .derivative [104]

theorem original_is_document_photo :
    gallery.answer 10 previewPhoto = .ok (.payload photoPreview) ∧
      ((Answer.payload photoPreview).derived = true ∨
        ∃ x, previewPhoto.endpoint = .preview x ∧ gallery.files.InlineDocument hiddenPhoto.ownerId x) := by
  have served : gallery.answer 10 previewPhoto = .ok (.payload photoPreview) := by decide +kernel
  have found : gallery.fetchActiveShare 10 previewPhoto.token = .ok (9, hiddenPhoto) := by
    decide +kernel
  exact ⟨served, Db.original_is_document found rfl served⟩

end
end MyDrive.Shares
