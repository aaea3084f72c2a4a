import MyDrive.Drive.Theorems.Requests
import MyDrive.Transfers.Responses

namespace MyDrive.Transfers

-- The bytes are not those of the payload.
def Body.derived : Body → Bool
  | .original _ => false
  | _           => true

namespace Files

open Drive

variable {f : Files} {owner id : Id} {headers : RequestHeaders} {headOnly inlinePreview : Bool}
  {allowOriginal : Bool} {entry : DownloadRecord} {response : Response} {r : Representation}

theorem mem_chainOf_iff {entries : Table Id Entry} {kind : Kind} {y : Id} {g : Entry} :
    (y, g) ∈ chainOf entries owner kind id ↔
      (∃ e, entries.lookup id = some e ∧ e.kind = kind) ∧ (y, g) ∈ parentChain entries owner id := by
  simp only [chainOf, parentChain, chain, Recursive.mem_rows_iff]
  constructor
  case mp =>
    rintro ⟨n, hn, ⟨x, e⟩, hm, hj⟩
    obtain ⟨rfl, he, hk⟩ := mem_rowAt_iff.mp hm
    simp only [Bool.and_eq_true, decide_eq_true_eq] at hk
    exact ⟨⟨e, he, hk.right⟩, n, hn, _, mem_rowAt_iff.mpr ⟨rfl, he, by simp [hk.left]⟩, hj⟩
  case mpr =>
    rintro ⟨⟨e, he, hk⟩, n, hn, ⟨x, e'⟩, hm, hj⟩
    obtain ⟨rfl, he', ho⟩ := mem_rowAt_iff.mp hm
    cases he.symm.trans he'
    exact ⟨n, hn, _, mem_rowAt_iff.mpr ⟨rfl, he, by simpa [hk] using ho⟩, hj⟩

theorem entry_of_loadDownloadRecord (linked : Linked f.entries)
    (h : f.loadDownloadRecord owner id = .ok entry) :
    ∃ e, f.entries.lookup id = some e ∧ e.ownerId = owner ∧ Active f.entries id := by
  simp only [loadDownloadRecord] at h
  split at h
  case h_1 => contradiction
  case h_2 he =>
    obtain ⟨e, hx, ho, -, ha⟩ := ensureActiveEntry_iff linked |>.mp he
    exact ⟨e, hx, ho, ha⟩

theorem openBody_derived {start length : Nat} {body : Body} (hd : r.derivative.isSome)
    (h : f.openBody entry r start length = .ok body) : body.derived = true := by
  obtain ⟨bytes, hb⟩ := Option.isSome_iff_exists.mp hd
  simp only [openBody, hb] at h
  cases h
  rfl

theorem orOriginal_derivative {original : Representation} {contentType : ContentType}
    {read : Except Unit (Option (List UInt8 × String))}
    (h : orOriginal false original contentType read = .ok r) : r.derivative.isSome := by
  simp only [orOriginal] at h
  split at h
  case h_1 => cases h; rfl
  case h_2 => contradiction

def found : Except Unit (Option (List UInt8 × String)) → Bool
  | .ok (some _) => true
  | _            => false

theorem orOriginal_found {original : Representation} {contentType : ContentType}
    {read : Except Unit (Option (List UInt8 × String))} (hr : found read = true)
    (h : orOriginal allowOriginal original contentType read = .ok r) : r.derivative.isSome := by
  simp only [found] at hr
  split at hr
  case h_1 => cases h; rfl
  case h_2 => contradiction

variable [Digest]

-- The image or video can be shown without its payload. Another file is not previewed from a
-- derivative, and a file without a type is not previewed at all.
def hasDerivative (f : Files) (entry : DownloadRecord) : Bool :=
  match f.previewMime entry with
  | .ok (some mime) =>
    if isIndexableImageMime mime then found (f.readViewerDerivative entry.fileVersionId)
    else if isIndexableVideoMime mime then found (f.readVideoPreview entry.fileVersionId)
    else false
  | _               => true

-- The preview of the file is its payload: it is a PDF or a text, or the original stands in for a
-- derivative that is not there.
def previewsOriginal (f : Files) (owner id : Id) (allowOriginal : Bool) : Bool :=
  match f.loadDownloadRecord owner id with
  | .error _  => false
  | .ok entry =>
    match f.readStorageHeader entry.objectId with
    | .error _   => false
    | .ok header =>
      match documentPreviewKind entry.name header with
      | some .pdf        => true
      | some .text       => true
      | some (.office _) => false
      | none             => allowOriginal && !f.hasDerivative entry

theorem record_of_thumbnailResponse
    (h : f.thumbnailResponse owner id headers headOnly = .ok response) :
    ∃ entry, f.loadDownloadRecord owner id = .ok entry := by
  simp only [thumbnailResponse] at h
  obtain ⟨entry, he, -⟩ := Except.bind_eq_ok_iff.mp h
  exact ⟨entry, he⟩

theorem thumbnailResponse_derived
    (h : f.thumbnailResponse owner id headers headOnly = .ok response) :
    response.body.derived = true := by
  simp only [thumbnailResponse] at h
  obtain ⟨entry, -, h⟩ := Except.bind_eq_ok_iff.mp h
  obtain ⟨-, h⟩ := Except.ite_throw_eq_ok_iff.mp h
  obtain ⟨mime, -, h⟩ := Except.bind_eq_ok_iff.mp h
  split at h <;> try contradiction
  split at h <;> try contradiction
  split at h <;> cases h
  case h_1.isTrue.refl  => rfl
  case h_1.isFalse.refl => cases headOnly <;> rfl

-- Without leave to serve the original there is a derivative, or no representation at all.
theorem representation_derivative (h : f.representation entry true false = .ok r) :
    r.derivative.isSome := by
  simp only [representation, if_true] at h
  obtain ⟨mime, -, h⟩ := Except.bind_eq_ok_iff.mp h
  obtain ⟨-, h⟩ := Except.ite_throw_eq_ok_iff.mp h
  split at h <;> try contradiction
  split at h
  case isTrue => exact orOriginal_derivative h
  case isFalse =>
    split at h
    case isTrue  => exact orOriginal_derivative h
    case isFalse => contradiction

theorem representation_found (hd : f.hasDerivative entry = true)
    (h : f.representation entry true true = .ok r) : r.derivative.isSome := by
  simp only [representation, if_true, true_and] at h
  obtain ⟨mime, hm, h⟩ := Except.bind_eq_ok_iff.mp h
  obtain ⟨hn, h⟩ := Except.ite_throw_eq_ok_iff.mp h
  obtain ⟨m, rfl⟩ : ∃ m, mime = some m := by
    cases mime <;> simp_all
  simp only [hasDerivative, hm] at hd
  split at h <;> try contradiction
  simp only [Bool.true_and, Option.any_some] at h
  split at h
  case isTrue hi => exact orOriginal_found (by simpa [hi] using hd) h
  case isFalse hi =>
    split at h
    case isTrue hv => exact orOriginal_found (by simpa [hi, hv] using hd) h
    case isFalse hv => simp [hi, hv] at hd

variable [Services]

omit [Digest] in
theorem respond_derived (hd : r.derivative.isSome)
    (h : f.respond entry headers headOnly r = .ok response) : response.body.derived = true := by
  simp only [respond, Services.parse_fmt] at h
  split at h
  case isTrue => cases h; rfl
  case isFalse =>
    split at h <;> try contradiction
    cases headOnly
    case h_1.true => cases h; rfl
    case h_1.false =>
      obtain ⟨body, hb, h⟩ := Except.bind_eq_ok_iff.mp h
      cases h
      exact openBody_derived hd hb

theorem downloadResponseInner_derived
    (h : f.downloadResponseInner owner id headers headOnly true allowOriginal = .ok response)
    (he : f.loadDownloadRecord owner id = .ok entry)
    (hd : allowOriginal = true → f.hasDerivative entry = true) :
    response.body.derived = true := by
  simp only [downloadResponseInner] at h
  obtain ⟨entry', he', h⟩ := Except.bind_eq_ok_iff.mp h
  cases he.symm.trans he'
  obtain ⟨-, h⟩ := Except.ite_throw_eq_ok_iff.mp h
  obtain ⟨r, hr, h'⟩ := Except.bind_eq_ok_iff.mp h
  refine respond_derived ?_ h'
  cases allowOriginal
  case false => exact representation_derivative hr
  case true  => exact representation_found (hd rfl) hr

theorem record_of_downloadResponseInner
    (h : f.downloadResponseInner owner id headers headOnly inlinePreview allowOriginal =
      .ok response) : ∃ entry, f.loadDownloadRecord owner id = .ok entry := by
  simp only [downloadResponseInner] at h
  obtain ⟨entry, he, -⟩ := Except.bind_eq_ok_iff.mp h
  exact ⟨entry, he⟩

theorem record_of_previewResponseInner
    (h : f.previewResponseInner owner id headers headOnly allowOriginal = .ok response) :
    ∃ entry, f.loadDownloadRecord owner id = .ok entry := by
  simp only [previewResponseInner] at h
  obtain ⟨entry, he, -⟩ := Except.bind_eq_ok_iff.mp h
  exact ⟨entry, he⟩

-- The documents whose preview is the payload itself.
def InlineDocument (f : Files) (owner id : Id) : Prop :=
  ∃ entry header, f.loadDownloadRecord owner id = .ok entry ∧
    f.readStorageHeader entry.objectId = .ok header ∧
    (documentPreviewKind entry.name header = some .pdf ∨
      documentPreviewKind entry.name header = some .text)

theorem officePreview_derived {format : OfficeFormat}
    (h : f.documentPreviewResponse entry (.office format) headOnly = .ok response) :
    response.body.derived = true := by
  simp only [documentPreviewResponse, documentBody] at h
  obtain ⟨⟨bytes, contentType, body⟩, hb, h⟩ := Except.bind_eq_ok_iff.mp h
  obtain ⟨-, hb⟩ := Except.ite_throw_eq_ok_iff.mp hb
  split at hb <;> try contradiction
  split at hb <;> try contradiction
  obtain ⟨pdf, -, hb⟩ := Except.bind_eq_ok_iff.mp hb
  cases hb
  cases h
  cases headOnly <;> rfl

theorem previewResponseInner_derived
    (h : f.previewResponseInner owner id headers headOnly allowOriginal = .ok response)
    (ho : f.previewsOriginal owner id allowOriginal = false) : response.body.derived = true := by
  simp only [previewResponseInner] at h
  obtain ⟨entry, he, h⟩ := Except.bind_eq_ok_iff.mp h
  obtain ⟨-, h⟩ := Except.ite_throw_eq_ok_iff.mp h
  obtain ⟨header, hh, h⟩ := Except.bind_eq_ok_iff.mp h
  simp only [previewsOriginal, he, hh] at ho
  split at h
  case h_1 hk => simp [hk] at ho
  case h_3 hk => exact downloadResponseInner_derived h he fun ha => by simpa [hk, ha] using ho
  case h_2 kind hn hk =>
    cases kind <;> simp only [hk] at ho
    case office => exact officePreview_derived h
    all_goals contradiction

omit [Services] in
theorem inlineDocument_of_previewsOriginal (h : f.previewsOriginal owner id false = true) :
    f.InlineDocument owner id := by
  simp only [previewsOriginal] at h
  split at h <;> try contradiction
  case h_2 entry he =>
    split at h <;> try contradiction
    case h_2 header hh =>
      split at h <;> try contradiction
      case h_1 hk => exact ⟨entry, header, he, hh, .inl hk⟩
      case h_2 hk => exact ⟨entry, header, he, hh, .inr hk⟩

end Files
end MyDrive.Transfers
