import MyDrive.Drive.Queries
import MyDrive.Transfers.Finalize
import MyDrive.Transfers.Media

-- The builders of the responses that carry the bytes of a file: `download_response_inner`,
-- `preview_response_inner`, `document_preview_response` and `thumbnail_response`.

namespace MyDrive.Transfers

open Drive (Entry Kind rowAt)

inductive ResponseError
  | unsupportedPreview
  | notFound
  | payloadTooLarge
  | storage
  | inconsistent
  | drive (e : Drive.DriveError)
  | rangeNotSatisfiable (size : Nat)
  deriving DecidableEq

inductive Variant
  | card
  | viewer
  | videoPoster
  | videoPreview
  deriving DecidableEq

structure MediaObject extends StorageObject where
  mimeDetected : Option String := none
  deriving DecidableEq

-- A row of `media_derivatives`.
structure Derivative where
  mimeType : String
  size     : Nat
  checksum : String
  deriving DecidableEq

abbrev DerivativeKey := Id × Variant × Nat

-- The rows and the directories that a response is made from. A row of `files` is its
-- `current_version_id`. `previews` is the directory of the derivatives, if there is one.
structure Files where
  entries     : Table Id Entry := .empty
  files       : Table Id (Option Id) := .empty
  versions    : Table Id FileVersion := .empty
  objects     : Table Id MediaObject := .empty
  payloads    : Table Id (List UInt8) := .empty
  derivatives : Table DerivativeKey Derivative := .empty
  previews    : Option (Table DerivativeKey (List UInt8)) := none

structure Conversion where
  success       : Bool
  contentType   : Option String
  contentLength : Option Nat
  bytes         : Option (List UInt8)

-- The isolated converter of documents, if one is configured, and the crate `httpdate`, whose dates
-- have a resolution of one second.
class Services where
  convert       : Option (OfficeFormat → List UInt8 → Option Conversion)
  fmtHttpDate   : Time → String
  parseHttpDate : String → Option Time
  second        : Time → Time
  parse_fmt {t} : parseHttpDate (fmtHttpDate t) = some (second t)
  fmt_plain {t} : "W/".toList.isPrefixOf (fmtHttpDate t).toList = false ∧
    (fmtHttpDate t).toList.head? ≠ some '"'

-- Without a converter, and where a date is written as so many strokes.
abbrev Services.offline : Services where
  convert         := none
  fmtHttpDate t   := .ofList (List.replicate (t + 1) '|')
  parseHttpDate s := if s.toList.all (· = '|') && s.toList ≠ [] then some (s.toList.length - 1) else none
  second t        := t
  parse_fmt       := by simp
  fmt_plain       := by simp [List.replicate_succ, List.isPrefixOf]

-- The headers that are visible ASCII; `some none` is an `If-Range` that is not.
structure RequestHeaders where
  ifNoneMatch : List String := []
  ifRange     : Option (Option String) := none
  range       : Option String := none
  cookie      : Option String := none

inductive ContentType
  | octetStream
  | text
  | media (m : PreviewMime)
  deriving DecidableEq

-- The bytes of a response, with where they come from.
inductive Body
  | empty
  | original (bytes : List UInt8)
  | derivative (bytes : List UInt8)
  | converted (bytes : List UInt8)
  deriving DecidableEq

structure ByteRange where
  start : Nat
  last  : Nat
  deriving DecidableEq

def ByteRange.len (r : ByteRange) : Nat :=
  r.last - r.start + 1

structure Response where
  status        : Nat
  contentType   : ContentType
  etag          : String
  lastModified  : Option Time := none
  contentLength : Option Nat := none
  contentRange  : Option (ByteRange × Nat) := none
  body          : Body
  deriving DecidableEq

structure DownloadRecord where
  name             : String
  fileVersionId    : Id
  size             : Nat
  objectId         : Id
  mimeDetected     : Option String
  checksum         : Option String
  state            : ObjectState
  versionCreatedAt : Time
  deriving DecidableEq

def maxCardDerivativeBytes : Nat := 512 * 1024

def maxViewerBytes : Nat := 4 * 1024 * 1024

def maxVideoPreviewBytes : Nat := 32 * 1024 * 1024

def maxTextPreviewBytes : Nat := 8 * 1024 * 1024

def maxOfficePreviewBytes : Nat := 32 * 1024 * 1024

def maxDocumentPdfBytes : Nat := 64 * 1024 * 1024

-- `u64::from_str`, which takes a leading plus.
def parseU64 (cs : List Char) : Option Nat :=
  let digits : List Char := match cs with
    | '+' :: ds => ds
    | _         => cs
  let value : Nat := digits.foldl (fun n c => 10 * n + (c.toNat - '0'.toNat)) 0
  if digits = [] || !digits.all Char.isDigit || value ≥ 18446744073709551616 then none else some value

-- `none` is an unsatisfiable range.
def parseRange (value : Option String) (size : Nat) : Option (Option ByteRange) :=
  match value with
  | none       => some none
  | some value =>
    if size = 0 ∨ !("bytes=".toList.isPrefixOf value.toList) then
      none
    else
      let specification := value.toList.drop 6
      let (first, rest) := specification.span (· ≠ '-')
      if specification.contains ',' ∨ rest = [] then
        none
      else if first = [] then
        (parseU64 rest.tail).bind fun suffix =>
          if suffix = 0 then none
          else some (some { start := size - min suffix size, last := size - 1 })
      else
        (parseU64 first).bind fun start =>
          if start ≥ size then
            none
          else if rest.tail = [] then
            some (some { start, last := size - 1 })
          else
            (parseU64 rest.tail).bind fun last =>
              if last < start then none else some (some { start, last := min last (size - 1) })

def ifNoneMatchMatches (value etag : String) : Bool :=
  (value.toList.splitOn ',').any fun candidate =>
    let candidate := Drive.trim candidate
    candidate = ['*'] || candidate = etag.toList || candidate = 'W' :: '/' :: etag.toList

def ifRangeMatches [Services] (value etag : String) (lastModified : Time) : Bool :=
  if "W/".toList.isPrefixOf value.toList then false
  else if value.toList.head? = some '"' then value = etag
  else (Services.parseHttpDate value).any (lastModified ≤ ·)

namespace Files

-- `parent_chain` of the queries that start from an entry of the given kind.
def chainOf (entries : Table Id Entry) (owner : Id) (kind : Kind) (id : Id) : List (Id × Entry) :=
  Recursive.rows (fun r => r.2.parentId.toList.flatMap (rowAt entries (·.ownerId = owner)))
    (entries.rows.length + 1) (rowAt entries (fun e => e.ownerId = owner && e.kind = kind) id)

def record (f : Files) (owner id : Id) : Option DownloadRecord := do
  let entry ← (f.entries.lookup id).filter fun e => e.ownerId = owner && e.deletedAt.isNone
  let fileVersionId ← (← f.files.lookup id)
  let version ← f.versions.lookup fileVersionId
  let object ← f.objects.lookup version.objectId
  if (chainOf f.entries owner .file id).any (·.2.deletedAt.isSome) then
    none
  else
    some {
      name := entry.name, fileVersionId, size := version.size, objectId := version.objectId
      mimeDetected := object.mimeDetected, checksum := object.checksum, state := object.state
      versionCreatedAt := version.createdAt }

def loadDownloadRecord (f : Files) (owner id : Id) : Except ResponseError DownloadRecord :=
  match Drive.ensureActiveEntry f.entries owner id false with
  | .error e => .error (.drive e)
  | .ok _    => (f.record owner id).elim (.error .notFound) .ok

def readStorageHeader (f : Files) (objectId : Id) : Except ResponseError (List UInt8) :=
  (f.payloads.lookup objectId).elim (.error .storage) fun bytes => .ok (bytes.take 512)

-- The recorded type if there is one, even if it is not safe to preview.
def previewMime (f : Files) (entry : DownloadRecord) : Except ResponseError (Option PreviewMime) :=
  match entry.mimeDetected with
  | some value => .ok (safePreviewMime value)
  | none       => (f.readStorageHeader entry.objectId).map sniffMediaType

-- `ORDER BY recipe_version DESC LIMIT 1`.
def latestDerivative (f : Files) (version : Id) (variant : Variant) : Option (Nat × Derivative) :=
  f.derivatives.rows.foldl (fun latest r =>
    if r.1.1 = version && r.1.2.1 = variant && latest.all (·.1 < r.1.2.2)
    then some (r.1.2.2, r.2) else latest) none

variable [Digest]

def readDerivative (previews : Table DerivativeKey (List UInt8)) (key : DerivativeKey)
    (d : Derivative) (maxBytes : Nat) : Option (List UInt8) :=
  if key.2.2 = 0 ∨ d.size = 0 ∨ d.size > maxBytes ∨ d.checksum.length ≠ 64 ∨
      !d.checksum.toList.all isHexDigit then
    none
  else
    (previews.lookup key).filter fun bytes =>
      bytes.length = d.size && (Digest.sha256 bytes).toList = d.checksum.toList.map Char.toLower

-- An error is only logged, and then counts as a derivative that is not there.
def readMediaDerivative (f : Files) (version : Id) (variant : Variant) (expectedMime : String)
    (maxBytes : Nat) : Except Unit (Option (List UInt8 × String)) :=
  match f.previews with
  | none          => .ok none
  | some previews =>
    match f.latestDerivative version variant with
    | none             => .ok none
    | some (recipe, d) =>
      if d.mimeType ≠ expectedMime then
        .error ()
      else
        match readDerivative previews (version, variant, recipe) d maxBytes with
        | none       => .error ()
        | some bytes => .ok (some (bytes, d.checksum))

def readViewerDerivative (f : Files) (version : Id) : Except Unit (Option (List UInt8 × String)) :=
  f.readMediaDerivative version .viewer "image/webp" maxViewerBytes

def readVideoPreview (f : Files) (version : Id) : Except Unit (Option (List UInt8 × String)) :=
  f.readMediaDerivative version .videoPreview "video/mp4" maxVideoPreviewBytes

def readImageDerivative (f : Files) (version : Id) (variant : Variant) (maxBytes : Nat) :
    Except Unit (Option (List UInt8 × String)) :=
  f.readMediaDerivative version variant "image/webp" maxBytes

end Files

def thumbnailVariantForMime (mime : Option PreviewMime) : Option (Variant × Nat) :=
  if mime.any isIndexableImageMime then some (.card, maxCardDerivativeBytes)
  else if mime.any isIndexableVideoMime then some (.videoPoster, maxCardDerivativeBytes)
  else none

-- What a download is answered with: the bytes of a derivative, or else the payload itself.
structure Representation where
  derivative  : Option (List UInt8) := none
  contentType : ContentType
  checksum    : String

namespace Files

variable [Digest]

-- A derivative takes the place of the original, which is served without one only if that is allowed.
def orOriginal (allowOriginal : Bool) (original : Representation) (contentType : ContentType) :
    Except Unit (Option (List UInt8 × String)) → Except ResponseError Representation
  | .ok (some (bytes, checksum)) => .ok { derivative := some bytes, contentType, checksum }
  | _                            => if allowOriginal then .ok original else .error .unsupportedPreview

def representation (f : Files) (entry : DownloadRecord) (inlinePreview allowOriginal : Bool) :
    Except ResponseError Representation := do
  let mime ← if inlinePreview then f.previewMime entry else .ok none
  if inlinePreview ∧ mime.isNone then
    throw .unsupportedPreview
  let some checksum := entry.checksum | throw .inconsistent
  let original := { contentType := mime.elim .octetStream .media, checksum }
  if inlinePreview && mime.any isIndexableImageMime then
    orOriginal allowOriginal original (.media .webp) (f.readViewerDerivative entry.fileVersionId)
  else if inlinePreview && mime.any isIndexableVideoMime then
    orOriginal allowOriginal original (.media .mp4) (f.readVideoPreview entry.fileVersionId)
  else if inlinePreview && !allowOriginal then
    throw .unsupportedPreview
  else
    return original

def openBody (f : Files) (entry : DownloadRecord) (r : Representation) (start length : Nat) :
    Except ResponseError Body :=
  match r.derivative with
  | some bytes => .ok (.derivative ((bytes.drop start).take length))
  | none       => (f.payloads.lookup entry.objectId).elim (.error .storage) fun bytes =>
    .ok (.original ((bytes.drop start).take length))

variable [Services]

def respond (f : Files) (entry : DownloadRecord) (headers : RequestHeaders) (headOnly : Bool)
    (r : Representation) : Except ResponseError Response := do
  let size := r.derivative.elim entry.size List.length
  let etag := "\"" ++ r.checksum ++ "\""
  let response : Response := {
    status := 304, contentType := r.contentType, etag, lastModified := some entry.versionCreatedAt
    body := .empty }
  let some lastModified := Services.parseHttpDate (Services.fmtHttpDate entry.versionCreatedAt)
    | throw .inconsistent
  if headers.ifNoneMatch.any (ifNoneMatchMatches · etag) then
    return response
  let current := headers.ifRange.all fun value => value.any (ifRangeMatches · etag lastModified)
  let some range := parseRange (if current then headers.range else none) size
    | throw (.rangeNotSatisfiable size)
  let start := range.elim 0 (·.start)
  let length := range.elim size (·.len)
  let body ← if headOnly then pure .empty else f.openBody entry r start length
  return { response with
    status        := if range.isSome then 206 else 200
    contentLength := some length
    contentRange  := range.map (·, size)
    body }

def downloadResponseInner (f : Files) (owner id : Id) (headers : RequestHeaders)
    (headOnly inlinePreview allowOriginal : Bool) : Except ResponseError Response := do
  let entry ← f.loadDownloadRecord owner id
  if entry.state ≠ .ready then
    throw .storage
  f.respond entry headers headOnly (← f.representation entry inlinePreview allowOriginal)

def downloadResponse (f : Files) (owner id : Id) (headers : RequestHeaders) (headOnly : Bool) :
    Except ResponseError Response :=
  f.downloadResponseInner owner id headers headOnly false true

def checkConversion (conversion : Option Conversion) : Except ResponseError (List UInt8) := do
  let some conversion := conversion | throw .unsupportedPreview
  if !conversion.success ∨ conversion.contentType ≠ some "application/pdf" then
    throw .unsupportedPreview
  if conversion.contentLength.any (· > maxDocumentPdfBytes) then
    throw .payloadTooLarge
  let some pdf := conversion.bytes | throw .unsupportedPreview
  if pdf = [] ∨ pdf.length > maxDocumentPdfBytes ∨ !startsWith pdf (ascii "%PDF-") then
    throw .unsupportedPreview
  return pdf

def documentBody (f : Files) (entry : DownloadRecord) :
    DocumentPreviewKind → Except ResponseError (List UInt8 × ContentType × (List UInt8 → Body))
  | .text          => do
    if entry.size > maxTextPreviewBytes then
      throw .payloadTooLarge
    let some bytes := f.payloads.lookup entry.objectId | throw .storage
    if fromUtf8 bytes ≠ .valid then
      throw .unsupportedPreview
    return (bytes, .text, .original)
  | .office format => do
    if entry.size > maxOfficePreviewBytes then
      throw .payloadTooLarge
    let some convert := Services.convert | throw .unsupportedPreview
    let some bytes := f.payloads.lookup entry.objectId | throw .storage
    return (← checkConversion (convert format (bytes.take entry.size)), .media .pdf, .converted)
  | .pdf           => throw .inconsistent

def documentPreviewResponse (f : Files) (entry : DownloadRecord) (kind : DocumentPreviewKind)
    (headOnly : Bool) : Except ResponseError Response := do
  let (bytes, contentType, body) ← f.documentBody entry kind
  return {
    status := 200, contentType, etag := "\"" ++ Digest.sha256 bytes ++ "\""
    lastModified := some entry.versionCreatedAt, contentLength := some bytes.length
    body := if headOnly then .empty else body bytes }

def previewResponseInner (f : Files) (owner id : Id) (headers : RequestHeaders)
    (headOnly allowOriginalMedia : Bool) : Except ResponseError Response := do
  let entry ← f.loadDownloadRecord owner id
  if entry.state ≠ .ready then
    throw .notFound
  match documentPreviewKind entry.name (← f.readStorageHeader entry.objectId) with
  -- A PDF is itself the preview, whether or not downloads are allowed.
  | some .pdf => f.downloadResponseInner owner id headers headOnly true true
  | some kind => f.documentPreviewResponse entry kind headOnly
  | none      => f.downloadResponseInner owner id headers headOnly true allowOriginalMedia

def previewResponse (f : Files) (owner id : Id) (headers : RequestHeaders) (headOnly : Bool) :
    Except ResponseError Response :=
  f.previewResponseInner owner id headers headOnly true

def previewDerivativeResponse (f : Files) (owner id : Id) (headers : RequestHeaders)
    (headOnly : Bool) : Except ResponseError Response :=
  f.previewResponseInner owner id headers headOnly false

omit [Services] in
def thumbnailResponse (f : Files) (owner id : Id) (headers : RequestHeaders) (headOnly : Bool) :
    Except ResponseError Response := do
  let entry ← f.loadDownloadRecord owner id
  if entry.state ≠ .ready then
    throw .notFound
  let some (variant, maxBytes) := thumbnailVariantForMime (← f.previewMime entry) | throw .notFound
  let .ok (some (bytes, checksum)) := f.readImageDerivative entry.fileVersionId variant maxBytes
    | throw .notFound
  let etag := "\"" ++ checksum ++ "\""
  let response := { status := 304, contentType := .media .webp, etag, body := .empty }
  if headers.ifNoneMatch.any (ifNoneMatchMatches · etag) then
    return response
  return { response with
    status        := 200
    contentLength := some bytes.length
    body          := if headOnly then .empty else .derivative bytes }

end Files
end MyDrive.Transfers
