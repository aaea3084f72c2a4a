import MyDrive.Transfers.Responses
import MyDrive.Transfers.System

-- The responses for a file over time, and the download that is resumed with `If-Range`.

namespace MyDrive.Transfers

def Digest.Lowercase [Digest] : Prop :=
  ∀ bytes, (Digest.sha256 bytes).toList.map Char.toLower = (Digest.sha256 bytes).toList

inductive Endpoint
  | download
  | preview
  | previewDerivative
  deriving DecidableEq

def Body.bytes : Body → List UInt8
  | .empty                                                 => []
  | .original bytes | .derivative bytes | .converted bytes => bytes

-- The transfers, with everything else that a response is made from. The rows of `drive_entries` and
-- of `media_derivatives`, the media types and the directory of the previews may become any others.
structure Site where
  transfers   : System := .init
  entries     : Table Id Drive.Entry := .empty
  mimes       : Table Id String := .empty
  derivatives : Table DerivativeKey Derivative := .empty
  previews    : Option (Table DerivativeKey (List UInt8)) := none

inductive Change
  | transfer (a : Action)
  | arrange (entries : Table Id Drive.Entry)
  | detect (mimes : Table Id String)
  | publish (derivatives : Table DerivativeKey Derivative)
    (previews : Option (Table DerivativeKey (List UInt8)))

namespace Site

def step [Collation] [Digest] (s : Site) : Change → Option Site
  | .transfer a                   => (s.transfers.step a).map fun transfers => { s with transfers }
  | .arrange entries              => some { s with entries }
  | .detect mimes                 => some { s with mimes }
  | .publish derivatives previews => some { s with derivatives, previews }

def files (s : Site) : Files where
  entries     := s.entries
  files       := s.transfers.store.files.map fun _ f => f.currentVersion
  versions    := s.transfers.store.versions
  objects     := s.transfers.store.objects.map fun id o =>
    { toStorageObject := o, mimeDetected := s.mimes.lookup id }
  payloads    := s.transfers.store.payloads
  derivatives := s.derivatives
  previews    := s.previews

end Site

-- What is served for a file: its bytes, the time of its version, and whether parts of it may be asked
-- for.
structure Content where
  bytes     : List UInt8
  createdAt : Time
  ranged    : Bool
  deriving DecidableEq

namespace Files

variable [Digest] [Services]

def answer (f : Files) (owner id : Id) (e : Endpoint) (headers : RequestHeaders) (headOnly : Bool) :
    Except ResponseError Response :=
  match e with
  | .download          => f.downloadResponse owner id headers headOnly
  | .preview           => f.previewResponse owner id headers headOnly
  | .previewDerivative => f.previewDerivativeResponse owner id headers headOnly

-- The representation of a file is what a request without any headers gets.
def plain (f : Files) (owner id : Id) (e : Endpoint) : Option (List UInt8) :=
  (f.answer owner id e {} false).toOption.map (·.body.bytes)

-- What an endpoint chooses for a file: a representation that is served by ranges, or a document.
def source (f : Files) (owner id : Id) (e : Endpoint) :
    Except ResponseError (DownloadRecord × (Representation ⊕ DocumentPreviewKind)) := do
  let entry ← f.loadDownloadRecord owner id
  if entry.state ≠ .ready then
    throw (if e = .download then .storage else .notFound)
  if e = .download then
    return (entry, .inl (← f.representation entry false true))
  else
    match documentPreviewKind entry.name (← f.readStorageHeader entry.objectId) with
    | some .pdf => return (entry, .inl (← f.representation entry true true))
    | some kind => return (entry, .inr kind)
    | none      => return (entry, .inl (← f.representation entry true (e = .preview)))

def contentOf (f : Files) (entry : DownloadRecord) :
    Representation ⊕ DocumentPreviewKind → Option Content
  | .inl r    => (r.derivative.or (f.payloads.lookup entry.objectId)).map fun bytes =>
    { bytes, createdAt := entry.versionCreatedAt, ranged := true }
  | .inr kind => (f.documentBody entry kind).toOption.map fun (bytes, _) =>
    { bytes, createdAt := entry.versionCreatedAt, ranged := false }

def content (f : Files) (owner id : Id) (e : Endpoint) : Option Content :=
  (f.source owner id e).toOption.bind fun (entry, s) => f.contentOf entry s

-- A range that is asked for with a validator of a response from `f` and that `f'` serves is one of the
-- bytes that `f` served.
def Resumes (f f' : Files) (owner id : Id) (e e' : Endpoint) : Prop :=
  ∀ {headers headers' : RequestHeaders} {headOnly : Bool} {first second : Response}
    {bytes : List UInt8} {validator : String},
    f.answer owner id e headers headOnly = .ok first → f.plain owner id e = some bytes →
    (validator = first.etag ∨ ∃ t, first.lastModified = some t ∧ validator = Services.fmtHttpDate t) →
    headers'.ifRange = some (some validator) →
    f'.answer owner id e' headers' false = .ok second → second.status = 206 →
    ∃ range, parseRange headers'.range bytes.length = some (some range) ∧
      second.contentRange = some (range, bytes.length) ∧
      second.body.bytes = (bytes.drop range.start).take range.len

-- Other bytes are those of a version that has been created in a later second.
def Discerned (f f' : Files) (owner id : Id) (e e' : Endpoint) : Prop :=
  ∀ c c', f.content owner id e = some c → f'.content owner id e' = some c' →
    c'.ranged → c'.bytes ≠ [] → c'.bytes ≠ c.bytes →
    Services.second c.createdAt < Services.second c'.createdAt

end Files
end MyDrive.Transfers
