import MyDrive.Drive.Database
import MyDrive.Library.Execution

-- `patch_upload` on one upload session, with the staging file that it appends to. The handler
-- holds the row lock of the session from its `SELECT .. FOR UPDATE` on, so at most one request is
-- past that point.

namespace MyDrive.Transfers

inductive UploadState
  | active
  | finalizing
  | completed
  | expired
  | failed
  deriving DecidableEq

inductive TransferError
  | badRequest
  | notFound
  | conflict
  | checksumMismatch
  | offsetConflict (offset : Nat)
  | gone
  | payloadTooLarge
  | quotaExceeded
  | storage
  | inconsistent
  | database
  | drive
  deriving DecidableEq

-- The columns of `upload_sessions` that a `PATCH` reads or writes.
structure UploadSession where
  expectedSize : Nat
  receivedSize : Nat := 0
  state        : UploadState := .active
  expiresAt    : Time

-- `none` is a header that is missing, and `some none` one that does not parse.
structure PatchHeaders where
  contentType   : Option String
  uploadOffset  : Option (Option Nat)
  contentLength : Option (Option Nat) := none

def maxPatchBytes : Nat := 64 * 1024 * 1024

def requireNotExpired (session : UploadSession) (now : Time) : Except TransferError Unit :=
  if session.expiresAt ≤ now then .error .gone else .ok ()

def requireActive (session : UploadSession) (now : Time) : Except TransferError Unit :=
  match session.state with
  | .active  => requireNotExpired session now
  | .expired => .error .gone
  | .failed  => .error .gone
  | _        => .error .conflict

def patchOffset (headers : PatchHeaders) : Except TransferError Nat :=
  if headers.contentType ≠ some "application/offset+octet-stream" then
    .error .badRequest
  else match headers.uploadOffset with
    | some (some offset) =>
      match headers.contentLength with
      | none               => .ok offset
      | some none          => .error .badRequest
      | some (some length) =>
        if length = 0 ∨ length > maxPatchBytes then .error .payloadTooLarge else .ok offset
    | _                  => .error .badRequest

inductive Phase
  | locked
  | streaming
  | broken
  | ended
  | synced
  | updated
  deriving DecidableEq

-- A request that holds the row lock, with the bytes of its body that it has written.
structure Patch where
  currentOffset : Nat
  maxBytes      : Nat
  body          : List UInt8 := []
  phase         : Phase := .locked

-- `accepted` are the bodies of the requests that have committed.
structure Upload where
  session  : UploadSession
  staging  : List UInt8 := []
  patch    : Option Patch := none
  accepted : List (List UInt8) := []

-- The checks between the row lock and the staging file.
def admitPatch (session : UploadSession) (headers : PatchHeaders) (now : Time) :
    Except TransferError Patch := do
  let offset ← patchOffset headers
  requireActive session now
  if session.receivedSize ≠ offset then
    throw (.offsetConflict session.receivedSize)
  if session.receivedSize ≥ session.expectedSize then
    throw .conflict
  return {
    currentOffset := session.receivedSize
    maxBytes      := min (session.expectedSize - session.receivedSize) maxPatchBytes }

def writeAt (file : List UInt8) (position : Nat) (data : List UInt8) : List UInt8 :=
  file.take position ++ data ++ file.drop (position + data.length)

-- `torn` is a write of which only the first `n` bytes reach the file. `fail` is an error after
-- which the handler truncates the file, and `drop` is a crash, a cancelled request, an error
-- without clean-up or one whose clean-up fails.
inductive Label
  | begin (headers : PatchHeaders) (now : Time)
  | open
  | frame (data : List UInt8)
  | torn (data : List UInt8) (n : Nat)
  | bodyError
  | endBody
  | sync
  | update
  | commit
  | fail
  | drop

namespace Upload

def init (expectedSize : Nat) (expiresAt : Time) : Upload where
  session := { expectedSize, expiresAt }

def advance (s : Upload) (p : Patch) (phase : Phase) : Upload :=
  { s with patch := some { p with phase } }

def release (s : Upload) : Upload :=
  { s with patch := none }

-- A frame of the body in `write_patch_body`.
def writeFrame (s : Upload) (p : Patch) (data : List UInt8) : Upload :=
  if p.body.length + data.length > p.maxBytes then
    s.advance p .broken
  else
    { s with
      staging := writeAt s.staging (p.currentOffset + p.body.length) data
      patch   := some { p with body := p.body ++ data } }

def step (s : Upload) : Label → Option Upload
  | .begin headers now =>
    match s.patch with
    | some _ => none
    | none   =>
      match admitPatch s.session headers now with
      | .error _ => some s
      | .ok p    => some { s with patch := some p }
  | l =>
    match s.patch with
    | none   => none
    | some p =>
      match l, p.phase with
      | .open,        .locked    =>
        if s.staging.length < p.currentOffset then
          some s.release
        else
          some <| { s with staging := s.staging.take p.currentOffset }.advance p .streaming
      | .frame data,  .streaming => some (s.writeFrame p data)
      | .torn data n, .streaming =>
        if p.body.length + data.length > p.maxBytes then
          none
        else
          let staging := writeAt s.staging (p.currentOffset + p.body.length) (data.take n)
          some <| { s with staging }.advance p .broken
      | .bodyError,   .streaming => some (s.advance p .broken)
      | .endBody,     .streaming => some (s.advance p (if p.body = [] then .broken else .ended))
      | .sync,        .ended     => some (s.advance p .synced)
      | .update,      .synced    => some (s.advance p .updated)
      | .commit,      .updated   =>
        let receivedSize := p.currentOffset + p.body.length
        some {
          session  := { s.session with receivedSize }
          staging  := s.staging
          accepted := s.accepted ++ [p.body] }
      | .fail,        .streaming => some { s.release with staging := s.staging.take p.currentOffset }
      | .fail,        .broken    => some { s.release with staging := s.staging.take p.currentOffset }
      | .fail,        .ended     => some { s.release with staging := s.staging.take p.currentOffset }
      | .drop,        _          => some s.release
      | _,            _          => none

end Upload
end MyDrive.Transfers
