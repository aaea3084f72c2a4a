import MyDrive.Transfers.Store

-- `finalize_upload`: a transaction that reserves the object and the version, the move of the staged
-- bytes to the path of the object, and a transaction that completes the upload or rejects it.

namespace MyDrive.Transfers

-- SHA-256, as lowercase hex digits.
class Digest where
  sha256 : List UInt8 → String

-- SHA-256 where only the two bytes of `hi` are digested.
abbrev Digest.hi : Digest where
  sha256 _ := "8f434346648f6b96df89dda901c5176b10a6d83961dd3c1ac88b59b2dc327aa4"

def isHexDigit (c : Char) : Bool :=
  c.isDigit || ('a' ≤ c && c ≤ 'f') || ('A' ≤ c && c ≤ 'F')

def parseSha256 (value : String) : Except TransferError String :=
  let value := (Drive.trim value.toList).map Char.toLower
  if value.length = 64 ∧ value.all isHexDigit then
    .ok (.ofList value)
  else
    .error .badRequest

-- `none` is a missing header, and `some none` one that is not visible ASCII.
def declaredChecksum : Option (Option String) → Except TransferError (Option String)
  | none              => .ok none
  | some none         => .error .badRequest
  | some (some value) => (parseSha256 value).map some

-- What a finalizer has read of the rows before it moves the bytes.
structure Target where
  fileId     : Id
  objectId   : Id
  stagingKey : Id
  size       : Nat
  deriving DecidableEq

-- `session` is the row as the first transaction read it.
inductive Stage
  | begun
  | committed (session : Session)
  | fileRead (session : Session) (fileId : Id)
  | located (session : Session) (fileId objectId : Id)
  | opened (session : Session) (fileId objectId : Id)
  | promoting (t : Target) (attempts : Nat)
  | sourceChecked (t : Target) (attempts : Nat) (sourceExists : Bool)
  | destinationFree (t : Target)
  | renameLost (t : Target)
  | destinationSeen (t : Target)
  | promoted (t : Target)
  | hashed (t : Target) (checksum : String)
  | mismatched (t : Target)
  | completed (t : Target) (checksum : String)
  | rejected (t : Target)

structure Finalize where
  owner    : Id
  upload   : Id
  checksum : Option (Option String) := none
  stage    : Stage := .begun

namespace Store

def fetchUploadForUpdate (s : Store) (owner id : Id) : Except TransferError Session :=
  match s.sessions.lookup id with
  | none         => .error .notFound
  | some session => if session.ownerId = owner then .ok session else .error .notFound

def confirmReplaceLocked (s : Store) (owner fileId : Id) (session : Session) :
    Except TransferError Unit :=
  match s.files.lookup fileId with
  | none      => .error .notFound
  | some file =>
    if file.ownerId ≠ owner ∨ file.deletedAt.isSome then
      .error .notFound
    else if file.parentId ≠ session.parentId ∨ file.name ≠ session.filename then
      .error .conflict
    else
      .ok ()

def insertObject (s : Store) (id : Id) (o : StorageObject) : Store :=
  { s with objects := s.objects.set id o }

-- Every transaction takes three new ids, whether it needs them or not.
def takeIds (s : Store) : Store :=
  { s with next := s.next + 3 }

def returned (s : Store) (upload : Id) (result : UploadFinalized) : Store :=
  s.log (.returned upload result)

section

variable [Collation]

-- The file that an upload goes to: the one that it replaces, or a new one.
def targetFile (s : Store) (owner : Id) (session : Session) (newId : Id) :
    Except TransferError (Store × Id) :=
  match session.replaceFileId with
  | some fileId => (s.confirmReplaceLocked owner fileId session).map fun _ => (s, fileId)
  | none        =>
    let file : File := { ownerId := owner, parentId := session.parentId, name := session.filename }
    (s.insertFile newId file).map fun s => (s, newId)

-- The first transaction of an upload that is active.
def reserve (s : Store) (env : Env) (owner upload : Id) (session : Session) :
    Except TransferError Store := do
  requireNotExpired session.toUploadSession env.now
  if session.receivedSize ≠ session.expectedSize then
    throw .conflict
  if session.parentId.isSome ∧ !env.parentActive then
    throw .drive
  let objectId := s.next
  let versionId := s.next + 1
  let size := session.expectedSize
  let object : StorageObject := { size, createdAt := env.startedAt }
  let (s, fileId) ← (s.takeIds.insertObject objectId object).targetFile owner session (s.next + 2)
  let s ← s.insertVersion versionId { fileId, objectId, size, createdAt := env.startedAt }
  return (s.setCurrent fileId (some versionId)).updateSession upload (fun u =>
      { u with state := .finalizing, storageObjectId := some objectId, finalFileId := some fileId })
    |>.log (.reserved upload objectId versionId fileId)

end

def readied (s : Store) (id : Id) (checksum : String) : Store :=
  match s.objects.lookup id with
  | none   => s
  | some o =>
    if o.state = .pending ∨ o.state = .ready then
      let object := { o with checksum := some checksum, state := .ready }
      { s with objects := s.objects.set id object }.log (.readied id)
    else
      s

-- The second transaction: the upload's file when another call has completed it already.
def complete (s : Store) (owner upload : Id) (t : Target) (checksum : String) :
    Except TransferError (Store × Option Id) := do
  let session ← s.fetchUploadForUpdate owner upload
  if session.state = .completed then
    match session.finalFileId with
    | none        => throw .inconsistent
    | some fileId => return (s, some fileId)
  else if session.state ≠ .finalizing ∨ session.finalFileId ≠ some t.fileId ∨
      session.storageObjectId ≠ some t.objectId then
    throw .conflict
  else
    let s := s.readied t.objectId checksum
    return (s.updateSession upload fun u => { u with state := .completed }, none)

def currentVersion (s : Store) (fileId : Id) : Option Id :=
  (s.files.lookup fileId).bind (·.currentVersion)

-- The media index jobs of the second transaction, which go to the file's current version.
def enqueueMediaIndexJobs (s : Store) (env : Env) (upload fileId : Id) :
    Except TransferError Store :=
  if env.indexable then
    match s.currentVersion fileId with
    | none           => .error .inconsistent
    | some versionId => .ok (s.log (.enqueued upload versionId))
  else
    .ok s

-- `ORDER BY created_at DESC` does not tell versions of the same time apart.
def latestVersions (s : Store) (fileId : Id) (except : Option Id) : List Id :=
  let others := s.versions.rows.filter fun r => r.2.fileId = fileId && some r.1 ≠ except
  let latest := others.filter fun r => others.all fun r' => r'.2.createdAt ≤ r.2.createdAt
  latest.map Prod.fst

-- Undoes the reservation of a replacement, by way of the file's current version.
def restorePrevious (s : Store) (fileId : Id) (newVersion previous : Option Id) : Store :=
  let s := s.setCurrent fileId previous
  match newVersion with
  | none         => s
  | some version => s.deleteVersions fun id v => id = version && v.fileId = fileId

def removeFile (s : Store) (fileId : Id) : Except TransferError Store :=
  ((s.setCurrent fileId none).deleteVersions fun _ v => v.fileId = fileId).deleteFiles [fileId]

-- `none` when `row` is not one that the query for the previous version can return.
def rejectMismatchedUpload (s : Store) (row : Option Id) (owner upload : Id) (t : Target) :
    Option (Except TransferError (Option Store)) :=
  match s.fetchUploadForUpdate owner upload with
  | .error e    => some (.error e)
  | .ok session =>
    if session.state = .failed then
      some (.ok none)
    else if session.state ≠ .finalizing ∨ session.finalFileId ≠ some t.fileId ∨
        session.storageObjectId ≠ some t.objectId then
      some (.error .conflict)
    else
      let newVersion := s.currentVersion t.fileId
      let failed := s.updateSession upload fun u =>
        { u with state := .failed, storageObjectId := none, finalFileId := none }
      let undone : Option (Except TransferError Store) :=
        if session.replaceFileId.isSome then
          (limitOne (s.latestVersions t.fileId newVersion) row).map fun previous =>
            .ok (failed.restorePrevious t.fileId newVersion previous)
        else if newVersion.isSome then
          some (failed.removeFile t.fileId)
        else
          some (.ok failed)
      undone.map fun s => do
        let s ← s
        let s ← s.deleteObject t.objectId
        return some (s.log (.rejected upload))

end Store

namespace Finalize

variable [Collation] [Digest]

def goto (c : Finalize) (stage : Stage) : Option Finalize :=
  some { c with stage }

-- One step. An error ends the call, and what its open transaction has written is gone.
def next (s : Store) (env : Env) (c : Finalize) : Option (Store × Option Finalize) :=
  match c.stage with
  | .begun                        =>
    match s.fetchUploadForUpdate c.owner c.upload with
    | .error _    => some (s, none)
    | .ok session =>
      match session.state with
      | .completed         =>
        match session.finalFileId with
        | none        => some (s, none)
        | some fileId => some (s.returned c.upload { fileId }, none)
      | .failed | .expired => some (s, none)
      | .active            =>
        match s.reserve env c.owner c.upload session with
        | .error _ => some (s, none)
        | .ok s    => some (s, c.goto (.committed session))
      | .finalizing        => some (s, c.goto (.committed session))
  | .committed session            =>
    match session.finalFileId, session.storageObjectId with
    | some fileId, some objectId => some (s, c.goto (.located session fileId objectId))
    | none, none                 =>
      if session.state ≠ .active then
        some (s, none)
      else match s.fetchUploadForUpdate c.owner c.upload with
        | .error _ => some (s, none)
        | .ok row  => some (s, row.finalFileId.bind fun fileId => c.goto (.fileRead session fileId))
    | _, _                       => some (s, none)
  | .fileRead session fileId      =>
    match s.fetchUploadForUpdate c.owner c.upload with
    | .error _ => some (s, none)
    | .ok row  => some (s, row.storageObjectId.bind fun objectId =>
      c.goto (.located session fileId objectId))
  | .located session file object  =>
    if session.parentId.isSome && !env.parentActive then
      some (s, none)
    else
      some (s, c.goto (.opened session file object))
  | .opened session file object   =>
    some (s, (s.objects.lookup object).bind fun o =>
      c.goto (.promoting ⟨file, object, session.stagingKey, o.size⟩ 25))
  | .promoting _ 0                => some (s, none)
  | .promoting t (n + 1)          =>
    some (s, c.goto (.sourceChecked t n (s.staging.lookup t.stagingKey).isSome))
  | .sourceChecked t n source     =>
    match source, (s.payloads.lookup t.objectId).isSome with
    | true, true   => some (s, none)
    | true, false  => some (s, c.goto (.destinationFree t))
    | false, true  => some (s, c.goto (.promoted t))
    | false, false => some (s, c.goto (.promoting t n))
  | .destinationFree t            =>
    match s.staging.lookup t.stagingKey with
    | some bytes => some ({ s with
        staging  := s.staging.erase t.stagingKey
        payloads := s.payloads.set t.objectId bytes }, c.goto (.promoted t))
    | none       => some (s, c.goto (.renameLost t))
  | .renameLost t                 =>
    if (s.payloads.lookup t.objectId).isSome then some (s, c.goto (.destinationSeen t))
    else some (s, none)
  | .destinationSeen t            =>
    if (s.staging.lookup t.stagingKey).isNone then some (s, c.goto (.promoted t))
    else some (s, none)
  | .promoted t                   =>
    match s.payloads.lookup t.objectId with
    | none       => some (s, none)
    | some bytes =>
      if bytes.length ≠ t.size then
        some (s, none)
      else match declaredChecksum c.checksum with
        | .error _       => some (s, none)
        | .ok none       => some (s, c.goto (.hashed t (Digest.sha256 bytes)))
        | .ok (some sum) =>
          if sum ≠ Digest.sha256 bytes then some (s, c.goto (.mismatched t))
          else some (s, c.goto (.hashed t (Digest.sha256 bytes)))
  | .hashed t checksum            =>
    match s.complete c.owner c.upload t checksum with
    | .error _             => some (s, none)
    | .ok (s, some fileId) => some (s.returned c.upload { fileId }, none)
    | .ok (s', none)       =>
      match s'.enqueueMediaIndexJobs env c.upload t.fileId with
      | .error _ => some (s, none)
      | .ok s'   => some (s', c.goto (.completed t checksum))
  | .completed t checksum         =>
    let result := { fileId := t.fileId, versionId := s.currentVersion t.fileId, checksum }
    some (s.returned c.upload result, none)
  | .mismatched t                 =>
    match s.rejectMismatchedUpload env.row c.owner c.upload t with
    | none                => none
    | some (.error _)     => some (s, none)
    | some (.ok none)     => some (s, none)
    | some (.ok (some s)) => some (s, c.goto (.rejected t))
  | .rejected t                   =>
    some ({ s with payloads := s.payloads.erase t.objectId }, none)

end Finalize
end MyDrive.Transfers
