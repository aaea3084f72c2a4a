import MyDrive.Backup.Database

-- `TransferAsync`. What the server and the file system answer to it is up to its environment, and so is
-- the moment at which it is cancelled. Times are in seconds.

namespace MyDrive.Backup

structure ClientSettings where
  chunkSizeMb       : Nat := 8
  retryLimit        : Nat := 8
  stabilitySeconds  : Nat := 5
  backupHiddenFiles : Bool := false
  backupSystemFiles : Bool := false
  followSymlinks    : Bool := false

structure ServerCapabilities where
  chunkedUpload   : Bool := true
  resumableUpload : Bool := true
  deduplication   : Bool := true
  maxChunkBytes   : Nat := 64 * 1024 * 1024

-- What a run has read before it starts, and the time.
structure Context where
  settings     : ClientSettings := {}
  capabilities : ServerCapabilities := {}
  now          : Time := 0

-- The exceptions: an `ApiException`, one of `HttpRequestException`, `IOException` and
-- `TimeoutException`, or any other.
inductive Failure
  | api (status : Nat) (code : String) (interval offset : Option Nat)
  | network
  | other
  deriving DecidableEq

inductive FailureKind
  | refresh
  | permission
  | missing
  | rateLimit
  | retry
  | network
  | fatal
  deriving DecidableEq

def classify : Failure → FailureKind
  | .api status _ _ _ =>
    if status = 401 then .refresh
    else if status = 403 then .permission
    else if status = 404 then .missing
    else if status = 429 then .rateLimit
    else if 500 ≤ status then .retry
    else .fatal
  | .network          => .network
  | .other            => .fatal

def retryDelays : List Nat := [5, 15, 30, 60, 300]

def retryDelay (retryCount : Nat) : Nat :=
  retryDelays.getD (min retryCount (retryDelays.length - 1)) 0

def chunkBytes (settings : ClientSettings) (capabilities : ServerCapabilities) : Nat :=
  let requested := if settings.chunkSizeMb = 0 then 64 * 1024 else settings.chunkSizeMb * 1024 * 1024
  let cap := if 0 < capabilities.maxChunkBytes then capabilities.maxChunkBytes else 64 * 1024 * 1024
  max (64 * 1024) (min (min requested cap) (64 * 1024 * 1024))

-- The codes that make the client give up its upload session.
def Failure.restarts : Failure → Bool
  | .api _ code _ _ => code = "checksum_mismatch" || code = "gone"
  | _               => false

-- The upload goes on where the server is.
def Failure.serverOffset : Failure → Option Nat
  | .api 409 _ _ (some offset) => some offset
  | _                          => none

def Failure.delay (retryCount : Nat) : Failure → Nat
  | .api 429 _ (some seconds) _ => max 1 seconds
  | _                           => retryDelay retryCount

def handleFailure (c : Context) (item : UploadItem) (e : Failure) : UploadItem :=
  let kind := classify e
  let retry := e.restarts || kind = .retry || kind = .network || kind = .rateLimit
  let stop := !e.restarts && (kind = .permission || kind = .missing || kind = .fatal)
  let item := if e.restarts || !c.capabilities.resumableUpload then
      { item with remoteUploadId := none, bytesSent := 0 }
    else
      item
  if !retry || item.retryCount ≥ c.settings.retryLimit || stop then
    { item with state := .failed }
  else
    { item with
      retryCount  := item.retryCount + 1
      state       := .retrying
      nextRetryAt := some (c.now + e.delay item.retryCount) }

structure FinalizeResult where
  fileId    : Id
  versionId : Option Id := none
  checksum  : Option String := none

def FileIndexRow.markBackedUp (row : FileIndexRow) (fileId versionId : Option Id)
    (checksum : Option String) (generation : Nat) : FileIndexRow :=
  { row with
    remoteFileId    := fileId <|> row.remoteFileId
    remoteVersionId := versionId <|> row.remoteVersionId
    remoteChecksum  := checksum
    status          := .backedUp
    seenGeneration  := generation
    deleteAfter     := none }

-- Where `TransferAsync` waits for an answer, or is about to write.
inductive Stage
  | claimed
  | hashing
  | locating
  | creating
  | asking
  | reading
  | patching (count : Nat)
  | finalizing
  | marking (row : FileIndexRow)
  | completing
  | touching
  | saving (job : BackupJob)
  deriving DecidableEq

structure Transfer where
  id    : Id
  item  : UploadItem
  stage : Stage := .claimed
  deriving DecidableEq

-- `checked` is what the file system says about the file, `slice` the number of bytes that could be
-- read, and `offset` the `Upload-Offset` of a response.
inductive Answer
  | checked (present stable : Bool)
  | hashed (hash : String) (size : Nat)
  | folder (id : Id)
  | created (id : Id) (offset : Nat)
  | slice (count : Nat)
  | offset (offset : Nat)
  | finalized (result : FinalizeResult)
  | done
  | thrown (e : Failure)
  | cancelled

def FinalizeResult.mismatches (r : FinalizeResult) (hash : Option String) : Bool :=
  r.checksum.any fun sum => sum ≠ "" && some sum ≠ hash

namespace Transfer

variable (c : Context) (db : Database) (t : Transfer)

def goto (stage : Stage) : Database × Option Transfer :=
  (db, some { t with stage })

def save (item : UploadItem) (stage : Stage) : Database × Option Transfer :=
  (db.saveQueue t.id item, some { t with item, stage })

def leave (item : UploadItem) : Database × Option Transfer :=
  (db.saveQueue t.id item, none)

def fail (e : Failure) : Database × Option Transfer :=
  t.leave db (handleFailure c t.item e)

def connect : Database × Option Transfer :=
  if chunkBytes c.settings c.capabilities < t.item.fileSize && !c.capabilities.chunkedUpload then
    t.fail c db (.api 413 "chunked_upload_unsupported" none none)
  else if t.item.remoteUploadId.isNone then
    t.goto db .creating
  else if c.capabilities.resumableUpload then
    t.goto db .asking
  else
    t.save db { t.item with state := .uploading } .reading

def locate : Database × Option Transfer :=
  if t.item.remoteParentId.isNone then
    t.save db { t.item with state := .checkingServer } .locating
  else
    t.connect c db

def check (present stable : Bool) : Database × Option Transfer :=
  match db.jobs.lookup t.item.jobId with
  | none     => t.leave db { t.item with state := .paused }
  | some job =>
    if job.paused then
      t.leave db { t.item with state := .paused }
    else if !present then
      t.leave db { t.item with state := .skipped }
    else if !stable then
      t.leave db { t.item with
        state       := .waiting
        nextRetryAt := some (c.now + max 1 c.settings.stabilitySeconds) }
    else if t.item.contentHash.isNone then
      t.save db { t.item with state := .hashing } .hashing
    else
      t.locate c db

-- The head of the upload loop, and its break where nothing can be read.
def read (count : Nat) : Database × Option Transfer :=
  if t.item.bytesSent < t.item.fileSize then
    if db.paused || (db.jobs.lookup t.item.jobId).all (·.paused) then
      t.leave db { t.item with state := .paused }
    else
      t.goto db (if count = 0 then .finalizing else .patching count)
  else
    t.goto db .finalizing

-- The row that is marked is the one of the path now, or a new one.
def finish (r : FinalizeResult) : Database × Option Transfer :=
  if r.mismatches t.item.contentHash then
    t.fail c db (.api 409 "checksum_mismatch" none none)
  else
    let row := (db.index.lookup t.item.key).getD { fileSize := 0, modifiedUnixMs := 0 }
    t.goto db <| .marking <|
      row.markBackedUp r.fileId r.versionId (r.checksum <|> t.item.contentHash) row.seenGeneration

def next : Stage → Answer → Option (Database × Option Transfer)
  | .claimed,     .checked present stable => some (t.check c db present stable)
  | .hashing,     .hashed hash fileSize   =>
    some ({ t with item := { t.item with contentHash := some hash, fileSize } }.locate c db)
  | .locating,    .folder id              =>
    some ({ t with item := { t.item with remoteParentId := some id } }.connect c db)
  | .creating,    .created id offset      =>
    some <| t.save db { t.item with
      remoteUploadId := some id
      bytesSent      := offset
      state          := .uploading } .reading
  | .asking,      .offset bytesSent       =>
    some (t.save db { t.item with bytesSent, state := .uploading } .reading)
  | .reading,     .slice count            => some (t.read db count)
  | .patching _,  .offset bytesSent       => some (t.save db { t.item with bytesSent } .reading)
  | .finalizing,  .finalized r            => some (t.finish c db r)
  | .marking row, .done                   =>
    some (t.goto (db.upsertIndex t.item.key row) .completing)
  | .completing,  .done                   =>
    some <| t.save db { t.item with state := .completed, bytesSent := t.item.fileSize } .touching
  | .touching,    .done                   =>
    some (db, (db.jobs.lookup t.item.jobId).map fun job => { t with stage := .saving job })
  | .saving job,  .done                   =>
    some (db.saveJob t.item.jobId { job with lastSuccessAt := some c.now, status := .idle }, none)
  | .patching _,  .thrown e               =>
    match e.serverOffset with
    | some bytesSent => some (t.save db { t.item with bytesSent } .reading)
    | none           => some (t.fail c db e)
  | .marking _,   _                       => none
  | .completing,  _                       => none
  | .touching,    _                       => none
  | .saving _,    _                       => none
  | _,            .thrown e               => some (t.fail c db e)
  | _,            .cancelled              => some (t.leave db { t.item with state := .waiting })
  | _,            _                       => none

end Transfer
end MyDrive.Backup
