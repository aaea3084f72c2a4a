import MyDrive.Drive.Requests
import MyDrive.Transfers.Patch

-- The tables around a stored file, and the two directories that hold its bytes. Of a `drive_entries`
-- row only what the transfers read is kept, in the row of its file. The path of a payload is given
-- by the id of its object.

namespace MyDrive.Transfers

inductive ObjectState
  | pending
  | ready
  | deleting
  | failed
  deriving DecidableEq

structure StorageObject where
  size      : Nat
  checksum  : Option String := none
  state     : ObjectState := .pending
  createdAt : Time
  deriving DecidableEq

structure FileVersion where
  fileId    : Id
  objectId  : Id
  size      : Nat
  createdAt : Time
  deriving DecidableEq

structure File where
  ownerId        : Id
  parentId       : Option Id
  name           : String
  deletedAt      : Option Time := none
  currentVersion : Option Id := none
  deriving DecidableEq

structure Session extends UploadSession where
  ownerId         : Id
  parentId        : Option Id := none
  filename        : String
  stagingKey      : Id
  storageObjectId : Option Id := none
  finalFileId     : Option Id := none
  replaceFileId   : Option Id := none

structure UploadFinalized where
  fileId    : Id
  versionId : Option Id := none
  checksum  : Option String := none
  deriving DecidableEq

-- What has happened, for the statements about whole runs.
inductive Event
  | reserved (upload objectId versionId fileId : Id)
  | attached (versionId fileId : Id)
  | readied (objectId : Id)
  | enqueued (upload versionId : Id)
  | returned (upload : Id) (result : UploadFinalized)
  | rejected (upload : Id)
  deriving DecidableEq

-- `next` stands for `Uuid::new_v4`: every id below it has been given out.
structure Store where
  objects  : Table Id StorageObject := .empty
  versions : Table Id FileVersion := .empty
  files    : Table Id File := .empty
  sessions : Table Id Session := .empty
  staging  : Table Id (List UInt8) := .empty
  payloads : Table Id (List UInt8) := .empty
  next     : Id := 0
  history  : List Event := []

-- The answers to what a step asks outside the store: the clock, the tree of `drive_entries`, the
-- quota, the file system, whether `sniff_media_type_from_path` finds a media type that is indexed, and
-- which of its rows a query without a full `ORDER BY` returns.
structure Env where
  now          : Time := 0
  startedAt    : Time := now
  parentActive : Bool := true
  withinQuota  : Bool := true
  unlinkFails  : Bool := false
  indexable    : Bool := false
  row          : Option Id := none

-- `LIMIT 1`.
def limitOne (rows : List Id) (row : Option Id) : Option (Option Id) :=
  match row with
  | none   => if rows = [] then some none else none
  | some r => if r ∈ rows then some (some r) else none

namespace Store

def log (s : Store) (e : Event) : Store :=
  { s with history := s.history ++ [e] }

def referenced (s : Store) (objectId : Id) : Bool :=
  s.versions.any fun _ v => v.objectId = objectId

def finalizing (s : Store) (objectId : Id) : Bool :=
  s.sessions.any fun _ u => u.storageObjectId = some objectId && u.state = .finalizing

def insertVersion (s : Store) (id : Id) (v : FileVersion) : Except TransferError Store :=
  if (s.files.lookup v.fileId).isNone || (s.objects.lookup v.objectId).isNone then
    .error .database
  else
    .ok { s with versions := s.versions.set id v }

def setCurrent (s : Store) (fileId : Id) (version : Option Id) : Store :=
  { s with
    files := s.files.filterMap fun id f =>
      some (if id = fileId then { f with currentVersion := version } else f) }

-- `files.current_version_id` is `ON DELETE SET NULL`.
def deleteVersions (s : Store) (p : Id → FileVersion → Bool) : Store :=
  { s with
    versions := s.versions.filterMap fun id v => if p id v then none else some v
    files    := s.files.filterMap fun _ f =>
      let deleted (id : Id) := (s.versions.lookup id).any (p id)
      some { f with currentVersion := f.currentVersion.filter (!deleted ·) } }

-- `file_versions.file_id` is `ON DELETE RESTRICT`, `upload_sessions.final_file_id` is `CASCADE` and
-- `upload_sessions.replace_file_id` is `SET NULL`.
def deleteFiles (s : Store) (ids : List Id) : Except TransferError Store :=
  if s.versions.any fun _ v => v.fileId ∈ ids then
    .error .database
  else
    .ok { s with
      files    := s.files.filterMap fun id f => if id ∈ ids then none else some f
      sessions := s.sessions.filterMap fun _ u =>
        if u.finalFileId.any (· ∈ ids) then none
        else some { u with replaceFileId := u.replaceFileId.filter (· ∉ ids) } }

-- `drive_entries.parent_id` is `RESTRICT` and `upload_sessions.target_parent_id` is `SET NULL`.
def deleteFolders (s : Store) (ids : List Id) : Except TransferError Store :=
  if s.files.any fun _ f => f.parentId.any (· ∈ ids) then
    .error .database
  else
    .ok { s with
      sessions := s.sessions.filterMap fun _ u =>
        some { u with parentId := u.parentId.filter (· ∉ ids) } }

-- `file_versions.storage_object_id` is `RESTRICT`, and `upload_sessions.storage_object_id` is
-- `SET NULL`, which the check of the finalization state refuses to a session that is finalizing.
def deleteObject (s : Store) (id : Id) : Except TransferError Store :=
  if s.referenced id || s.finalizing id then
    .error .database
  else
    .ok { s with
      objects  := s.objects.erase id
      sessions := s.sessions.filterMap fun _ u =>
        some { u with storageObjectId := u.storageObjectId.filter (· ≠ id) } }

def updateSession (s : Store) (id : Id) (f : Session → Session) : Store :=
  { s with sessions := s.sessions.filterMap fun id' u => some (if id' = id then f u else u) }

variable [Collation]

def sameName (f g : File) : Bool :=
  f.ownerId = g.ownerId && f.parentId = g.parentId &&
    Collation.lower f.name = Collation.lower g.name && f.deletedAt.isNone && g.deletedAt.isNone

-- The index `drive_entries_active_name`, as far as files go.
def insertFile (s : Store) (id : Id) (f : File) : Except TransferError Store :=
  if s.files.any fun _ g => sameName f g then
    .error .conflict
  else
    .ok { s with files := s.files.set id f }

end Store
end MyDrive.Transfers
