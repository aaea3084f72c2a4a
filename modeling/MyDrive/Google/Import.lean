import MyDrive.Google.Items
import MyDrive.Transfers.System

-- The statements of the Google importer: the transactions of a commit and the recovery of an
-- interrupted one. An entry of the drive is the row of its file.

namespace MyDrive.Google

open Transfers

inductive SyncError
  | database
  | storage
  | rateLimited
  | quota
  | store
  | download
  deriving DecidableEq

-- What a step of the worker asks outside the tables: the clock, the quota and the tree as in `Env`,
-- the name that `insert_named_entry` comes to, and what Google sends, or why it does not.
structure Answer where
  env     : Env := {}
  name    : String := ""
  bytes   : List UInt8 := []
  failure : Option SyncError := none

structure StagedFile where
  stagingKey : Id
  size       : Nat
  checksum   : String
  deriving DecidableEq

structure Rows where
  store   : Store := {}
  sources : Table Id Source := .empty
  items   : Table Id Item := .empty
  links   : Table (Id × String) Id := .empty

namespace Rows

-- `google_drive_items.storage_object_id` and `local_file_id` are `ON DELETE SET NULL`, and
-- `google_drive_links.local_entry_id` is `CASCADE`.
def withStore (s : Rows) (store : Store) : Rows where
  store   := store
  sources := s.sources
  items   := s.items.filterMap fun _ i => some { i with
    storageObjectId := i.storageObjectId.filter fun o => (store.objects.lookup o).isSome
    localFileId     := i.localFileId.filter fun f => (store.files.lookup f).isSome }
  links   := s.links.filterMap fun _ f => if (store.files.lookup f).isSome then some f else none

def updateItem (s : Rows) (id : Id) (f : Item → Item) : Rows :=
  { s with items := s.items.filterMap fun id' i => some (if id' = id then f i else i) }

-- `google_drive_sources.connection_id` and `google_drive_items.source_id` are `CASCADE`.
def deleteSources (s : Rows) (p : Id → Source → Bool) : Rows :=
  let deleted (id : Id) := (s.sources.lookup id).any (p id)
  { s with
    sources := s.sources.filterMap fun id x => if p id x then none else some x
    items   := s.items.filterMap fun _ i => if deleted i.sourceId then none else some i }

def removeStaging (s : Rows) (key : Option Id) : Rows :=
  match key with
  | none     => s
  | some key => { s with store.staging := s.store.staging.erase key }

-- The file that the Google file was imported to before, unless it is in the trash.
def existing (s : Rows) (item : Item) : Option Id :=
  (s.links.lookup (item.ownerId, item.googleFileId)).filter fun f =>
    (s.store.files.lookup f).any (·.deletedAt.isNone)

section

variable [Collation]

-- The file of a commit: the linked one, or a new one.
def commitTarget (s : Rows) (a : Answer) (item : Item) (store : Store) (newId : Id) :
    Except SyncError (Store × Id) :=
  match s.existing item with
  | some f => .ok (store, f)
  | none   =>
    let file : File := { ownerId := item.ownerId, parentId := item.parentLocalId, name := a.name }
    match store.insertFile newId file with
    | .ok store => .ok (store, newId)
    | .error _  => .error .store

-- `item` is the row as `claim_item` returned it. The last statement updates no row when the item is
-- not being downloaded any more.
def commitStaged (s : Rows) (a : Answer) (id : Id) (item : Item) (staged : StagedFile) :
    Except SyncError Rows := do
  if !a.env.withinQuota then
    throw .quota
  if !a.env.parentActive then
    throw .store
  let objectId := s.store.next
  let versionId := s.store.next + 1
  let object : StorageObject := { size := staged.size, createdAt := a.env.startedAt }
  let store := s.store.takeIds.insertObject objectId object
  let (store, fileId) ← s.commitTarget a item store (s.store.next + 2)
  let version := { fileId, objectId, size := staged.size, createdAt := a.env.startedAt }
  match store.insertVersion versionId version with
  | .error _  => throw .database
  | .ok store =>
    let committed := { s with store := store.setCurrent fileId (some versionId) }
    return committed.updateItem id fun i =>
      if i.state = .downloading then
        { i with
          state           := .committing
          storageObjectId := some objectId
          localFileId     := some fileId
          checksum        := some staged.checksum
          bytesDownloaded := staged.size }
      else
        i

end

-- `promote_staging_file` when nobody else moves either file.
def promote (s : Rows) (key objectId : Id) : Except SyncError Rows :=
  match s.store.staging.lookup key, s.store.payloads.lookup objectId with
  | some bytes, none => .ok { s with
      store.staging  := s.store.staging.erase key
      store.payloads := s.store.payloads.set objectId bytes }
  | none, some _     => .ok s
  | _, _             => .error .storage

def readyObject (s : Store) (id : Id) (checksum : String) (size : Nat) : Store :=
  match s.objects.lookup id with
  | none   => s
  | some o =>
    if o.state = .pending ∨ o.state = .ready then
      { s with objects := s.objects.set id { o with checksum := some checksum, size, state := .ready } }
    else
      s

def finishReady (s : Rows) (id objectId : Id) (checksum : String) (size : Nat) : Rows :=
  let s := { s with
    store := readyObject s.store objectId checksum size
    links := match (s.items.lookup id).bind fun i => i.localFileId.map (i, ·) with
      | none        => s.links
      | some (i, f) => s.links.set (i.ownerId, i.googleFileId) f }
  s.updateItem id fun i =>
    if i.state = .committing then { i with state := .stored, stagingKey := none } else i

-- `ORDER BY created_at DESC, id DESC LIMIT 1` of the versions of a file with other objects.
def previousVersion (s : Store) (fileId objectId : Id) : Option Id :=
  let others := s.versions.rows.filter fun r => r.2.fileId = fileId && r.2.objectId ≠ objectId
  let newest := others.find? fun r => others.all fun r' =>
    r'.2.createdAt < r.2.createdAt || (r'.2.createdAt = r.2.createdAt && r'.1 ≤ r.1)
  newest.map Prod.fst

def versionsOf (s : Store) (objectId : Id) : List Id :=
  s.versions.rows.filterMap fun (id, v) => if v.objectId = objectId then some id else none

-- The rows of a commit that can not be finished. A file without another version goes before its version
-- does, and the row of the object stays. `row` is the version that the query without an order returns.
def abandonObject (s : Store) (objectId : Id) (row : Option Id) : Option (Except SyncError Store) :=
  (limitOne (versionsOf s objectId) row).map fun version =>
    match version.bind s.versions.lookup with
    | none   => .ok s
    | some v =>
      let undone : Except TransferError Store := match previousVersion s v.fileId objectId with
        | some previous => .ok (s.setCurrent v.fileId (some previous))
        | none          => (s.setCurrent v.fileId none).deleteFiles [v.fileId]
      match undone with
      | .error _ => .error .database
      | .ok s    => .ok (s.deleteVersions fun _ w => w.objectId = objectId)

def abandonCommit (s : Rows) (id : Id) (key objectId row : Option Id) : Option (Except SyncError Rows) :=
  let s := s.removeStaging key
  let fail (store : Store) := (s.withStore store).updateItem id fun i =>
    if i.state = .committing then { i with state := .failed, stagingKey := none } else i
  match objectId with
  | none          => some (.ok (fail s.store))
  | some objectId => (abandonObject s.store objectId row).map fun r => r.map fail

def failItem (s : Rows) (id : Id) : Rows :=
  let s := s.removeStaging ((s.items.lookup id).bind (·.stagingKey))
  s.updateItem id fun i =>
    if i.state = .pending ∨ i.state = .downloading then
      { i with state := .failed, stagingKey := none }
    else
      i

def releaseItem (s : Rows) (id : Id) : Rows :=
  s.updateItem id fun i =>
    if i.state = .downloading then
      { i with state := .pending, stagingKey := none, bytesDownloaded := 0 }
    else
      i

-- `removed` are the staging files that the worker gets to remove.
def recoverDownloads (s : Rows) (removed : List Id) : Rows :=
  let stuck := s.items.rows.filterMap fun r => if r.2.state = .downloading then r.2.stagingKey else none
  { s with
    items         := s.items.filterMap fun _ i => some (if i.state = .downloading then
      { i with state := .pending, stagingKey := none, bytesDownloaded := 0 } else i)
    store.staging := s.store.staging.filterMap fun key bytes =>
      if key ∈ stuck ∧ key ∈ removed then none else some bytes }

end Rows
end MyDrive.Google
