import MyDrive.Transfers.Finalize
import MyDrive.Library.Shared

-- The requests and the maintenance that share stored objects, side by side. A step is a statement, a
-- transaction whose reads its own locks keep valid, or one operation on the file system.

namespace MyDrive.Transfers

-- `link_content`.
structure Link where
  owner    : Id
  parentId : Option Id
  name     : String
  size     : Nat
  checksum : String
  object   : Option Id := none

-- A file that `copy_one_entry` copies. Which files these are, and the names that the copies get,
-- is up to the tree walk of the batch.
structure CopyFile where
  source   : Id
  parentId : Option Id
  name     : String

-- `version` is the object and the size of the source's current version.
structure CopiedFile where
  parentId : Option Id
  name     : String
  version  : Option (Id × Nat)

structure Copy where
  owner  : Id
  todo   : List CopyFile
  copied : List CopiedFile := []

-- Objects that a collector has marked. `cutoff` is set in `remove_unreferenced_objects` and not in
-- `delete_unreferenced_objects`, and `unlinked` says that the payload of the first object is gone.
structure Sweep where
  cutoff   : Option Time
  objects  : List Id
  unlinked : Bool := false

-- The entries below a trash root.
structure Subtree where
  files   : List Id
  folders : List Id := []

inductive Call
  | finalize (c : Finalize)
  | link (c : Link)
  | copy (c : Copy)
  | purge (tree : Subtree)
  | purgeObjects (tree : Subtree) (objects : List Id)
  | mark (cutoff : Option Time) (candidates : List Id)
  | sweep (c : Sweep)

inductive Request
  | upload (session : Session) (bytes : List UInt8)
  | entry (fileId : Id) (parentId : Option Id) (name : String) (deletedAt : Option Time)
  | finalize (owner upload : Id) (checksum : Option (Option String))
  | link (owner : Id) (parentId : Option Id) (name : String) (size : Nat) (checksum : String)
  | copy (owner : Id) (files : List CopyFile)
  | purge (tree : Subtree)
  | removeUnreferenced (cutoff : Time) (batch : List Id)

abbrev System := Shared.System Store Call

abbrev Action := Shared.Label Request Env

namespace Store

-- `create_upload`, with the `PATCH` requests up to the finalization.
def createUpload (s : Store) (session : Session) (bytes : List UInt8) : Option Store :=
  let session := { session with
    receivedSize    := bytes.length
    state           := .active
    stagingKey      := s.next
    storageObjectId := none
    finalFileId     := none }
  if bytes.length ≤ session.expectedSize ∧ session.replaceFileId.all (s.files.lookup · |>.isSome) then
    some { s.takeIds with
      sessions := s.sessions.set (s.next + 1) session
      staging  := s.staging.set s.next bytes }
  else
    none

-- A rename, a move, a trash or a restore.
def setEntry (s : Store) (fileId : Id) (parentId : Option Id) (name : String)
    (deletedAt : Option Time) : Store :=
  { s with
    files := s.files.filterMap fun id f =>
      some (if id = fileId then { f with parentId, name, deletedAt } else f) }

def matchingObjects (s : Store) (checksum : String) (size : Nat) : List Id :=
  s.objects.rows.filterMap fun (id, o) =>
    if o.state = .ready ∧ o.checksum = some checksum ∧ o.size = size then some id else none

def copySource (s : Store) (owner : Id) (job : CopyFile) : Option CopiedFile :=
  match s.files.lookup job.source with
  | none      => none
  | some file =>
    if file.ownerId ≠ owner ∨ file.deletedAt.isSome then
      none
    else
      let version := file.currentVersion.bind s.versions.lookup
      let version := version.filter fun v => (s.objects.lookup v.objectId).isSome
      some {
        parentId := job.parentId
        name     := job.name
        version  := version.map fun v => (v.objectId, v.size) }

def objectsOf (s : Store) (files : List Id) : List Id :=
  s.versions.rows.filterMap fun (_, v) => if v.fileId ∈ files then some v.objectId else none

def purgeFiles (s : Store) (files : List Id) : Except TransferError Store :=
  (s.deleteVersions fun _ v => v.fileId ∈ files).deleteFiles files

-- The commit of `purge_one_trash_root`. The order of its statements by depth does not matter, as a
-- file has no entries below it.
def purgeTree (s : Store) (tree : Subtree) : Except TransferError Store := do
  let s ← s.purgeFiles tree.files
  s.deleteFolders tree.folders

def collectable (s : Store) (cutoff : Option Time) (id : Id) (o : StorageObject) : Bool :=
  (cutoff.all fun t => o.state = .deleting || o.createdAt ≤ t) &&
    !s.referenced id && !s.finalizing id

def markDeleting (s : Store) (cutoff : Option Time) (candidates : List Id) : Store × List Id :=
  let marked (id : Id) (o : StorageObject) := id ∈ candidates && s.collectable cutoff id o
  ({ s with
      objects := s.objects.filterMap fun id o =>
        some (if marked id o then { o with state := .deleting } else o) },
    s.objects.rows.filterMap fun (id, o) => if marked id o then some id else none)

-- The `DELETE` of a collector, which leaves the row alone unless its conditions hold.
def deleteMarked (s : Store) (cutoff : Option Time) (id : Id) : Except TransferError Store :=
  match s.objects.lookup id with
  | none   => .ok s
  | some o =>
    if o.state = .deleting && !s.referenced id && !(cutoff.isSome && s.finalizing id) then
      s.deleteObject id
    else
      .ok s

section

variable [Collation]

def existingFile (s : Store) (c : Link) : Option (Id × StorageObject) :=
  s.files.rows.findSome? fun (id, f) =>
    if sameName f { ownerId := c.owner, parentId := c.parentId, name := c.name } then
      (f.currentVersion.bind s.versions.lookup).bind fun v =>
        (s.objects.lookup v.objectId).map (id, ·)
    else
      none

def linkTarget (s : Store) (c : Link) : Except TransferError (Store × Id) :=
  match s.existingFile c with
  | some (fileId, _) => .ok (s.takeIds, fileId)
  | none             =>
    let file : File := { ownerId := c.owner, parentId := c.parentId, name := c.name }
    (s.takeIds.insertFile (s.next + 1) file).map fun s' => (s', s.next + 1)

-- The transaction of `link_content` from the file's row lock on: `none` when nothing is to do.
def linkObject (s : Store) (env : Env) (c : Link) (objectId : Id) :
    Except TransferError (Option Store) := do
  if (s.existingFile c).any fun (_, o) => o.checksum = some c.checksum ∧ o.size = c.size then
    return none
  if !env.withinQuota then
    throw .quotaExceeded
  let versionId := s.next
  let (s, fileId) ← s.linkTarget c
  let s ← s.insertVersion versionId { fileId, objectId, size := c.size, createdAt := env.startedAt }
  return some ((s.setCurrent fileId (some versionId)).log (.attached versionId fileId))

def insertCopy (owner : Id) (env : Env) (s : Store) (f : CopiedFile) : Except TransferError Store := do
  let versionId := s.next
  let fileId := s.next + 1
  let s ← s.takeIds.insertFile fileId { ownerId := owner, parentId := f.parentId, name := f.name }
  match f.version with
  | none                  => return s
  | some (objectId, size) =>
    let s ← s.insertVersion versionId { fileId, objectId, size, createdAt := env.startedAt }
    return (s.setCurrent fileId (some versionId)).log (.attached versionId fileId)

def insertCopies (s : Store) (env : Env) (c : Copy) : Except TransferError Store :=
  c.copied.foldlM (insertCopy c.owner env) s

end
end Store

variable [Collation] [Digest]

def Link.next (s : Store) (env : Env) (c : Link) : Option (Store × Option Link) :=
  match c.object with
  | none          =>
    if c.parentId.isSome && !env.parentActive then
      some (s, none)
    else
      (limitOne (s.matchingObjects c.checksum c.size) env.row).map fun object =>
        (s, object.map fun id => { c with object := some id })
  | some objectId =>
    match s.linkObject env c objectId with
    | .ok (some s) => some (s, none)
    | _            => some (s, none)

def Copy.next (s : Store) (env : Env) (c : Copy) : Store × Option Copy :=
  match c.todo with
  | job :: todo =>
    match s.copySource c.owner job with
    | none   => (s, none)
    | some f => (s, some { c with todo, copied := c.copied ++ [f] })
  | []          =>
    match s.insertCopies env c with
    | .error _ => (s, none)
    | .ok s    => (s, none)

def Sweep.next (s : Store) (env : Env) (c : Sweep) : Store × Option Sweep :=
  match c.objects, c.unlinked with
  | [], _          => (s, none)
  | id :: _, false =>
    if !env.unlinkFails then
      ({ s with payloads := s.payloads.erase id }, some { c with unlinked := true })
    else if c.cutoff.isSome then
      (s, some { c with objects := c.objects.tail })
    else
      (s, none)
  | id :: ids, true =>
    match s.deleteMarked c.cutoff id with
    | .error _ => (s, none)
    | .ok s    => (s, some { c with objects := ids, unlinked := false })

def Call.next (s : Store) (env : Env) : Call → Option (Store × Option Call)
  | .finalize c                 => (c.next s env).map fun (s, c) => (s, c.map .finalize)
  | .link c                     => (c.next s env).map fun (s, c) => (s, c.map .link)
  | .copy c                     => let (s, c) := c.next s env; some (s, c.map .copy)
  | .purge tree                 => some (s, some (.purgeObjects tree (s.objectsOf tree.files)))
  | .purgeObjects tree objects  =>
    match s.purgeTree tree with
    | .error _ => some (s, none)
    | .ok s    => some (s, some (.mark none objects))
  | .mark cutoff candidates     =>
    let (s, objects) := s.markDeleting cutoff candidates
    some (s, some (.sweep { cutoff, objects }))
  | .sweep c                    => let (s, c) := c.next s env; some (s, c.map .sweep)

def Request.start (s : Store) : Request → Option (Store × Option Call)
  | .upload session bytes                   => (s.createUpload session bytes).map (·, none)
  | .entry fileId parentId name deletedAt   =>
    some (s.setEntry fileId parentId name deletedAt, none)
  | .finalize owner id checksum             =>
    some (s, some (.finalize { owner, upload := id, checksum }))
  | .link owner parentId name size checksum =>
    match Drive.normalizeName name, parseSha256 checksum with
    | .ok name, .ok checksum => some (s, some (.link { owner, parentId, name, size, checksum }))
    | _, _                   => some (s, none)
  | .copy owner files                       => some (s, some (.copy { owner, todo := files }))
  | .purge tree                             => some (s, some (.purge tree))
  | .removeUnreferenced cutoff batch        => some (s, some (.mark (some cutoff) batch))

def program : Shared.Program Store Call Request Env where
  start := Request.start
  next s env c := c.next s env

namespace System

def init : System where
  store := {}

def step (s : System) (a : Action) : Option System :=
  Shared.System.step program s a

end System
end MyDrive.Transfers
