import MyDrive.Drive.Statements

-- The handlers of `drive.rs`, each run alone. A handler that fails rolls its transaction back.

namespace MyDrive.Drive

def isWhitespace (c : Char) : Bool :=
  let n := c.toNat
  (9 ≤ n && n ≤ 13) || n = 0x20 || n = 0x85 || n = 0xA0 || n = 0x1680 ||
    (0x2000 ≤ n && n ≤ 0x200A) || n = 0x2028 || n = 0x2029 || n = 0x202F || n = 0x205F || n = 0x3000

def isControl (c : Char) : Bool :=
  c.toNat < 0x20 || (0x7F ≤ c.toNat && c.toNat < 0xA0)

def trim (cs : List Char) : List Char :=
  ((cs.dropWhile isWhitespace).reverse.dropWhile isWhitespace).reverse

def normalizeName (value : String) : Except DriveError String :=
  let name := trim value.toList
  if name.length = 0 ∨ name.length > 255 ∨ name = ['.'] ∨ name = ['.', '.'] ∨
      name.any (fun c => isControl c || c = '/' || c = '\\') then
    .error .badRequest
  else
    .ok (.ofList name)

def maxBatchEntries : Nat := 100

def maxCopyEntries : Nat := 500

inductive Request
  | createFolder (id : Id) (name : String) (parent : Option Id)
  | createFile (id : Id) (name : String) (parent : Option Id)
  | rename (id : Id) (name : String)
  | move (id : Id) (parent : Option Id)
  | trash (id : Id) (now : Time)
  | restore (id : Id)
  | purge (root : Id)
  | batchMove (ids : List Id) (parent : Option Id)
  | batchTrash (ids : List Id) (now : Time)
  | batchCopy (ids : List Id) (parent : Option Id) (fresh : List Id)

structure CopyJob where
  source : Id
  parent : Option Id
  rename : Bool
  depth  : Nat

-- The extension starts at the last dot, unless the dot comes first or more than 12 bytes follow.
def splitExtension (original : List Char) : List Char × List Char :=
  let extension := (original.reverse.takeWhile (· ≠ '.')).reverse
  let stem := original.take (original.length - extension.length - 1)
  if '.' ∈ original ∧ stem ≠ [] ∧ (String.ofList ('.' :: extension)).utf8ByteSize ≤ 12 then
    (stem, '.' :: extension)
  else
    (original, [])

def copyDisplayName (original : String) (attempt : Nat) (isFile : Bool) : String :=
  let suffix := (if attempt ≤ 1 then " copy" else " copy " ++ toString attempt).toList
  let (stem, extension) := if isFile then splitExtension original.toList else (original.toList, [])
  let name := stem ++ suffix ++ extension
  if name.length > 255 then
    let budget := max (255 - (suffix.length + extension.length)) 1
    .ofList (stem.take budget ++ suffix ++ extension)
  else
    .ofList name

variable [Collation]

def availableCopyName (v : View) (owner : Id) (parent : Option Id) (original : String)
    (isFile : Bool) : Except DriveError String :=
  let taken := fun candidate : String => v.entries.any fun _ e =>
    e.ownerId = owner && e.deletedAt.isNone && e.parentId = parent &&
      Collation.lower e.name = Collation.lower candidate
  match ((List.range 40).map fun n => copyDisplayName original (n + 1) isFile).find? (!taken ·) with
  | some name => .ok name
  | none      => .error .conflict

def ensureActiveParent (v : View) (owner : Id) : Option Id → Except DriveError Unit
  | none   => .ok ()
  | some p => ensureActiveEntry v.entries owner p true

def newEntry (owner : Id) (parent : Option Id) (kind : Kind) (name : String) : Entry :=
  { ownerId := owner, parentId := parent, kind, name }

-- `create_folder`, and the insertion of a new file by `finalize_upload`.
def createEntry (v : View) (owner id : Id) (kind : Kind) (name : String) (parent : Option Id) :
    Except DriveError View := do
  let name ← normalizeName name
  ensureActiveParent v owner parent
  insertEntry v id (newEntry owner parent kind name)

def renameEntry (v : View) (owner id : Id) (name : String) : Except DriveError View := do
  let name ← normalizeName name
  ensureActiveEntry v.entries owner id false
  ensureMutableEntry v.entries owner id
  updateName v owner id name

def moveEntry (v : View) (owner id : Id) (parent : Option Id) : Except DriveError View := do
  ensureActiveEntry v.entries owner id false
  ensureMutableEntry v.entries owner id
  ensureActiveParent v owner parent
  if parent.any fun p => p = id || folderContains v.entries owner id p then
    throw .conflict
  updateParent v owner id parent

def trashOwnedEntry (v : View) (owner id : Id) (now : Time) : Except DriveError View := do
  ensureMutableEntry v.entries owner id
  setDeletedAt v owner id now

def trashEntry (v : View) (owner id : Id) (now : Time) : Except DriveError View := do
  ensureActiveEntry v.entries owner id false
  trashOwnedEntry v owner id now

def restoreEntry (v : View) (owner id : Id) : Except DriveError View := do
  match trashedRow v owner id with
  | none   => throw .notFound
  | some e =>
    ensureActiveParent v owner e.parentId
    clearDeletedAt v owner id

-- The subtree is deleted by decreasing depth.
def purgeOneTrashRoot (v : View) (owner root : Id) : Except DriveError View :=
  match trashedRow v owner root with
  | none   => .ok v
  | some _ => (subtree v.entries owner root).reverse.foldlM (fun v r => deleteEntry v r.1) v

def moveOwnedEntry (owner : Id) (parent : Option Id) (v : View) (id : Id) :
    Except DriveError View := do
  ensureMutableEntry v.entries owner id
  if parent.any fun p => p = id || folderContains v.entries owner id p then
    throw .conflict
  updateParent v owner id parent

def batchMove (v : View) (owner : Id) (ids : List Id) (parent : Option Id) :
    Except DriveError View := do
  if ids.isEmpty || ids.length > maxBatchEntries || !decide ids.Nodup then
    throw .badRequest
  ensureActiveParent v owner parent
  if parent.any fun p => p ∈ ids then
    throw .badRequest
  ids.foldlM (moveOwnedEntry owner parent) v

def batchTrash (v : View) (owner : Id) (ids : List Id) (now : Time) : Except DriveError View := do
  if ids.isEmpty || ids.length > maxBatchEntries || !decide ids.Nodup then
    throw .badRequest
  ids.foldlM (fun v id => trashOwnedEntry v owner id now) v

-- The entry that a copy reads, unless it may not be copied.
def copySource (v : View) (owner source : Id) : Except DriveError Entry :=
  match activeRow v owner source with
  | none   => .error .notFound
  | some e => if e.systemRole.isSome then .error .protectedEntry else .ok e

def copyName (v : View) (owner : Id) (job : CopyJob) (source : Entry) : Except DriveError String :=
  if job.rename then
    availableCopyName v owner job.parent source.name (source.kind = .file)
  else
    .ok source.name

-- `ORDER BY kind DESC, lower(name), id` only decides in which order the children are copied.
def copyChildren (v : View) (owner : Id) (job : CopyJob) (kind : Kind) (id : Id) : List CopyJob :=
  let children := match kind with
    | .folder => childrenOf v.entries (fun e => e.ownerId = owner && e.deletedAt.isNone) job.source
    | .file   => []
  children.map fun child =>
    { source := child.1, parent := some id, rename := false, depth := job.depth + 1 }

def copyOneEntry (v : View) (owner : Id) (job : CopyJob) (id : Id) (copied : Nat) :
    Except DriveError (View × List CopyJob) := do
  if job.depth > 40 then
    throw .badRequest
  if copied + 1 > maxCopyEntries then
    throw .badRequest
  let source ← copySource v owner job.source
  let name ← copyName v owner job source
  let v ← insertEntry v id (newEntry owner job.parent source.kind name)
  return (v, copyChildren v owner job source.kind id)

-- `fresh` are the ids that `Uuid::new_v4` gives out. The jobs form a stack.
def copyEntries (owner : Id) (v : View) (copied : Nat) : List Id → List CopyJob →
    Except DriveError View
  | _,           []          => .ok v
  | [],          _ :: _      => .error .database
  | id :: fresh, job :: jobs => do
    let (v, children) ← copyOneEntry v owner job id copied
    copyEntries owner v (copied + 1) fresh (children ++ jobs)

def batchCopy (v : View) (owner : Id) (ids : List Id) (parent : Option Id) (fresh : List Id) :
    Except DriveError View := do
  if ids.isEmpty || ids.length > maxBatchEntries || !decide ids.Nodup then
    throw .badRequest
  ensureActiveParent v owner parent
  if parent.any fun p => p ∈ ids then
    throw .badRequest
  copyEntries owner v 0 fresh (ids.map fun id => { source := id, parent, rename := true, depth := 0 })

def handle (v : View) (owner : Id) : Request → Except DriveError View
  | .createFolder id name parent => createEntry v owner id .folder name parent
  | .createFile id name parent   => createEntry v owner id .file name parent
  | .rename id name              => renameEntry v owner id name
  | .move id parent              => moveEntry v owner id parent
  | .trash id now                => trashEntry v owner id now
  | .restore id                  => restoreEntry v owner id
  | .purge root                  => purgeOneTrashRoot v owner root
  | .batchMove ids parent        => batchMove v owner ids parent
  | .batchTrash ids now          => batchTrash v owner ids now
  | .batchCopy ids parent fresh  => batchCopy v owner ids parent fresh

def Db.serve (db : Db) (owner : Id) (r : Request) : Db :=
  match handle { base := db } owner r with
  | .ok v    => v.commit
  | .error _ => db

def Db.serveAll (db : Db) (rs : List (Id × Request)) : Db :=
  rs.foldl (fun db r => db.serve r.1 r.2) db

end MyDrive.Drive
