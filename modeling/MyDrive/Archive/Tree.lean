import MyDrive.Archive.Members

-- `validate_storage_tree`, the archive that `backup.sh` makes of a storage tree, and the rows of
-- `validate_ready_objects`.

namespace MyDrive.Archive

inductive Entry
  | directory
  | file (inode : Nat × Nat) (bytes : List UInt8)
  | symlink
  | other
  deriving DecidableEq

-- A component of a path.
def Name (t : Text) : Prop :=
  t ≠ [] ∧ t ≠ ['.'] ∧ t ≠ ['.', '.'] ∧ '/' ∉ t ∧ '\x00' ∉ t

-- What is below a directory, which is `[]` itself.
structure StorageTree where
  entries : Table Path Entry
  names {p e} : entries.lookup p = some e → ∀ part ∈ p, Name part
  parents {p part e} : entries.lookup (p ++ [part]) = some e → entries.lookup p = some .directory

-- How a path is listed in an archive.
def member (path : Path) (e : Entry) : Member :=
  let name := ['/'].intercalate path
  match e with
  | .directory    => { name, kind := .directory }
  | .file _ bytes => { name, kind := .file, size := bytes.length, source := some { data := bytes } }
  | .symlink      => { name, kind := .symlink }
  | .other        => { name, kind := .device }

def archive (paths : List (Path × Entry)) : Stream where
  members := paths.map fun r => member r.1 r.2

namespace StorageTree

variable (tree : StorageTree)

-- The paths below a directory, by what comes after it. In which order a directory is read is not
-- known.
def walk (root : Path) : List (Path × Entry) :=
  tree.entries.rows.filterMap fun r =>
    if root.isPrefixOf r.1 ∧ r.1 ≠ root then some (r.1.drop root.length, r.2) else none

-- One path of the walk, with the inodes that have come before.
def checkEntry (uuid : UuidParser) (allowedRoots : List Text) (rootName : Text)
    (seenInodes : List (Nat × Nat)) (r : Path × Entry) : Except ArchiveError (List (Nat × Nat)) := do
  let relative := rootName :: r.1
  let inodes ← match r.2 with
    | .directory    => pure seenInodes
    | .file inode _ =>
      if inode ∈ seenInodes then throw (.hardLinked relative) else pure (inode :: seenInodes)
    | _             => throw (.unsupportedPath relative)
  let _ ← memberPath uuid { member relative r.2 with source := none } allowedRoots
  return inodes

def checkRoot (uuid : UuidParser) (allowedRoots : List Text) (s : List (Nat × Nat) × Nat)
    (rootName : Text) (storageRoot : Path) : Except ArchiveError (List (Nat × Nat) × Nat) :=
  match tree.entries.lookup storageRoot with
  | some .directory => do
    let entries := tree.walk storageRoot
    let inodes ← entries.foldlM (checkEntry uuid allowedRoots rootName) s.1
    return (inodes, s.2 + entries.length)
  | some _          => .error (.unsafeRoot rootName)
  | none            => if rootName ∈ optionalRoots then .ok s else .error (.unsafeRoot rootName)

def validateStorageTree (uuid : UuidParser) (allowedRoots : List Text)
    (archiveRootName : Option Text := none) : Except ArchiveError Nat := do
  if tree.entries.lookup [] ≠ some .directory then
    throw .notRealDirectory
  let rootsToScan ← match archiveRootName with
    | some name =>
      if allowedRoots.length ≠ 1 ∨ name ∉ allowedRoots then
        throw .rootNameRequired
      else
        pure [(name, [])]
    | none      => pure (allowedRoots.map fun name => (name, [name]))
  let s ← rootsToScan.foldlM (fun s r => tree.checkRoot uuid allowedRoots s r.1 r.2) ([], 0)
  return s.2

-- The roots that `backup.sh` archives, and those that it names to the checks.
def storageRoots : List Text :=
  [objectsRoot, uploadsRoot, trashRoot] ++
    if (tree.entries.lookup [secretsRoot]).isSome then [secretsRoot] else []

def checkedRoots : List Text := [objectsRoot, uploadsRoot, trashRoot, secretsRoot]

-- The archive lists every path below the roots once, a directory before its contents.
structure Archives (paths : List (Path × Entry)) : Prop where
  perm    : paths.Perm (tree.entries.rows.filter fun r => r.1.head?.any (· ∈ tree.storageRoots))
  ordered : paths.Pairwise fun r r' => ¬r'.1 <+: r.1

end StorageTree

-- A row of the ready objects, up to the payload. `size` is `none` when `int` refuses its text.
structure ReadyRow where
  key      : Text
  size     : Option Int
  checksum : Text

def checkReadyRow (uuid : UuidParser) (seenKeys : List Text) (r : ReadyRow) :
    Except ArchiveError (List Text) :=
  if r.key ∈ seenKeys ∨ !fullmatch objectKey r.key then
    .error (.invalidReadyKey r.key)
  else match r.key.splitOn '/', r.size with
    | first :: second :: filename :: _, some size =>
      match uuid.parse filename with
      | none    => .error (.invalidReadyKey r.key)
      | some id =>
        let objectId := id.print
        if objectId ≠ filename ∨ objectId.take 2 ≠ first ∨ (objectId.drop 2).take 2 ≠ second ∨
            size < 0 ∨ !fullmatch (List.replicate 64 isHex) r.checksum then
          .error (.invalidReadyKey r.key)
        else
          .ok (r.key :: seenKeys)
    | _, _                                        => .error (.invalidReadyKey r.key)

end MyDrive.Archive
