import MyDrive.Archive.Keys
import MyDrive.Library.Table

-- `member_path` and `process_archive`: a tar stream is checked, or extracted below a new directory.

namespace MyDrive.Archive

def uploadsRoot : Text := ['u', 'p', 'l', 'o', 'a', 'd', 's']

def trashRoot : Text := ['t', 'r', 'a', 's', 'h']

def previewsRoot : Text := ['p', 'r', 'e', 'v', 'i', 'e', 'w', 's']

def secretsRoot : Text := ['.', 's', 'e', 'c', 'r', 'e', 't', 's']

def storageRoots : List Text := [objectsRoot, uploadsRoot, trashRoot, previewsRoot, secretsRoot]

def optionalRoots : List Text := [secretsRoot]

-- `file` is any of the types for which `isfile` holds, and `other` a type that is unknown.
inductive Kind
  | directory
  | file
  | symlink
  | hardlink
  | device
  | fifo
  | other
  deriving DecidableEq

-- What `extractfile` reads. A stream that breaks off raises an error behind the data.
structure Source where
  data   : List UInt8
  broken : Bool := false

structure Member where
  name   : Text
  kind   : Kind
  size   : Int := 0
  source : Option Source := none

-- The members of a stream. `broken` says that an error follows the last one.
structure Stream where
  members : List Member
  broken  : Bool := false

inductive ArchiveError
  | unsafeName (name : Text)
  | absoluteName (name : Text)
  | unsafePath (name : Text)
  | unexpectedRoot (root : Text)
  | unsupportedType (name : Text)
  | rootNotDirectory (name : Text)
  | negativeSize (name : Text)
  | invalidObjectPath (name : Text)
  | invalidObjectUuid (name : Text)
  | shardMismatch (name : Text)
  | objectDirectoryDepth (name : Text)
  | invalidStagingPath (name : Text)
  | destinationExists
  | unsafeParent (path : Path)
  | duplicatePath (path : Path)
  | fileBlocksDirectory (path : Path)
  | couldNotRead (name : Text)
  | truncated (name : Text)
  | exceedsSize (name : Text)
  | missingRoots (roots : List Text)
  | unreadable
  | notRealDirectory
  | rootNameRequired
  | unsafeRoot (root : Text)
  | hardLinked (relative : Path)
  | unsupportedPath (relative : Path)
  | invalidReadyKey (key : Text)
  deriving DecidableEq

-- `[A-Za-z]:` at the start.
def hasDrive : Text → Bool
  | c :: ':' :: _ => c.isAlpha
  | _             => false

def cleanName (name : Text) : Text :=
  if name.getLast? = some '/' then name.dropLast else name

def checkObjectName (uuid : UuidParser) (name : Text) (rel : Path) : Except ArchiveError Unit :=
  match rel with
  | [first, second, filename] =>
    if !fullmatch objectKey (['/'].intercalate rel) then
      .error (.invalidObjectPath name)
    else match uuid.parse filename with
      | none    => .error (.invalidObjectUuid name)
      | some id =>
        let objectId := id.print
        if objectId ≠ filename ∨ objectId.take 2 ≠ first ∨ (objectId.drop 2).take 2 ≠ second then
          .error (.shardMismatch name)
        else
          .ok ()
  | _                         => .error (.invalidObjectPath name)

-- The checks of `member_path` that follow the split of the name.
def checkParts (uuid : UuidParser) (m : Member) (root : Text) (rest : Path) :
    Except ArchiveError Unit := do
  if m.kind ≠ .directory ∧ m.kind ≠ .file then
    throw (.unsupportedType m.name)
  if rest = [] ∧ m.kind ≠ .directory then
    throw (.rootNotDirectory m.name)
  if m.size < 0 then
    throw (.negativeSize m.name)
  if root = objectsRoot ∧ rest ≠ [] then
    if m.kind = .file then
      checkObjectName uuid m.name rest
    else if rest.length > 3 then
      throw (.objectDirectoryDepth m.name)
  if root = uploadsRoot ∧ m.kind = .file then
    match rest with
    | [part] => if !fullmatch stagingKey part then throw (.invalidStagingPath m.name)
    | _      => pure ()

def memberPath (uuid : UuidParser) (m : Member) (allowedRoots : List Text) :
    Except ArchiveError Path := do
  let name := m.name
  if name = [] ∨ '\x00' ∈ name ∨ '\\' ∈ name ∨ name.head? = some '/' then
    throw (.unsafeName name)
  if hasDrive name then
    throw (.absoluteName name)
  let parts := (cleanName name).splitOn '/'
  if cleanName name = [] ∨ parts.any (fun part => part = [] || part = ['.'] || part = ['.', '.']) then
    throw (.unsafePath name)
  match parts with
  | []           => throw (.unsafePath name)
  | root :: rest =>
    if root ∉ allowedRoots then
      throw (.unexpectedRoot root)
    checkParts uuid m root rest
    return parts

-- What is at a path of a file system.
inductive Node
  | directory
  | file (bytes : List UInt8)
  | symlink
  | other
  deriving DecidableEq

-- The paths are those below the destination, which is `[]`.
abbrev Disk := Table Path Node

-- The calls that change the file system, in which any of them may fail.
inductive Operation
  | mkdir (path : Path) (mode : Nat)
  | create (path : Path) (mode : Nat)
  | write (path : Path)
  | unlink (path : Path)
  | chmod (path : Path) (mode : Nat)
  deriving DecidableEq

def Operation.path : Operation → Path
  | .mkdir p _  => p
  | .create p _ => p
  | .write p    => p
  | .unlink p   => p
  | .chmod p _  => p

-- `disk` is `none` when the stream is only checked. `log` has the calls that have been made.
structure Progress where
  seen      : Table Path Kind := .empty
  rootsSeen : List Text := []
  total     : Int := 0
  disk      : Option Disk := none
  log       : List Operation := []

-- An error leaves behind what has been written.
abbrev Result := Except (ArchiveError × Progress) Progress

def Result.progress : Result → Progress
  | .ok s         => s
  | .error (_, s) => s

-- A loop over the levels of a path, from `current` on.
def descend {σ ε : Type} (f : σ → Path → Except ε σ) (current : Path) : Path → σ → Except ε σ
  | [],           s => .ok s
  | part :: rest, s => do
    let s ← f s (current ++ [part])
    descend f (current ++ [part]) rest s

def seeAncestor (seen : Table Path Kind) (ancestor : Path) : Except ArchiveError (Table Path Kind) :=
  match seen.lookup ancestor with
  | some .file => .error (.fileBlocksDirectory ancestor)
  | some _     => .ok seen
  | none       => .ok (seen.set ancestor .directory)

def see (seen : Table Path Kind) (parts : Path) (kind : Kind) :
    Except ArchiveError (Table Path Kind) :=
  if (seen.lookup parts).isSome then
    .error (.duplicatePath parts)
  else
    (descend seeAncestor [] parts.dropLast seen).map (·.set parts kind)

def fileMode (parts : Path) : Nat :=
  if parts.head? = some secretsRoot then 0o600 else 0o640

def directoryMode (parts : Path) : Nat :=
  if parts.head? = some secretsRoot then 0o700 else 0o750

-- What the loop over the chunks of a source comes to: `size` bytes are read, and one more is tried.
def readAll (m : Member) (source : Source) : Except ArchiveError Unit :=
  if source.data.length < m.size then
    .error (if source.broken then .unreadable else .truncated m.name)
  else if m.size < source.data.length then
    .error (.exceedsSize m.name)
  else if source.broken then
    .error .unreadable
  else
    .ok ()

namespace Progress

variable (succeeds : Operation → Bool) (s : Progress)

def call (op : Operation) (disk : Disk) : Result :=
  if succeeds op then
    .ok { s with disk := some disk, log := s.log ++ [op] }
  else
    .error (.unreadable, s)

def prepareDestination : Option Disk → Result
  | none      => .ok s
  | some disk =>
    let s := { s with disk := some disk }
    if (disk.lookup []).isSome then
      .error (.destinationExists, s)
    else
      s.call succeeds (.mkdir [] 0o700) (disk.set [] .directory)

-- One level of `ensure_directory`.
def ensurePart (current : Path) : Result :=
  match s.disk with
  | none      => .ok s
  | some disk =>
    match disk.lookup current with
    | some .directory => .ok s
    | some _          => .error (.unsafeParent current, s)
    | none            => s.call succeeds (.mkdir current 0o750) (disk.set current .directory)

def ensureDirectory (path : Path) : Result :=
  descend (fun s current => s.ensurePart succeeds current) [] path s

-- The duplicate check of a member, and its entries in `seen`.
def accept (uuid : UuidParser) (allowedRoots : List Text) (m : Member) :
    Except ArchiveError (Path × Progress) := do
  let parts ← memberPath uuid m allowedRoots
  let seen ← see s.seen parts (if m.kind = .directory then .directory else .file)
  let rootsSeen := if parts.length = 1 then s.rootsSeen ++ parts else s.rootsSeen
  return (parts, { s with seen, rootsSeen })

-- The file is removed again when it cannot be written completely.
def discard (target : Path) (disk : Disk) (e : ArchiveError) : Result :=
  if succeeds (.unlink target) then
    .error (e, { s with disk := some disk, log := s.log ++ [.unlink target] })
  else
    .error (e, s)

def extractFile (disk : Disk) (m : Member) (source : Source) (target : Path) : Result :=
  match disk.lookup target with
  | some _ => .error (.unreadable, s)
  | none   => do
    let s ← s.call succeeds (.create target (fileMode target)) (disk.set target (.file []))
    let written := disk.set target (.file (source.data.take m.size.toNat))
    match s.call succeeds (.write target) written with
    | .error (e, s) => s.discard succeeds target disk e
    | .ok s         =>
      match readAll m source with
      | .error e => s.discard succeeds target disk e
      | .ok _    => s.call succeeds (.chmod target (fileMode target)) written

def processMember (uuid : UuidParser) (allowedRoots : List Text) (m : Member) : Result :=
  match s.accept uuid allowedRoots m with
  | .error e       => .error (e, s)
  | .ok (parts, s) =>
    if m.kind = .directory then
      s.ensureDirectory succeeds parts
    else
      let s := { s with total := s.total + m.size }
      match m.source with
      | none        => .error (.couldNotRead m.name, s)
      | some source => do
        let s ← s.ensureDirectory succeeds parts.dropLast
        match s.disk with
        | some disk => s.extractFile succeeds disk m source parts
        | none      =>
          match readAll m source with
          | .error e => .error (e, s)
          | .ok _    => .ok s

-- The roots are made, if they have not been extracted, and every directory gets its mode.
def finish (allowedRoots : List Text) : Result :=
  match s.disk with
  | none   => .ok s
  | some _ => do
    let s ← allowedRoots.foldlM (fun s root => s.ensureDirectory succeeds [root]) s
    match s.disk with
    | none      => .ok s
    | some disk =>
      let directories := disk.rows.filterMap fun (path, node) =>
        if path ≠ [] ∧ node = .directory then some path else none
      let deepest := directories.mergeSort fun p q => q.length ≤ p.length
      let s ← deepest.foldlM
        (fun s path => s.call succeeds (.chmod path (directoryMode path)) disk) s
      s.call succeeds (.chmod [] 0o750) disk

end Progress

-- `succeeds` says which calls of the file system succeed, and `destination` is the file system that
-- the stream is extracted to, if it is.
def processArchive (uuid : UuidParser) (succeeds : Operation → Bool) (destination : Option Disk)
    (allowedRoots : List Text) (stream : Stream) : Result := do
  let s ← Progress.prepareDestination succeeds {} destination
  let s ← stream.members.foldlM (fun s m => s.processMember succeeds uuid allowedRoots m) s
  let missing := allowedRoots.filter fun root => root ∉ optionalRoots && root ∉ s.rootsSeen
  if stream.broken then
    .error (.unreadable, s)
  else if missing ≠ [] then
    .error (.missingRoots missing, s)
  else
    s.finish succeeds allowedRoots

end MyDrive.Archive
