import MyDrive.Filtering.Globs

-- `FilterEngine` and `FileScanner`: the files below a directory that a job backs up.

namespace MyDrive.Filtering

structure BackupJob where
  includeExtensions : List Text := []
  excludeExtensions : List Text := []
  excludeFolders    : List Text := []
  excludePatterns   : List Text := []
  maxFileBytes      : Option Int := none
  minFileBytes      : Option Int := none
  backupHidden      : Option Bool := none
  backupSystem      : Option Bool := none
  followSymlinks    : Option Bool := none

structure ClientSettings where
  backupHiddenFiles : Bool := false
  backupSystemFiles : Bool := false
  followSymlinks    : Bool := false

-- A path, by its names. Full paths are those below the source of the job.
abbrev Path := List Text

structure ScannedFile where
  fullPath       : Path
  relativePath   : Text
  name           : Text
  size           : Int
  modifiedUnixMs : Int
  hidden         : Bool
  system         : Bool
  symlink        : Bool
  deriving DecidableEq

structure FileAttributes where
  directory    : Bool := false
  hidden       : Bool := false
  system       : Bool := false
  reparsePoint : Bool := false

-- What `ResolveLinkTarget` does: it finds a target, there is none, or it fails.
inductive LinkTarget
  | target
  | none
  | unreadable
  deriving DecidableEq

-- An entry of a directory. `attributes` is `none` when they cannot be read, and `node` is what the
-- path of the entry leads to, through a link or not.
structure Entry (ν : Type) where
  name             : Text
  attributes       : Option FileAttributes
  linkTarget       : LinkTarget := .none
  present          : Bool := true
  length           : Int := 0
  lastWriteTimeUtc : Int := 0
  node             : ν

-- The directories that can be read, with what is in them. Nodes are physical files and directories.
structure Graph (ν : Type) where
  root    : ν
  entries : ν → Option (List (Entry ν))
  names {n es} : entries n = some es → (es.map Entry.name).Nodup

variable {ν : Type} (g : Graph ν)

def Graph.enter (n : ν) (name : Text) : Option ν :=
  (g.entries n).bind fun es => (es.find? (·.name = name)).map Entry.node

-- The node that a path leads to.
def Graph.resolve (path : Path) : Option ν :=
  path.foldl (fun n name => n.bind (g.enter · name)) (some g.root)

def Graph.enumerateFileSystemEntries (directory : Path) : Option (List (Entry ν)) :=
  (g.resolve directory).bind g.entries

def isSymlink (e : Entry ν) (attributes : FileAttributes) : Bool :=
  attributes.reparsePoint && e.linkTarget ≠ .none

-- `Path.GetExtension`.
def getExtension (name : Text) : Text :=
  let extension := (name.reverse.takeWhile (· ≠ 46)).reverse
  if extension = [] ∨ 46 ∉ name then [] else 46 :: extension

def dots : List Text := [[46], [46, 46]]

variable [DotNet] (job : BackupJob) (settings : ClientSettings)

open DotNet

def equalsIgnoreCase (s t : Text) : Bool :=
  s.map fold = t.map fold

def extensionEquals (rule extension : Text) : Bool :=
  let normalized := if rule.head? = some 46 then rule else 46 :: rule
  equalsIgnoreCase normalized extension

-- What a pattern is matched with does not depend on what has been cached.
def includeFile (file : ScannedFile) : Bool :=
  if file.symlink && !(job.followSymlinks.getD settings.followSymlinks) then false
  else if file.system && !(job.backupSystem.getD settings.backupSystemFiles) then false
  else if file.hidden && !(job.backupHidden.getD settings.backupHiddenFiles) then false
  else if job.maxFileBytes.any (· < file.size) then false
  else if job.minFileBytes.any (file.size < ·) then false
  else
    let extension := getExtension file.name
    if 0 < job.includeExtensions.length &&
        !(job.includeExtensions.any (extensionEquals · extension)) then
      false
    else if job.excludeExtensions.any (extensionEquals · extension) then false
    else !(job.excludePatterns.any fun pattern =>
      (isMatch .empty pattern file.relativePath file.name).1)

def excludeDirectory (name : Text) : Bool :=
  job.excludeFolders.any (equalsIgnoreCase · name)

def follow : Bool :=
  job.followSymlinks.getD settings.followSymlinks

def childRelative (relative name : Text) : Text :=
  if relative = [] then name else relative ++ slash :: name

-- The file that an entry of `directory` is.
def scanned (directory : Path) (relative : Text) (e : Entry ν) (attributes : FileAttributes) :
    ScannedFile where
  fullPath       := directory ++ [e.name]
  relativePath   := normalize (childRelative relative e.name)
  name           := e.name
  size           := if e.present then e.length else 0
  modifiedUnixMs := e.lastWriteTimeUtc
  hidden         := attributes.hidden
  system         := attributes.system
  symlink        := isSymlink e attributes

-- One round of the loop over the entries of a directory. `walk` is what goes into a directory.
def visit (walk : Path → Text → List Path → List ScannedFile × List Path) (directory : Path)
    (relative : Text) (visited : List Path) (e : Entry ν) : List ScannedFile × List Path :=
  if e.name ∈ dots then
    ([], visited)
  else match e.attributes with
    | none            => ([], visited)
    | some attributes =>
      if attributes.directory then
        if excludeDirectory job e.name then ([], visited)
        else if isSymlink e attributes && !follow job settings then ([], visited)
        else if attributes.hidden && !(job.backupHidden.getD settings.backupHiddenFiles) then
          ([], visited)
        else if attributes.system && !(job.backupSystem.getD settings.backupSystemFiles) then
          ([], visited)
        else walk (directory ++ [e.name]) (childRelative relative e.name) visited
      else
        let file := scanned directory relative e attributes
        (if includeFile job settings file then [file] else [], visited)

-- `levels` is what is left of the depth. The visited paths are compared ignoring case. An error that
-- is not caught, or a cancellation, ends the enumeration after some of these files.
def walk : Nat → Path → Text → List Path → List ScannedFile × List Path
  | 0,          _,         _,        visited => ([], visited)
  | levels + 1, directory, relative, visited =>
    let key := directory.map (·.map fold)
    if key ∈ visited then
      ([], visited)
    else match g.enumerateFileSystemEntries directory with
      | none         => ([], key :: visited)
      | some entries => entries.foldl
        (fun s e =>
          let r := visit job settings (walk levels) directory relative s.2 e
          (s.1 ++ r.1, r.2))
        ([], key :: visited)

-- A directory is at a depth of 64 at most.
def enumerate : List ScannedFile :=
  (walk g job settings 65 [] [] []).1

end MyDrive.Filtering
