import MyDrive.Drive.Requests

-- A batch copy with what it copies of the files. `Requests` has the same loop on `drive_entries` alone.

namespace MyDrive.Drive

-- The current version of a file.
structure Content where
  objectId : Id
  size     : Nat
  deriving DecidableEq

-- `contents` has the files with a current version.
structure Volume where
  view     : View
  contents : Table Id Content

namespace Volume

def copyContent (s : Volume) (source id : Id) : Table Id Content :=
  match s.view.entries.lookup source, s.contents.lookup source with
  | some e, some c => if e.kind = .file then s.contents.set id c else s.contents
  | _, _           => s.contents

variable [Collation]

def copyEntries (owner : Id) (s : Volume) (copied : Nat) : List Id → List CopyJob →
    Except DriveError Volume
  | _,           []          => .ok s
  | [],          _ :: _      => .error .database
  | id :: fresh, job :: jobs => do
    let (view, children) ← copyOneEntry s.view owner job id copied
    let contents := s.copyContent job.source id
    copyEntries owner { view, contents } (copied + 1) fresh (children ++ jobs)

def batchCopy (s : Volume) (owner : Id) (ids : List Id) (parent : Option Id) (fresh : List Id) :
    Except DriveError Volume := do
  if ids.isEmpty || ids.length > maxBatchEntries || !decide ids.Nodup then
    throw .badRequest
  ensureActiveParent s.view owner parent
  if parent.any fun p => p ∈ ids then
    throw .badRequest
  s.copyEntries owner 0 fresh
    (ids.map fun id => { source := id, parent, rename := true, depth := 0 })

-- The volume after the request. A request that fails rolls its transaction back.
def serveCopy (s : Volume) (owner : Id) (ids : List Id) (parent : Option Id) (fresh : List Id) :
    Volume :=
  match s.batchCopy owner ids parent fresh with
  | .ok s    => s
  | .error _ => s

end Volume
end MyDrive.Drive
