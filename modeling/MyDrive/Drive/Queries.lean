import MyDrive.Drive.Database
import MyDrive.Library.Recursive

namespace MyDrive.Drive

variable (entries : Table Id Entry)

def parentOf (id : Id) : Option Id :=
  (entries.lookup id).bind Entry.parentId

def rowAt (keep : Entry → Bool) (id : Id) : List (Id × Entry) :=
  ((entries.lookup id).filter keep).toList.map (id, ·)

def childrenOf (keep : Entry → Bool) (id : Id) : List (Id × Entry) :=
  entries.rows.filter fun r => r.2.parentId = some id && keep r.2

-- The recursive walks upwards (`parent_chain`, `ancestors`) and downwards (`subtree`,
-- `descendants`). No path is longer than the table unless the parent pointers form a cycle, and
-- then the queries do not return at all.
def chain (keep : Entry → Bool) (id : Id) : List (Id × Entry) :=
  Recursive.rows (fun r => r.2.parentId.toList.flatMap (rowAt entries keep))
    (entries.rows.length + 1) (rowAt entries keep id)

def descend (keep : Entry → Bool) (roots : List (Id × Entry)) : List (Id × Entry) :=
  Recursive.rows (fun r => childrenOf entries keep r.1) (entries.rows.length + 1) roots

def parentChain (owner id : Id) : List (Id × Entry) :=
  chain entries (·.ownerId = owner) id

def subtree (owner id : Id) : List (Id × Entry) :=
  descend entries (·.ownerId = owner) (rowAt entries (·.ownerId = owner) id)

def ensureActiveEntry (owner id : Id) (requireFolder : Bool) : Except DriveError Unit :=
  let rows := parentChain entries owner id
  if rows.any (fun r => r.1 = id && r.2.deletedAt.isNone && (!requireFolder || r.2.kind = .folder))
      && !rows.any (·.2.deletedAt.isSome)
  then .ok ()
  else .error .notFound

def ensureMutableEntry (owner id : Id) : Except DriveError Unit :=
  match (entries.lookup id).filter fun e => e.ownerId = owner && e.deletedAt.isNone with
  | some e => if e.systemRole.isSome then .error .protectedEntry else .ok ()
  | none   => .error .notFound

def folderContains (owner folder candidate : Id) : Bool :=
  let keep := fun e : Entry => e.ownerId = owner && e.deletedAt.isNone
  let root := rowAt entries (fun e => e.ownerId = owner && e.kind = .folder) folder
  (descend entries keep root).any (·.1 = candidate)

end MyDrive.Drive
