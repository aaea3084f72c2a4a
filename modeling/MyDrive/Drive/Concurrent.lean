import MyDrive.Drive.Requests
import MyDrive.Library.Execution

-- Requests that overlap. Each query and each `UPDATE`, `INSERT` or `DELETE` with its triggers is
-- one step, and `COMMIT` is another. A statement sees the rows that others have committed and the
-- rows of its own transaction.

namespace MyDrive.Drive

inductive Write
  | insert (id : Id) (parent : Option Id) (kind : Kind) (name : String)
  | updateName (id : Id) (name : String)
  | updateParent (id : Id) (parent : Option Id)
  | setDeletedAt (id : Id) (now : Time)
  | clearDeletedAt (id : Id)
  | delete (id : Id)

inductive Op
  | write (w : Write)
  | ensureActive (id : Id) (requireFolder : Bool)
  | ensureMutable (id : Id)
  | ensureNotContained (id parent : Id)
  | selectTrashed (id : Id)
  | lockTrashed (root : Id)
  | selectSubtree (root : Id)
  | copySource (job : CopyJob)
  | copyName (job : CopyJob) (source : Entry)
  | copyChildren (job : CopyJob) (kind : Kind) (id : Id)

-- A request in progress, with the rows that its transaction has written and the row locks that it
-- holds besides: `shared` are `FOR KEY SHARE` (of foreign keys), `locked` are `FOR UPDATE`.
structure Call where
  owner   : Id
  todo    : List Op
  changes : Changes := {}
  shared  : List Id := []
  locked  : List Id := []
  fresh   : List Id := []
  copied  : Nat := 0

structure System where
  db    : Db
  calls : Table Id Call := .empty

def ensureParentOps (parent : Option Id) : List Op :=
  parent.toList.map (.ensureActive · true)

def moveOps (id : Id) (parent : Option Id) : List Op :=
  parent.toList.map (.ensureNotContained id ·) ++ [.write (.updateParent id parent)]

def batchOps (ids : List Id) (ops : Id → List Op) : Except DriveError (List Op) :=
  if ids.isEmpty || ids.length > maxBatchEntries || !decide ids.Nodup then
    .error .badRequest
  else
    .ok (ids.flatMap ops)

def batchIntoOps (ids : List Id) (parent : Option Id) (ops : Id → List Op) :
    Except DriveError (List Op) :=
  if parent.any fun p => p ∈ ids then
    .error .badRequest
  else
    (batchOps ids ops).map (ensureParentOps parent ++ ·)

def createOps (id : Id) (kind : Kind) (name : String) (parent : Option Id) :
    Except DriveError (List Op) :=
  (normalizeName name).map fun name => ensureParentOps parent ++ [.write (.insert id parent kind name)]

-- The steps of a handler up to its `COMMIT`.
def Request.ops : Request → Except DriveError (List Op)
  | .createFolder id name parent => createOps id .folder name parent
  | .createFile id name parent   => createOps id .file name parent
  | .rename id name              => (normalizeName name).map fun name =>
    [.ensureActive id false, .ensureMutable id, .write (.updateName id name)]
  | .move id parent              =>
    .ok <| .ensureActive id false :: .ensureMutable id :: ensureParentOps parent ++ moveOps id parent
  | .trash id now                =>
    .ok [.ensureActive id false, .ensureMutable id, .write (.setDeletedAt id now)]
  | .restore id                  => .ok [.selectTrashed id]
  | .purge root                  => .ok [.lockTrashed root]
  | .batchMove ids parent        =>
    batchIntoOps ids parent fun id => .ensureMutable id :: moveOps id parent
  | .batchTrash ids now          => batchOps ids fun id => [.ensureMutable id, .write (.setDeletedAt id now)]
  | .batchCopy ids parent _      =>
    batchIntoOps ids parent fun id => [.copySource { source := id, parent, rename := true, depth := 0 }]

def Request.fresh : Request → List Id
  | .batchCopy _ _ fresh => fresh
  | _                    => []

variable [Collation]

def Write.exec (v : View) (owner : Id) : Write → Except DriveError View
  | .insert id parent kind name =>
    -- `Uuid::new_v4` does not repeat an id.
    if (v.base.entries.lookup id).isSome then .error .conflict
    else insertEntry v id (newEntry owner parent kind name)
  | .updateName id name         => Drive.updateName v owner id name
  | .updateParent id parent     => Drive.updateParent v owner id parent
  | .setDeletedAt id now        => Drive.setDeletedAt v owner id now
  | .clearDeletedAt id          => Drive.clearDeletedAt v owner id
  | .delete id                  => deleteEntry v id

-- The check of a foreign key locks the row that a new key refers to.
def Write.shares (v : View) : Write → List Id
  | .insert _ parent _ _    => parent.toList
  | .updateParent id parent =>
    if (v.entries.lookup id).any (·.parentId ≠ parent) then parent.toList else []
  | _                       => []

def Call.check (c : Call) (w : Except DriveError Unit) : Except DriveError Call :=
  w.map fun _ => c

-- The effect of an operation on its call `c`, whose remaining operations are `c.todo`.
def Op.exec (v : View) (c : Call) : Op → Except DriveError Call
  | .write w                       => (w.exec v c.owner).map fun v' =>
    { c with changes := v'.changes, shared := w.shares v ++ c.shared }
  | .ensureActive id requireFolder => c.check (ensureActiveEntry v.entries c.owner id requireFolder)
  | .ensureMutable id              => c.check (ensureMutableEntry v.entries c.owner id)
  | .ensureNotContained id parent  =>
    if parent = id || folderContains v.entries c.owner id parent then .error .conflict else .ok c
  | .selectTrashed id              =>
    match trashedRow v c.owner id with
    | none   => .error .notFound
    | some e =>
      .ok { c with todo := ensureParentOps e.parentId ++ [.write (.clearDeletedAt id)] ++ c.todo }
  | .lockTrashed root              =>
    match trashedRow v c.owner root with
    | none   => .ok c
    | some _ => .ok { c with todo := .selectSubtree root :: c.todo, locked := root :: c.locked }
  | .selectSubtree root            =>
    let deletes := (subtree v.entries c.owner root).reverse.map fun r => Op.write (.delete r.1)
    .ok { c with todo := deletes ++ c.todo }
  | .copySource job                =>
    if job.depth > 40 ∨ c.copied + 1 > maxCopyEntries then .error .badRequest
    else (Drive.copySource v c.owner job.source).map fun source =>
      { c with todo := .copyName job source :: c.todo, copied := c.copied + 1 }
  | .copyName job source           =>
    match c.fresh with
    | []          => .error .database
    | id :: fresh => (Drive.copyName v c.owner job source).map fun name =>
      { c with
        todo  := .write (.insert id job.parent source.kind name) ::
          .copyChildren job source.kind id :: c.todo
        fresh := fresh }
  | .copyChildren job kind id      =>
    .ok { c with todo := (Drive.copyChildren v c.owner job kind id).map .copySource ++ c.todo }

-- The row locks of two open transactions. A row that one of them has written or locked cannot be
-- written or locked by the other, and it cannot be deleted while the other refers to it.
def Call.compatible (c d : Call) : Bool :=
  apart c d && apart d c
where
  apart (c d : Call) : Bool :=
    c.changes.entries.keys.all (fun x => (d.changes.entries.lookup x).isNone && x ∉ d.locked) &&
    c.changes.index.keys.all (fun x => (d.changes.index.lookup x).isNone) &&
    c.shared.all (fun x => d.changes.entries.lookup x ≠ some none && x ∉ d.locked) &&
    c.locked.all (· ∉ d.locked)

inductive Label
  | start (i owner : Id) (r : Request)
  | exec (i : Id)
  | commit (i : Id)
  | abort (i : Id)

namespace System

def viewOf (s : System) (c : Call) : View where
  base    := s.db
  changes := c.changes

def othersCompatible (s : System) (i : Id) (c : Call) : Bool :=
  (s.calls.erase i).rows.all fun r => c.compatible r.2

-- A failing handler drops its transaction. `abort` is a lost connection, a deadlock or a crash.
def step (s : System) : Label → Option System
  | .start i owner r =>
    if (s.calls.lookup i).isSome then none
    else match r.ops with
      | .error _ => some s
      | .ok todo => some { s with calls := s.calls.set i { owner, todo, fresh := r.fresh } }
  | .exec i          =>
    match s.calls.lookup i with
    | none   => none
    | some c =>
      match c.todo with
      | []         => none
      | op :: todo =>
        match op.exec (s.viewOf c) { c with todo } with
        | .error _ => some { s with calls := s.calls.erase i }
        | .ok c    =>
          if s.othersCompatible i c then some { s with calls := s.calls.set i c } else none
  | .commit i        =>
    match s.calls.lookup i with
    | none   => none
    | some c =>
      if c.todo.isEmpty then
        some { db := (s.viewOf c).commit, calls := s.calls.erase i }
      else
        none
  | .abort i         =>
    if (s.calls.lookup i).isSome then some { s with calls := s.calls.erase i } else none

end System
end MyDrive.Drive
