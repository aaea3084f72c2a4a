import MyDrive.Drive.Concurrent

-- `ensure_photos_folder` while other requests rename, move and trash entries, statement by statement.

namespace MyDrive.Drive.Photos

inductive Request
  | rename (id : Id) (name : String)
  | move (id : Id) (parent : Option Id)
  | trash (id : Id) (now : Time)
  | batchMove (ids : List Id) (parent : Option Id)
  | batchTrash (ids : List Id) (now : Time)
  | ensurePhotosFolder (fresh : List Id)

-- What `ensure_photos_folder` does next in one of its four attempts.
inductive Task
  | find
  | findTx
  | adopt
  | mark (id : Id)
  | chooseName
  | insert (name : String)
  | done
  deriving DecidableEq

-- `task` is `none` for the requests that work off the operations of their call.
structure Session where
  call    : Call
  task    : Option Task := none
  attempt : Nat := 0

structure System where
  db       : Db
  sessions : Table Id Session := .empty

def Request.session (owner : Id) : Request → Except DriveError Session
  | .rename id name           => ops (.rename id name)
  | .move id parent           => ops (.move id parent)
  | .trash id now             => ops (.trash id now)
  | .batchMove ids parent     => ops (.batchMove ids parent)
  | .batchTrash ids now       => ops (.batchTrash ids now)
  | .ensurePhotosFolder fresh => .ok { call := { owner, todo := [], fresh }, task := some .find }
where
  ops (r : Drive.Request) : Except DriveError Session :=
    r.ops.map fun todo => { call := { owner, todo } }

def photosFolderId (v : View) (owner : Id) : Option Id :=
  (v.entries.rows.find? fun r =>
    r.2.ownerId = owner && r.2.systemRole = some .photos && r.2.deletedAt.isNone).map Prod.fst

variable [Collation]

-- `ORDER BY CASE lower(name) .. END, id LIMIT 1`
def adoptable (v : View) (owner : Id) : Option Id :=
  ["photos", "pictures", "photos library"].findSome? fun name =>
    ((v.entries.rows.filter fun r =>
      r.2.ownerId = owner && r.2.parentId.isNone && r.2.kind = .folder && r.2.deletedAt.isNone &&
        r.2.systemRole.isNone && Collation.lower r.2.name = name).map Prod.fst).min?

-- `none` when no row has been updated.
def setSystemRole (v : View) (owner id : Id) : Except DriveError (Option View) :=
  match (activeRow v owner id).filter (·.systemRole.isNone) with
  | none   => .ok none
  | some e => (updateEntry v id e { e with systemRole := some .photos } false).map some

def nextPhotosFolderName (v : View) (owner : Id) : Option String :=
  ["Photos", "Pictures", "Photos Library"].find? fun name =>
    !v.entries.any fun _ e =>
      e.ownerId = owner && e.parentId.isNone && e.deletedAt.isNone &&
        Collation.lower e.name = Collation.lower name

def photosFolder (owner : Id) (name : String) : Entry :=
  { ownerId := owner, parentId := none, kind := .folder, name, systemRole := some .photos }

namespace Session

-- The transaction is rolled back, and the next of the four attempts begins.
def retry (a : Session) : Option Session :=
  if a.attempt + 1 < 4 then
    some { a with
      call    := { a.call with changes := {}, shared := [], locked := [] }
      task    := some .find
      attempt := a.attempt + 1 }
  else
    none

-- `none` ends the request without a commit: it has failed, or has written nothing to commit.
def run (v : View) (a : Session) : Task → Option Session
  | .find        =>
    match photosFolderId v a.call.owner with
    | some _ => none
    | none   => some { a with task := some .findTx }
  | .findTx      =>
    match photosFolderId v a.call.owner with
    | some _ => none
    | none   => some { a with task := some .adopt }
  | .adopt       =>
    match adoptable v a.call.owner with
    | some id => some { a with
        call := { a.call with locked := id :: a.call.locked }
        task := some (.mark id) }
    | none    => some { a with task := some .chooseName }
  | .mark id     =>
    match setSystemRole v a.call.owner id with
    | .error _      => none
    | .ok none      => a.retry
    | .ok (some v') => some { a with
        call := { a.call with changes := v'.changes }
        task := some .done }
  | .chooseName  => (nextPhotosFolderName v a.call.owner).map fun name =>
    { a with task := some (.insert name) }
  | .insert name =>
    match a.call.fresh with
    | []          => none
    | id :: fresh =>
      match insertEntry v id (photosFolder a.call.owner name) with
      | .error _ => { a with call := { a.call with fresh } }.retry
      | .ok v'   => some { a with
          call := { a.call with changes := v'.changes, fresh }
          task := some .done }
  | .done        => none

def exec (v : View) (a : Session) : Option Session :=
  match a.task with
  | some task => a.run v task
  | none      =>
    match a.call.todo with
    | []         => none
    | op :: todo =>
      match op.exec v { a.call with todo } with
      | .error _ => none
      | .ok c    => some { a with call := c }

def finished (a : Session) : Bool :=
  match a.task with
  | some task => task = .done
  | none      => a.call.todo.isEmpty

-- A statement waits for the rows that another transaction has written or locked, and for the
-- transaction that has written a row with an equal key of a unique index.
def compatible (a b : Session) : Bool :=
  a.call.compatible b.call && distinct a b && distinct b a
where
  distinct (a b : Session) : Bool :=
    a.call.changes.entries.rows.all fun r =>
      r.2.all fun e => !violatesUnique (Table.empty.overlay b.call.changes.entries) r.1 e

end Session

inductive Label
  | start (i owner : Id) (r : Request)
  | exec (i : Id)
  | miss (i : Id)
  | commit (i : Id)
  | abort (i : Id)

namespace System

def viewOf (s : System) (a : Session) : View where
  base    := s.db
  changes := a.call.changes

def othersCompatible (s : System) (i : Id) (a : Session) : Bool :=
  (s.sessions.erase i).rows.all fun r => a.compatible r.2

-- `miss`: the row that the query of `adopt` waited for was changed and does not fit any more.
def step (s : System) : Label → Option System
  | .start i owner r =>
    if (s.sessions.lookup i).isSome then none
    else match r.session owner with
      | .error _ => some s
      | .ok a    => some { s with sessions := s.sessions.set i a }
  | .exec i          =>
    match s.sessions.lookup i with
    | none   => none
    | some a =>
      if a.finished then none
      else match a.exec (s.viewOf a) with
        | none    => some { s with sessions := s.sessions.erase i }
        | some a' =>
          if s.othersCompatible i a' then some { s with sessions := s.sessions.set i a' } else none
  | .miss i          =>
    match s.sessions.lookup i with
    | none   => none
    | some a =>
      if a.task = some .adopt then
        some { s with sessions := s.sessions.set i { a with task := some .chooseName } }
      else
        none
  | .commit i        =>
    match s.sessions.lookup i with
    | none   => none
    | some a =>
      if a.finished then
        some { db := (s.viewOf a).commit, sessions := s.sessions.erase i }
      else
        none
  | .abort i         =>
    if (s.sessions.lookup i).isSome then some { s with sessions := s.sessions.erase i } else none

end System
end MyDrive.Drive.Photos
