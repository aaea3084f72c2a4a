import Mathlib.Data.List.Infix
import MyDrive.Drive.Names
import MyDrive.Library.Execution

-- `ensure_folder` while other calls of it run. Each query of `ensure_child_folder` is one step, and so is
-- the commit of its transaction.

namespace MyDrive.Devices.Folders

open Drive

inductive ApiError
  | invalidRequest
  | conflict
  | database
  deriving DecidableEq

-- The segments after those that have been pushed.
def pushSegments : List (List Char) → List String → Except ApiError (List String)
  | [],              segments => .ok segments
  | segment :: rest, segments =>
    match normalizeName (.ofList segment) with
    | .error _ => .error .invalidRequest
    | .ok name =>
      if segments.length + 1 > 32 then .error .invalidRequest
      else pushSegments rest (segments ++ [name])

def splitFolderPath (path : String) : Except ApiError (List String) := do
  let path := trim path.toList
  if path.isEmpty || byteSize path > 1024 || '\\' ∈ path || path.head? = some '/' || ['/', '/'] <:+: path then
    throw .invalidRequest
  let segments ← pushSegments (path.splitOn '/') []
  if segments.isEmpty then
    throw .invalidRequest
  return segments

-- The error codes of a unique index, and of the other constraints.
inductive SqlError
  | unique
  | check
  deriving DecidableEq

def btrim (cs : List Char) : List Char :=
  ((cs.dropWhile (· = ' ')).reverse.dropWhile (· = ' ')).reverse

-- The `CHECK` of the column `name`.
def checkName (name : String) : Bool :=
  1 ≤ (btrim name.toList).length && (btrim name.toList).length ≤ 255 && name ≠ "." && name ≠ ".." &&
    '/' ∉ name.toList && '\\' ∉ name.toList

structure Answer where
  owner  : Id
  path   : String
  result : Except ApiError (Id × Bool)

def Answer.created (a : Answer) : Bool :=
  a.result.toOption.any (·.2)

inductive Task
  | find
  | insert
  | commit (id : Id)
  | findAgain
  deriving DecidableEq

-- A call in its loop over the segments, of which `todo` are left.
structure Call where
  owner   : Id
  path    : String
  todo    : List String
  parent  : Option Id := none
  created : Bool := false
  task    : Task := .find
  changes : Changes := {}

inductive Outcome
  | go (c : Call)
  | reply (result : Except ApiError (Id × Bool))

namespace Call

def turn (c : Call) : Outcome :=
  match c.todo, c.parent with
  | _ :: _, _       => .go c
  | [],     some id => .reply (.ok (id, c.created))
  | [],     none    => .reply (.error .invalidRequest)

-- What follows when `ensure_child_folder` returns.
def returns (c : Call) (id : Id) (created : Bool) : Outcome :=
  { c with parent := some id, created, todo := c.todo.tail, task := .find, changes := {} }.turn

end Call

structure System where
  db      : Db
  calls   : Table Id Call := .empty
  answers : List Answer := []

-- `create`: another request inserts a file or a folder. `abort`: a lost connection or a crash.
inductive Label
  | start (i owner : Id) (path : String)
  | exec (i fresh : Id)
  | create (id : Id) (e : Entry)
  | abort (i : Id)

variable [Collation]

def findChildFolder (entries : Table Id Entry) (owner : Id) (parent : Option Id) (name : String) : Option Id :=
  (entries.rows.find? fun r =>
    r.2.ownerId = owner && r.2.deletedAt.isNone && r.2.kind = .folder && r.2.parentId = parent &&
      Collation.lower r.2.name = Collation.lower name).map Prod.fst

def insertRow (v : View) (id : Id) (new : Entry) : Except SqlError View :=
  match validateDriveEntryParent v id new with
  | .error _ => .error .check
  | .ok ()   =>
    if !checkName new.name then .error .check
    else if (v.entries.lookup id).isSome || violatesUnique v.entries id new then .error .unique
    else .ok (syncDriveEntryIndex (v.setEntry id new) none id new)

-- The next query of `ensure_child_folder` for the segment `name`.
def Call.run (db : Db) (c : Call) (name : String) (fresh : Id) : Db × Outcome :=
  match c.task with
  | .find      =>
    match findChildFolder db.entries c.owner c.parent name with
    | some id => (db, c.returns id false)
    | none    => (db, .go { c with task := .insert })
  | .insert    =>
    match insertRow { base := db } fresh (newEntry c.owner c.parent .folder name) with
    | .ok v           => (db, .go { c with changes := v.changes, task := .commit fresh })
    | .error .unique  => (db, .go { c with task := .findAgain })
    | .error .check   => (db, .reply (.error .database))
  | .commit id => (({ base := db, changes := c.changes } : View).commit, c.returns id true)
  | .findAgain =>
    match findChildFolder db.entries c.owner c.parent name with
    | some id => (db, c.returns id false)
    | none    => (db, .reply (.error .conflict))

-- An insertion waits for an open transaction that has written a row with an equal key of a unique index.
def Call.blocks (c : Call) (id : Id) (e : Entry) : Bool :=
  (c.changes.entries.lookup id).isSome || violatesUnique (Table.empty.overlay c.changes.entries) id e

namespace System

def settle (s : System) (i owner : Id) (path : String) : Outcome → System
  | .go c         => { s with calls := s.calls.set i c }
  | .reply result => { s with calls := s.calls.erase i, answers := { owner, path, result } :: s.answers }

def waits (s : System) (i id : Id) (e : Entry) : Bool :=
  (s.calls.erase i).any fun _ c => c.blocks id e

-- `Uuid::new_v4` does not repeat an id.
def step (s : System) : Label → Option System
  | .start i owner path =>
    if (s.calls.lookup i).isSome then none
    else match splitFolderPath path with
      | .error e  => some (s.settle i owner path (.reply (.error e)))
      | .ok todo  => some (s.settle i owner path ({ owner, path, todo } : Call).turn)
  | .exec i fresh       =>
    match s.calls.lookup i with
    | none   => none
    | some c =>
      match c.todo with
      | []        => none
      | name :: _ =>
        if c.task = .insert ∧ ((s.db.entries.lookup fresh).isSome ∨
            s.waits i fresh (newEntry c.owner c.parent .folder name)) then
          none
        else
          let next := c.run s.db name fresh
          some ({ s with db := next.1 }.settle i c.owner c.path next.2)
  | .create id e        =>
    if (s.db.entries.lookup id).isSome || e.deletedAt.isSome || e.systemRole.isSome ||
        s.calls.any fun _ c => c.blocks id e then
      none
    else match insertRow { base := s.db } id e with
      | .error _ => some s
      | .ok v    => some { s with db := v.commit }
  | .abort i            =>
    if (s.calls.lookup i).isSome then some { s with calls := s.calls.erase i } else none

end System

-- Whether the two rows have the same key in `drive_entries_active_name`.
def Clash (e f : Entry) : Prop :=
  e.ownerId = f.ownerId ∧ e.parentId = f.parentId ∧ Collation.lower e.name = Collation.lower f.name

-- The unique index on the names of active siblings.
def UniqueNames (entries : Table Id Entry) : Prop :=
  ∀ x e y f, entries.lookup x = some e → entries.lookup y = some f → e.deletedAt = none → f.deletedAt = none →
    Clash e f → x = y

-- An active entry that has the name but for its case.
structure Named (entries : Table Id Entry) (owner : Id) (parent : Option Id) (name : String) (id : Id)
    (e : Entry) : Prop where
  found  : entries.lookup id = some e
  owner  : e.ownerId = owner
  parent : e.parentId = parent
  active : e.deletedAt = none
  name   : Collation.lower e.name = Collation.lower name

-- The active folders down a path.
def Walk (entries : Table Id Entry) (owner : Id) : Option Id → List String → Option Id → Prop
  | parent, [],            target => parent = target
  | parent, name :: names, target =>
    ∃ id e, Named entries owner parent name id e ∧ e.kind = .folder ∧ Walk entries owner (some id) names target

-- A segment of the path names an active file.
def Blocked (entries : Table Id Entry) (owner : Id) (path : List String) : Prop :=
  ∃ before name after parent id e, path = before ++ name :: after ∧ Walk entries owner none before parent ∧
    Named entries owner parent name id e ∧ e.kind = .file

-- Whether the path has these segments, but for their case.
def HasSegments (path : String) (lowered : List String) : Prop :=
  ∃ segments, splitFolderPath path = .ok segments ∧ segments.map Collation.lower = lowered

-- Not both of the answers on a path report that its folder has been created.
def Answer.Once (a b : Answer) : Prop :=
  a.owner = b.owner → ∀ p, HasSegments a.path p → HasSegments b.path p → ¬(a.created ∧ b.created)

end MyDrive.Devices.Folders
