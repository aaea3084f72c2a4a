import MyDrive.Drive.Concurrent
import MyDrive.Shares.Keys

-- `create_share` beside the requests that trash, move and restore entries, statement by statement.
-- A trash request revokes the shares in the tree that it trashes.

namespace MyDrive.Shares.Trash

open Drive

structure Tables where
  db     : Drive.Db
  shares : Table Id Share := .empty

inductive Statement
  | op (o : Op)
  | sweep (root : Id) (now : Time)
  | checkKind (resource : Resource)
  | insertShare (id : Id) (share : Share)

-- The rows of `shares` that an open transaction has revoked.
structure Sweep where
  root   : Id
  now    : Time
  shares : List Id

structure Session where
  call    : Drive.Call
  steps   : List Statement
  sweeps  : List Sweep := []
  created : Option (Id × Share) := none

inductive Request
  | trash (id : Id) (now : Time)
  | batchTrash (ids : List Id) (now : Time)
  | move (id : Id) (parent : Option Id)
  | batchMove (ids : List Id) (parent : Option Id)
  | restore (id : Id)
  | createShare (id : Id) (share : Share)

-- `trash_owned_entry` goes on with the shares after its `UPDATE`.
def statements (ops : List Op) : List Statement :=
  ops.flatMap fun o =>
    match o with
    | .write (.setDeletedAt id now) => [.op o, .sweep id now]
    | o                             => [.op o]

-- An album is not an entry, and its share is checked and created elsewhere.
def Request.steps : Request → Except DriveError (List Statement)
  | .trash id now           => (Drive.Request.trash id now).ops.map statements
  | .batchTrash ids now     => (Drive.Request.batchTrash ids now).ops.map statements
  | .move id parent         => (Drive.Request.move id parent).ops.map statements
  | .batchMove ids parent   => (Drive.Request.batchMove ids parent).ops.map statements
  | .restore id             => (Drive.Request.restore id).ops.map statements
  | .createShare id share   =>
    if share.resource.type = .album then .error .notFound
    else .ok [.op (.ensureActive share.resource.id (share.resource.type = .folder)),
      .checkKind share.resource, .insertShare id share]

namespace Tables

variable [Collation]

-- `resource_id IN (SELECT id FROM subtree)` with the owner of the request.
def inTree (t : Tables) (v : View) (owner root : Id) : List Id :=
  (t.shares.rows.filter fun r => r.2.ownerId = owner && r.2.resource.type ≠ .album &&
    (subtree v.entries owner root).any (·.1 = r.2.resource.id)).map Prod.fst

def exec (t : Tables) (v : View) (a : Session) (steps : List Statement) :
    Statement → Except DriveError Session
  | .op o               => (o.exec v { a.call with todo := [] }).map fun c =>
    { a with call := { c with todo := [] }, steps := statements c.todo ++ steps }
  | .sweep root now     =>
    let shares := t.inTree v a.call.owner root
    .ok { a with sweeps := { root, now, shares } :: a.sweeps, steps }
  | .checkKind resource =>
    match (v.entries.lookup resource.id).filter (·.ownerId = a.call.owner) with
    | some e => if resource.type.kind = some e.kind then .ok { a with steps } else .error .badRequest
    | none   => .error .badRequest
  | .insertShare id share =>
    if t.shares.any fun i s => i = id || s.token = share.token then .error .conflict
    else
      let share := { share with ownerId := a.call.owner, revokedAt := none }
      .ok { a with created := some (id, share), steps }

end Tables

-- `revoked_at = COALESCE(revoked_at, now())`
def Session.revoke (a : Session) (id : Id) (s : Share) : Share :=
  match a.sweeps.find? (id ∈ ·.shares) with
  | some sweep => { s with revokedAt := s.revokedAt.or sweep.now }
  | none       => s

def Session.commit (a : Session) (t : Tables) (v : View) : Tables where
  db     := v.commit
  shares :=
    let swept := t.shares.filterMap fun id s => some (a.revoke id s)
    match a.created with
    | some (id, share) => swept.set id share
    | none             => swept

-- Two open transactions cannot both have written a row of `shares`, or have inserted equal keys.
def Session.compatible (a b : Session) : Bool :=
  a.call.compatible b.call &&
    a.sweeps.all (fun m => b.sweeps.all fun n => m.shares.all (· ∉ n.shares)) &&
    a.created.all fun c => b.created.all fun d => c.1 ≠ d.1 && c.2.token ≠ d.2.token

inductive Label
  | start (i owner : Id) (r : Request)
  | exec (i : Id)
  | commit (i : Id)
  | abort (i : Id)

structure System where
  tables   : Tables
  sessions : Table Id Session := .empty

namespace System

def viewOf (s : System) (a : Session) : View where
  base    := s.tables.db
  changes := a.call.changes

def othersCompatible (s : System) (i : Id) (a : Session) : Bool :=
  (s.sessions.erase i).rows.all fun r => a.compatible r.2

variable [Collation]

def step (s : System) : Label → Option System
  | .start i owner r =>
    if (s.sessions.lookup i).isSome then none
    else match r.steps with
      | .error _  => some s
      | .ok steps => some { s with sessions := s.sessions.set i { call := { owner, todo := [] }, steps } }
  | .exec i          =>
    match s.sessions.lookup i with
    | none   => none
    | some a =>
      match a.steps with
      | []            => none
      | next :: steps =>
        match s.tables.exec (s.viewOf a) a steps next with
        | .error _ => some { s with sessions := s.sessions.erase i }
        | .ok a'   =>
          if s.othersCompatible i a' then some { s with sessions := s.sessions.set i a' } else none
  | .commit i        =>
    match s.sessions.lookup i with
    | none   => none
    | some a =>
      if a.steps.isEmpty then
        some { tables := a.commit s.tables (s.viewOf a), sessions := s.sessions.erase i }
      else
        none
  | .abort i         =>
    if (s.sessions.lookup i).isSome then some { s with sessions := s.sessions.erase i } else none

end System
end MyDrive.Shares.Trash
