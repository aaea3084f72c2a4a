import MyDrive.Drive.Queries

-- The triggers on `drive_entries` of migrations 0001 and 0011.

namespace MyDrive.Drive

def validateDriveEntryParent (v : View) (id : Id) (new : Entry) : Except DriveError Unit :=
  match new.parentId with
  | none        => .ok ()
  | some parent =>
    match v.entries.lookup parent with
    | none   => .error .conflict
    | some p =>
      if p.kind ≠ .folder ∨ p.ownerId ≠ new.ownerId ∨ p.deletedAt ≠ none then
        .error .conflict
      else if new.kind = .folder ∧ (chain v.entries (fun _ => true) parent).any (·.1 = id) then
        .error .conflict
      else
        .ok ()

-- A refresh leaves `buried` alone, and an inserted row takes its default.
def refreshEntryIndex (v : View) (id : Id) : View :=
  match v.entries.lookup id with
  | none   => v.setIndex id none
  | some e => v.setIndex id (e.indexRow ((v.index.lookup id).elim false (·.buried)))

def setBuried (v : View) (id : Id) (b : Bool) : View :=
  v.updateIndex (fun _ r => { r with buried := b }) [id]

def buryDescendants (v : View) (root owner : Id) : View :=
  let keep := fun e : Entry => e.ownerId = owner
  let ids := (descend v.entries (keep ·) (childrenOf v.entries (keep ·) root)).map Prod.fst
  v.updateIndex (fun _ r => { r with buried := true }) ids

structure WalkRow where
  id              : Id
  deletedAt       : Option Time
  ancestorDeleted : Bool

def rebaseNext (entries : Table Id Entry) (owner : Id) (w : WalkRow) : List WalkRow :=
  (childrenOf entries (·.ownerId = owner) w.id).map fun r =>
    { id := r.1, deletedAt := r.2.deletedAt, ancestorDeleted := w.ancestorDeleted || w.deletedAt.isSome }

-- The walk assumes that nothing above its root is trashed.
def rebaseWalk (entries : Table Id Entry) (root owner : Id) : List WalkRow :=
  Recursive.rows (rebaseNext entries owner) (entries.rows.length + 1) <|
    (rowAt entries (·.ownerId = owner) root).map fun r =>
      { id := r.1, deletedAt := r.2.deletedAt, ancestorDeleted := false }

def rebaseDescendants (v : View) (root owner : Id) : View :=
  let walk := (rebaseWalk v.entries root owner).filter (·.id ≠ root)
  let flag := fun x => walk.any fun w => w.id = x && w.ancestorDeleted
  v.updateIndex (fun x r => { r with buried := flag x }) (walk.map (·.id))

def parentHidden (v : View) (parent : Option Id) : Bool :=
  match parent with
  | none   => false
  | some p =>
    match v.entries.lookup p with
    | none   => false
    | some e => (v.index.lookup p).elim false (·.buried) || e.deletedAt.isSome

-- `old` is the row before an `UPDATE`, and `none` for an `INSERT`.
def syncDriveEntryIndex (v : View) (old : Option Entry) (id : Id) (new : Entry) : View :=
  let v := refreshEntryIndex v id
  if old.any fun o => o.parentId = new.parentId && o.deletedAt = new.deletedAt then
    v
  else if new.deletedAt.isSome then
    buryDescendants (setBuried v id false) id new.ownerId
  else
    rebaseDescendants (setBuried v id (parentHidden v new.parentId)) id new.ownerId

-- The end of migration 0011, which indexes the entries that are already there.
def backfillIndex (entries : Table Id Entry) : View :=
  let v := entries.keys.foldl refreshEntryIndex { base := { entries, index := .empty } }
  let trashed := entries.rows.filter (·.2.deletedAt.isSome)
  trashed.foldl (fun v r => buryDescendants v r.1 r.2.ownerId) v

end MyDrive.Drive
