import MyDrive.Drive.Triggers

-- The statements that write `drive_entries`, with the constraints and triggers of the table.

namespace MyDrive.Drive

variable [Collation]

-- `drive_entries_active_name` and `drive_entries_one_system_role`, which cover active rows only.
def violatesUnique (entries : Table Id Entry) (id : Id) (new : Entry) : Bool :=
  new.deletedAt.isNone && entries.any fun x e =>
    x ≠ id && e.deletedAt.isNone && e.ownerId = new.ownerId &&
      ((e.parentId = new.parentId && Collation.lower e.name = Collation.lower new.name) ||
        (new.systemRole.isSome && e.systemRole = new.systemRole))

def insertEntry (v : View) (id : Id) (new : Entry) : Except DriveError View := do
  if (v.entries.lookup id).isSome then
    throw .conflict
  validateDriveEntryParent v id new
  if violatesUnique v.entries id new then
    throw .conflict
  return syncDriveEntryIndex (v.setEntry id new) none id new

-- The parent guard fires for an `UPDATE` that names `owner_id`, `parent_id` or `kind`.
def updateEntry (v : View) (id : Id) (old new : Entry) (guarded : Bool) :
    Except DriveError View := do
  if guarded then
    validateDriveEntryParent v id new
  if violatesUnique v.entries id new then
    throw .conflict
  return syncDriveEntryIndex (v.setEntry id new) old id new

-- `ON DELETE RESTRICT` of `parent_id`, and `ON DELETE CASCADE` of the index row.
def deleteEntry (v : View) (id : Id) : Except DriveError View :=
  if v.entries.any fun _ e => e.parentId = some id then
    .error .notFound
  else
    .ok ((v.setEntry id none).setIndex id none)

def activeRow (v : View) (owner id : Id) : Option Entry :=
  (v.entries.lookup id).filter fun e => e.ownerId = owner && e.deletedAt.isNone

def trashedRow (v : View) (owner id : Id) : Option Entry :=
  (v.entries.lookup id).filter fun e => e.ownerId = owner && e.deletedAt.isSome

def updateName (v : View) (owner id : Id) (name : String) : Except DriveError View :=
  match activeRow v owner id with
  | none   => .error .notFound
  | some e => updateEntry v id e { e with name } false

def updateParent (v : View) (owner id : Id) (parent : Option Id) : Except DriveError View :=
  match activeRow v owner id with
  | none   => .error .notFound
  | some e => updateEntry v id e { e with parentId := parent } true

def setDeletedAt (v : View) (owner id : Id) (now : Time) : Except DriveError View :=
  match activeRow v owner id with
  | none   => .error .notFound
  | some e => updateEntry v id e { e with deletedAt := some now } false

def clearDeletedAt (v : View) (owner id : Id) : Except DriveError View :=
  match trashedRow v owner id with
  | none   => .error .notFound
  | some e => updateEntry v id e { e with deletedAt := none } false

end MyDrive.Drive
