import MyDrive.Media.Previews

-- The columns of `entry_index` that `refresh_entry_index` computes, and the triggers of migration 0011
-- that call it. The column `buried`, which it leaves alone, is with the triggers of `drive_entries`.

namespace MyDrive.Index

open Media (Variant DerivativeKey)

variable [Collation]

inductive Category
  | folder
  | image
  | video
  | audio
  | document
  | archive
  | other
  deriving DecidableEq

inductive ObjectState
  | pending
  | ready
  | deleting
  | failed
  deriving DecidableEq

structure Entry extends Drive.Entry where
  createdAt : Time
  updatedAt : Time
  deriving DecidableEq

structure File where
  currentVersionId : Option Id := none
  deriving DecidableEq

structure FileVersion where
  fileId          : Id
  storageObjectId : Id
  sizeBytes       : Nat
  deriving DecidableEq

structure StorageObject where
  sizeBytes    : Nat
  mimeDetected : Option String := none
  state        : ObjectState := .pending
  deriving DecidableEq

structure Derivative where
  width  : Option Nat
  height : Option Nat
  deriving DecidableEq

def Derivative.dimensions (d : Derivative) : Option (Nat × Nat) :=
  d.width.bind fun width => d.height.map (width, ·)

-- The JSON object in the column `media`.
structure MediaColumn where
  width  : Option Nat := none
  height : Option Nat := none
  deriving DecidableEq

-- The operator `||` of JSON objects.
def MediaColumn.append (m m' : MediaColumn) : MediaColumn where
  width  := m'.width <|> m.width
  height := m'.height <|> m.height

structure Row where
  ownerId        : Id
  parentId       : Option Id
  kind           : Drive.Kind
  name           : String
  nameNormalized : String
  mimeType       : Option String
  category       : Category
  sizeBytes      : Nat
  createdAt      : Time
  updatedAt      : Time
  deletedAt      : Option Time
  media          : MediaColumn
  deriving DecidableEq

structure Tables where
  entries     : Table Id Entry := .empty
  files       : Table Id File := .empty
  versions    : Table Id FileVersion := .empty
  objects     : Table Id StorageObject := .empty
  derivatives : Table DerivativeKey Derivative := .empty
  index       : Table Id Row := .empty

def documentTypes : List String :=
  [ "application/pdf"
  , "application/msword"
  , "application/vnd.openxmlformats-officedocument.wordprocessingml.document"
  , "application/vnd.ms-excel"
  , "application/vnd.openxmlformats-officedocument.spreadsheetml.sheet"
  , "application/vnd.ms-powerpoint"
  , "application/vnd.openxmlformats-officedocument.presentationml.presentation"
  , "application/rtf"
  , "application/json" ]

def archiveTypes : List String :=
  [ "application/zip"
  , "application/x-zip-compressed"
  , "application/x-tar"
  , "application/gzip"
  , "application/x-gzip"
  , "application/x-7z-compressed"
  , "application/x-rar-compressed"
  , "application/vnd.rar"
  , "application/x-bzip2" ]

-- `LIKE 'start%'`, and `IN`, of a type that may be `NULL`.
def like (mime : Option String) (start : String) : Bool :=
  mime.any fun m => start.toList.isPrefixOf m.toList

def isIn (mime : Option String) (types : List String) : Bool :=
  mime.any (types.contains ·)

def entryCategory (kind : Drive.Kind) (mime : Option String) : Category :=
  if kind = .folder then .folder
  else if like mime "image/" then .image
  else if like mime "video/" then .video
  else if like mime "audio/" then .audio
  else if like mime "text/" || isIn mime documentTypes then .document
  else if isIn mime archiveTypes then .archive
  else .other

namespace Tables

variable (t : Tables)

-- The joins of `refresh_entry_index`.
def currentVersion (id : Id) : Option (Id × FileVersion) :=
  ((t.files.lookup id).bind (·.currentVersionId)).bind fun v => (t.versions.lookup v).map (v, ·)

def currentObject (id : Id) : Option StorageObject :=
  (t.currentVersion id).bind fun v => t.objects.lookup v.2.storageObjectId

-- The variants with dimensions, in the order of their preference.
def variants : List Variant :=
  [.viewer, .videoPoster, .card]

def derivativesOf (version : Id) : List (DerivativeKey × Derivative) :=
  t.derivatives.rows.filter (·.1.fileVersionId = version)

def preferred (rows : List (DerivativeKey × Derivative)) : Option (Nat × Nat) :=
  variants.findSome? fun variant =>
    rows.findSome? fun r => if r.1.variant = variant then r.2.dimensions else none

def dimensions (id : Id) : Option (Nat × Nat) :=
  (t.currentVersion id).bind fun v => preferred (t.derivativesOf v.1)

def row (id : Id) (e : Entry) : Row :=
  let mime := (t.currentObject id).bind (·.mimeDetected)
  { ownerId        := e.ownerId
    parentId       := e.parentId
    kind           := e.kind
    name           := e.name
    nameNormalized := Collation.lower e.name
    mimeType       := mime
    category       := entryCategory e.kind mime
    sizeBytes      := ((t.currentVersion id).map (·.2.sizeBytes)).getD 0
    createdAt      := e.createdAt
    updatedAt      := e.updatedAt
    deletedAt      := e.deletedAt
    media          :=
      match t.dimensions id with
      | none                 => {}
      | some (width, height) => { width := some width, height := some height } }

-- The `DO UPDATE` of a row that is already there.
def upsert (old : Option Row) (excluded : Row) : Row :=
  match old with
  | none     => excluded
  | some old => { excluded with
    media := if excluded.media = {} then old.media else old.media.append excluded.media }

def refreshEntryIndex (id : Id) : Tables :=
  match t.entries.lookup id with
  | none   => { t with index := t.index.erase id }
  | some e => { t with index := t.index.set id (upsert (t.index.lookup id) (t.row id e)) }

-- The end of migration 0011.
def backfill : Tables :=
  t.entries.keys.foldl refreshEntryIndex { t with index := .empty }

end Tables

-- One row that a statement writes. Nothing writes the owner of an entry, and only the versions of a
-- file are ever made its current one.
inductive Change
  | insertEntry (id : Id) (e : Entry)
  | updateEntry (id : Id) (e : Entry)
  | deleteEntry (id : Id)
  | insertFile (id : Id)
  | setCurrentVersion (file : Id) (version : Option Id)
  | deleteFile (id : Id)
  | insertVersion (id : Id) (v : FileVersion)
  | updateVersion (id : Id) (storageObjectId sizeBytes : Nat)
  | deleteVersion (id : Id)
  | insertObject (id : Id) (o : StorageObject)
  | updateObject (id : Id) (o : StorageObject)
  | deleteObject (id : Id)
  | upsertDerivative (key : DerivativeKey) (d : Derivative)
  | deleteDerivative (key : DerivativeKey)

namespace Tables

def setEntry (t : Tables) (id : Id) (e : Entry) : Tables :=
  { t with entries := t.entries.set id e }

def setCurrent (t : Tables) (file : Id) (version : Option Id) : Tables :=
  { t with files := t.files.set file { currentVersionId := version } }

-- `ON DELETE SET NULL` of the files, `ON DELETE CASCADE` of the derivatives.
def eraseVersion (t : Tables) (id : Id) : Tables :=
  { t with
    files       := t.files.filterMap fun _ f =>
      some (if f.currentVersionId = some id then { currentVersionId := none } else f)
    versions    := t.versions.erase id
    derivatives := t.derivatives.filterMap fun k d => if k.fileVersionId = id then none else some d }

def filesAt (t : Tables) (version : Id) : List Id :=
  (t.files.rows.filter (·.2.currentVersionId = some version)).map Prod.fst

def filesOf (t : Tables) (object : Id) : List Id :=
  (t.versions.rows.filter (·.2.storageObjectId = object)).map (·.2.fileId)

-- The row is written if the foreign keys allow it, which goes with the entries that the triggers
-- refresh.
def write (t : Tables) : Change → Option (Tables × List Id)
  | .insertEntry id e                       =>
    if t.entries.lookup id = none then some (t.setEntry id e, [id]) else none
  | .updateEntry id e                       =>
    if (t.entries.lookup id).any (·.ownerId = e.ownerId) then some (t.setEntry id e, [id]) else none
  | .deleteEntry id                         =>
    if t.files.lookup id = none then
      some ({ t with entries := t.entries.erase id, index := t.index.erase id }, [])
    else
      none
  | .insertFile id                          =>
    if (t.entries.lookup id).isSome && t.files.lookup id = none then
      some (t.setCurrent id none, [id])
    else
      none
  | .setCurrentVersion file version         =>
    if (t.files.lookup file).isSome &&
        version.all (fun v => (t.versions.lookup v).any (·.fileId = file)) then
      some (t.setCurrent file version, [file])
    else
      none
  | .deleteFile id                          =>
    if t.versions.any (fun _ v => v.fileId = id) then none
    else some ({ t with files := t.files.erase id }, [])
  | .insertVersion id v                     =>
    if t.versions.lookup id = none && (t.files.lookup v.fileId).isSome &&
        (t.objects.lookup v.storageObjectId).isSome then
      some ({ t with versions := t.versions.set id v }, [v.fileId])
    else
      none
  | .updateVersion id storageObjectId bytes =>
    if (t.objects.lookup storageObjectId).isSome then
      (t.versions.lookup id).map fun v =>
        ({ t with versions := t.versions.set id { v with storageObjectId, sizeBytes := bytes } },
          [v.fileId])
    else
      none
  | .deleteVersion id                       => some (t.eraseVersion id, t.filesAt id)
  | .insertObject id o                      =>
    if t.objects.lookup id = none then some ({ t with objects := t.objects.set id o }, []) else none
  | .updateObject id o                      =>
    if (t.objects.lookup id).isSome then
      some ({ t with objects := t.objects.set id o }, t.filesOf id)
    else
      none
  | .deleteObject id                        =>
    if t.versions.any (fun _ v => v.storageObjectId = id) then none
    else some ({ t with objects := t.objects.erase id }, [])
  | .upsertDerivative key d                 =>
    (t.versions.lookup key.fileVersionId).map fun v =>
      ({ t with derivatives := t.derivatives.set key d }, [v.fileId])
  | .deleteDerivative key                   =>
    some ({ t with derivatives := t.derivatives.erase key }, [])

def step (t : Tables) (c : Change) : Option Tables :=
  (t.write c).map fun r => r.2.foldl refreshEntryIndex r.1

-- The row that `refresh_entry_index` computes on an empty index.
def fresh (t : Tables) (id : Id) : Option Row :=
  (({ t with index := .empty } : Tables).refreshEntryIndex id).index.lookup id

end Tables
end MyDrive.Index
