import Mathlib.Algebra.Ring.Nat
import MyDrive.Quota.Operations

-- `check_content` and `link_content`, by which a backup client asks whether the server has some
-- content already. Each is run alone here: `Transfers` has the steps of a link among other requests.

namespace MyDrive.Devices

open Transfers

-- The body of both requests.
structure ContentRequest where
  parentId : Option Id
  name     : String
  size     : UInt64
  checksum : String

inductive ContentError
  | invalidRequest
  | notFound
  | contentNotFound
  | refused (e : TransferError)
  | serviceUnavailable
  deriving DecidableEq

inductive CheckAction
  | skip
  | link
  | upload
  deriving DecidableEq

structure CheckResponse where
  action         : CheckAction
  fileId         : Option Id := none
  versionId      : Option Id := none
  remoteChecksum : Option String := none
  reusable       : Bool
  deriving DecidableEq

-- The rows of `drive_entries` are the folders here and the files of the store. They are subject to
-- the index `drive_entries_active_name`.
structure Catalog [Collation] where
  books   : Quota.Books
  folders : Table Id Drive.Entry
  unique {i j f g} : books.store.files.lookup i = some f → books.store.files.lookup j = some g →
    Store.sameName f g → i = j

-- A size that is no `i64` is refused.
def ContentRequest.parse (r : ContentRequest) (owner : Id) : Except ContentError Link :=
  match Drive.normalizeName r.name, parseSha256 r.checksum with
  | .ok name, .ok checksum =>
    if r.size.toNat < 2 ^ 63 then
      .ok { owner, parentId := r.parentId, name, size := r.size.toNat, checksum }
    else
      .error .invalidRequest
  | _, _                   => .error .invalidRequest

namespace Catalog

variable [Collation]

def ensureParent (d : Catalog) (c : Link) : Except ContentError Unit :=
  match c.parentId with
  | none   => .ok ()
  | some p =>
    match Drive.ensureActiveEntry d.folders c.owner p true with
    | .ok _    => .ok ()
    | .error _ => .error .notFound

def checkResponse (s : Store) (c : Link) : CheckResponse :=
  let reusable := !(s.matchingObjects c.checksum c.size).isEmpty
  match s.existingFile c with
  | none         => { action := if reusable then .link else .upload, reusable }
  | some (id, o) =>
    let unchanged : Bool := o.checksum = some c.checksum ∧ o.size = c.size
    { action         := if unchanged then .skip else if reusable then .link else .upload
      fileId         := some id
      versionId      := (s.files.lookup id).bind File.currentVersion
      remoteChecksum := o.checksum
      reusable       := unchanged || reusable }

def checkContent (d : Catalog) (owner : Id) (r : ContentRequest) :
    Except ContentError CheckResponse := do
  let c ← r.parse owner
  d.ensureParent c
  return checkResponse d.books.store c

-- A folder that has the name of the new file, which its `INSERT` then runs into.
def folderNamed (d : Catalog) (c : Link) : Bool :=
  d.folders.any fun _ e => e.ownerId = c.owner && e.parentId = c.parentId &&
    Collation.lower e.name = Collation.lower c.name && e.deletedAt.isNone

-- The transaction of `link_content` once an object is found. `none` leaves the database as it is.
def attach (d : Catalog) (ownerQuota : UInt64) (now : Time) (c : Link) (objectId : Id) :
    Except ContentError (Option Store) :=
  match d.books.linkContent ownerQuota now { now } c objectId with
  | .error e     => .error (.refused e)
  | .ok none     => .ok none
  | .ok (some s) =>
    if (d.books.store.existingFile c).isNone && d.folderNamed c then
      .error .serviceUnavailable
    else
      .ok (some s)

-- `row` is the object that `LIMIT 1` picks. No other is an answer of the query, which is `none` here.
def linkContent (d : Catalog) (ownerQuota : UInt64) (now : Time) (owner : Id) (r : ContentRequest)
    (row : Option Id) : Option (Except ContentError (Option Store)) :=
  match r.parse owner with
  | .error e => some (.error e)
  | .ok c    =>
    match d.ensureParent c with
    | .error e => some (.error e)
    | .ok _    =>
      (limitOne (d.books.store.matchingObjects c.checksum c.size) row).map fun
        | none          => .error .contentNotFound
        | some objectId => d.attach ownerQuota now c objectId

end Catalog
end MyDrive.Devices
