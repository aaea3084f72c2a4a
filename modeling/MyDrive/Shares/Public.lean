import Mathlib.Data.List.Sort
import MyDrive.Drive.Theorems.Queries
import MyDrive.Shares.Tables

-- What the public endpoints of a share answer from one state of the database.

namespace MyDrive.Shares

open Transfers Drive

-- `album_items` is keyed by the album and the file, and holds `added_at`. The foreign key and the
-- guard on parents keep the parent of an entry in the table and with the same owner, the trigger on
-- `drive_entries` writes the owner of an entry into its index row, and no two shares have one token.
structure Db where
  files  : Files
  index  : Table Id IndexRow
  albums : Table Id Album
  items  : Table (Id × Id) Time
  shares : Table Id Share
  access : Table Token AccessSession
  linked : Linked files.entries
  owner {x : Id} {e : Entry} {r : IndexRow} : files.entries.lookup x = some e →
    index.lookup x = some r → r.ownerId = e.ownerId
  unique {i j : Id} {s t : Share} : shares.lookup i = some s → shares.lookup j = some t →
    s.token = t.token → i = j

structure PublicEntry where
  id   : Id
  name : String
  kind : Kind
  size : Option Nat
  deriving DecidableEq

structure Breadcrumb where
  id   : Id
  name : String
  deriving DecidableEq

structure PublicShareView where
  shareId       : Id
  resource      : PublicEntry
  currentFolder : Option Id
  breadcrumbs   : List Breadcrumb
  entries       : List PublicEntry
  allowDownload : Bool
  expiresAt     : Option Time
  nextOffset    : Option Nat
  deriving DecidableEq

structure PublicShareQuery where
  folderId : Option Id := none
  limit    : Option Nat := none
  offset   : Option Int := none

inductive Endpoint
  | view (query : PublicShareQuery)
  | download (entryId : Id)
  | preview (entryId : Id)
  | thumbnail (entryId : Id)

structure Request where
  token    : String
  endpoint : Endpoint
  headers  : RequestHeaders := {}

inductive Answer
  | view (v : PublicShareView)
  | payload (r : Response)
  deriving DecidableEq

def defaultPageSize : Nat := 50

def maxPageSize : Nat := 100

def maxPageOffset : Int := 1000000

def pageValues (limit : Option Nat) (offset : Option Int) : Except ShareError (Nat × Nat) :=
  let limit := limit.getD defaultPageSize
  let offset := offset.getD 0
  if limit = 0 ∨ limit > maxPageSize ∨ offset < 0 ∨ offset > maxPageOffset then
    .error .badRequest
  else
    .ok (limit, offset.toNat)

-- `LIMIT $3 OFFSET $4` with one row more than the page holds.
def page {α : Type} (rows : List α) (limit offset : Nat) : List α × Option Nat :=
  let rows := (rows.drop offset).take (limit + 1)
  (rows.take limit, if rows.length > limit then some (offset + limit) else none)

namespace Db

def entries (db : Db) : Table Id Entry :=
  db.files.entries

def currentSize (db : Db) (id : Id) : Option Nat :=
  (db.files.files.lookup id).join.bind fun version => (db.files.versions.lookup version).map (·.size)

def publicEntry (db : Db) (id : Id) (e : Entry) : PublicEntry where
  id   := id
  name := e.name
  kind := e.kind
  size := db.currentSize id

def fetchPublicEntry (db : Db) (owner id : Id) : Except ShareError PublicEntry :=
  match (db.entries.lookup id).filter fun e => e.ownerId = owner && e.deletedAt.isNone with
  | some e => .ok (db.publicEntry id e)
  | none   => .error .notFound

def folderInShare (db : Db) (owner root folder : Id) : Bool :=
  let chain := Files.chainOf db.entries owner .folder folder
  chain.any (fun r => r.1 = root && r.2.kind = .folder) && !chain.any (·.2.deletedAt.isSome)

def fileInShare (db : Db) (owner : Id) (resource : Resource) (file : Id) : Bool :=
  match resource.type with
  | .album =>
    (db.items.lookup (resource.id, file)).isSome && (db.index.lookup file).any fun idx =>
      idx.ownerId = owner && idx.kind = .file && idx.deletedAt.isNone && !idx.buried
  | type   =>
    let chain := Files.chainOf db.entries owner .file file
    !chain.any (·.2.deletedAt.isSome) && chain.any (·.1 = resource.id) &&
      (type = .folder || file = resource.id)

def fetchBreadcrumbs (db : Db) (owner folder root : Id) : List Breadcrumb :=
  let next (r : Id × Entry) : List (Id × Entry) :=
    if r.1 = root then []
    else r.2.parentId.toList.flatMap <|
      rowAt db.entries fun e => e.ownerId = owner && e.deletedAt.isNone
  let rows := Recursive.rows next (db.entries.rows.length + 1)
    (rowAt db.entries (·.ownerId = owner) folder)
  rows.reverse.map fun r => { id := r.1, name := r.2.name }

def fetchActiveShare (db : Db) (now : Time) (token : String) : Except ShareError (Id × Share) := do
  let some token := decodeToken token.toList | throw .notFound
  let some (id, share) := db.shares.rows.find? fun r => r.2.token = token && r.2.active now
    | throw .notFound
  match share.resource.type with
  | .album =>
    if !(db.albums.lookup share.resource.id).any (·.ownerId = share.ownerId) then
      throw .notFound
  | type   =>
    match ensureActiveEntry db.entries share.ownerId share.resource.id (type = .folder) with
    | .error e => throw (.drive e)
    | .ok _    =>
      let kind := if type = .folder then Kind.folder else Kind.file
      if !(db.entries.lookup share.resource.id).any fun e =>
          e.ownerId = share.ownerId && e.kind = kind then
        throw .notFound
  return (id, share)

def hasGrant (db : Db) (now : Time) (shareId : Id) (headers : RequestHeaders) : Bool :=
  let grant := headers.cookie.bind (cookieValue · "my_drive_share_access") >>= decodeToken
  grant.any fun grant => (db.access.lookup grant).any fun session =>
    session.shareId = shareId && session.expiresAt > now

def requirePasswordGrant (db : Db) (now : Time) (headers : RequestHeaders) (shareId : Id)
    (share : Share) : Except ShareError Unit :=
  if share.passwordHash.isSome && !db.hasGrant now shareId headers then
    .error .passwordRequired
  else
    .ok ()

def albumRows (db : Db) (owner album : Id) : List (Id × Entry) :=
  let rows := db.items.rows.filter fun item => item.1.1 = album &&
    (db.index.lookup item.1.2).any fun idx =>
      idx.ownerId = owner && idx.deletedAt.isNone && !idx.buried
  let sorted := rows.insertionSort fun a b => b.2 < a.2 ∨ a.2 = b.2 ∧ a.1.2 ≤ b.1.2
  sorted.filterMap fun item => (db.entries.lookup item.1.2).map (item.1.2, ·)

def publicAlbum (db : Db) (shareId : Id) (share : Share) (query : PublicShareQuery) :
    Except ShareError PublicShareView := do
  let albumId := share.resource.id
  if query.folderId.any (· ≠ albumId) then
    throw .notFound
  let some album := (db.albums.lookup albumId).filter (·.ownerId = share.ownerId) | throw .notFound
  let (limit, offset) ← pageValues query.limit query.offset
  let (rows, nextOffset) := page (db.albumRows share.ownerId albumId) limit offset
  return {
    shareId, resource := { id := albumId, name := album.name, kind := .folder, size := none }
    currentFolder := some albumId, breadcrumbs := [{ id := albumId, name := album.name }]
    entries := rows.map fun r => db.publicEntry r.1 r.2
    allowDownload := share.allowDownload, expiresAt := share.expiresAt, nextOffset }

variable [Collation]

def folderRows (db : Db) (owner folder : Id) : List (Id × Entry) :=
  let rows := childrenOf db.entries (fun e => e.ownerId = owner && e.deletedAt.isNone) folder
  rows.insertionSort fun a b => Collation.lower a.2.name < Collation.lower b.2.name ∨
    Collation.lower a.2.name = Collation.lower b.2.name ∧ a.1 ≤ b.1

def publicFolder (db : Db) (shareId : Id) (share : Share) (root : PublicEntry)
    (query : PublicShareQuery) : Except ShareError PublicShareView := do
  if root.kind ≠ .folder then
    throw .notFound
  let folderId := query.folderId.getD share.resource.id
  if !db.folderInShare share.ownerId share.resource.id folderId then
    throw .notFound
  (ensureActiveEntry db.entries share.ownerId folderId true).mapError ShareError.drive
  let (limit, offset) ← pageValues query.limit query.offset
  let (rows, nextOffset) := page (db.folderRows share.ownerId folderId) limit offset
  return {
    shareId, resource := root, currentFolder := some folderId
    breadcrumbs := db.fetchBreadcrumbs share.ownerId folderId share.resource.id
    entries := rows.map fun r => db.publicEntry r.1 r.2
    allowDownload := share.allowDownload, expiresAt := share.expiresAt, nextOffset }

def publicFile (shareId : Id) (share : Share) (root : PublicEntry) (query : PublicShareQuery) :
    Except ShareError PublicShareView :=
  if query.folderId.isSome ∨ root.kind ≠ .file then
    .error .notFound
  else
    .ok {
      shareId, resource := root, currentFolder := none, breadcrumbs := [], entries := []
      allowDownload := share.allowDownload, expiresAt := share.expiresAt, nextOffset := none }

def publicShare (db : Db) (shareId : Id) (share : Share) (query : PublicShareQuery) :
    Except ShareError PublicShareView := do
  if share.resource.type = .album then
    db.publicAlbum shareId share query
  else
    let root ← db.fetchPublicEntry share.ownerId share.resource.id
    if share.resource.type = .file then
      publicFile shareId share root query
    else
      db.publicFolder shareId share root query

-- `UPDATE shares .. RETURNING download_count` of `reserve_download`.
def reserves (share : Share) (now : Time) : Bool :=
  share.active now && share.allowDownload && share.maxDownloads.all (share.downloadCount < ·)

variable [Digest] [Services]

def transfer (r : Except ResponseError Response) : Except ShareError Response :=
  r.mapError .transfer

def downloadShared (db : Db) (now : Time) (share : Share) (entryId : Id) (headers : RequestHeaders) :
    Except ShareError Response := do
  if !share.allowDownload then
    throw .forbidden
  if !db.fileInShare share.ownerId share.resource entryId then
    throw .notFound
  if !reserves share now then
    throw .gone
  transfer (db.files.downloadResponse share.ownerId entryId headers false)

def previewShared (db : Db) (share : Share) (entryId : Id) (headers : RequestHeaders) :
    Except ShareError Response := do
  if !db.fileInShare share.ownerId share.resource entryId then
    throw .notFound
  if share.allowDownload then
    transfer (db.files.previewResponse share.ownerId entryId headers false)
  else
    transfer (db.files.previewDerivativeResponse share.ownerId entryId headers false)

def thumbnailShared (db : Db) (share : Share) (entryId : Id) (headers : RequestHeaders) :
    Except ShareError Response := do
  if !db.fileInShare share.ownerId share.resource entryId then
    throw .notFound
  transfer (db.files.thumbnailResponse share.ownerId entryId headers false)

def serve (db : Db) (now : Time) (shareId : Id) (share : Share) (headers : RequestHeaders) :
    Endpoint → Except ShareError Answer
  | .view query        => (db.publicShare shareId share query).map .view
  | .download entryId  => (db.downloadShared now share entryId headers).map .payload
  | .preview entryId   => (db.previewShared share entryId headers).map .payload
  | .thumbnail entryId => (db.thumbnailShared share entryId headers).map .payload

def answer (db : Db) (now : Time) (request : Request) : Except ShareError Answer := do
  let (shareId, share) ← db.fetchActiveShare now request.token
  db.requirePasswordGrant now request.headers shareId share
  db.serve now shareId share request.headers request.endpoint

end Db
end MyDrive.Shares
