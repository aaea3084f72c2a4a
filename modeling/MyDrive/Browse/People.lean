import MyDrive.Drive.Database
import MyDrive.Index.Refresh

-- `fetch_clusters`, which counts the faces of people, and `list_cluster_media`, which lists their media.

namespace MyDrive.Browse.People

open Index (Entry File FileVersion)
open Drive (IndexRow)

structure Cluster where
  ownerId   : Id
  label     : Option String
  createdAt : Time
  updatedAt : Time

structure Observation where
  fileVersionId : Id
  clusterId     : Option Id
  createdAt     : Time

structure Tables where
  entries      : Table Id Entry
  index        : Table Id IndexRow
  files        : Table Id File
  versions     : Table Id FileVersion
  clusters     : Table Id Cluster
  observations : Table Id Observation

-- `labelPattern` tells the labels that are `ILIKE` the pattern.
structure ClusterQuery where
  ownerId            : Option Id := none
  clusterId          : Option Id := none
  labelPattern       : Option (String → Bool) := none
  named              : Option Bool := none
  hideEmptyUnlabeled : Bool := false
  peopleOrder        : Bool := false
  limit              : Nat
  offset             : Nat := 0

structure FaceClusterRow where
  id                   : Id
  ownerId              : Id
  label                : Option String
  faceCount            : Nat
  assetCount           : Nat
  representativeFileId : Option Id
  createdAt            : Time
  updatedAt            : Time

namespace Tables

variable (t : Tables)

def observationsOf (cluster : Id) : List (Id × Observation) :=
  t.observations.rows.filter fun o => o.2.clusterId = some cluster

-- The joined row of `drive_entries`, which is `NULL` unless the entry is an active file.
def activeFile (version : Id) : Option (Id × Entry) := do
  let v ← t.versions.lookup version
  let e ← t.entries.lookup v.fileId
  if e.deletedAt.isNone && e.kind = .file then some (v.fileId, e) else none

def countedVersions (cluster : Id) : List Id :=
  ((t.observationsOf cluster).map (·.2.fileVersionId)).filter fun v => (t.activeFile v).isSome

def representative (cluster : Id) : Option Id :=
  let found := (t.observationsOf cluster).filter fun o => (t.activeFile o.2.fileVersionId).isSome
  let latest := found.mergeSort fun o o' =>
    o'.2.createdAt < o.2.createdAt || (o'.2.createdAt = o.2.createdAt && o'.1 ≤ o.1)
  latest.head?.bind fun o => (t.activeFile o.2.fileVersionId).map (·.1)

def clusterRow (r : Id × Cluster) : FaceClusterRow where
  id                   := r.1
  ownerId              := r.2.ownerId
  label                := r.2.label
  faceCount            := (t.countedVersions r.1).length
  assetCount           := (t.countedVersions r.1).dedup.length
  representativeFileId := t.representative r.1
  createdAt            := r.2.createdAt
  updatedAt            := r.2.updatedAt

end Tables

namespace ClusterQuery

variable (q : ClusterQuery)

def selects (r : Id × Cluster) : Bool :=
  q.ownerId.all (r.2.ownerId = ·) && q.clusterId.all (r.1 = ·) &&
    q.labelPattern.all (fun p => r.2.label.any p) && q.named.all (r.2.label.isSome == ·)

def having (r : FaceClusterRow) : Bool :=
  !q.hideEmptyUnlabeled || 0 < r.assetCount || r.label.isSome

def unlabeled (r : FaceClusterRow) : Nat :=
  if q.peopleOrder && r.label.isNone then 1 else 0

def count (r : FaceClusterRow) : Nat :=
  if q.peopleOrder then r.assetCount else 0

-- The `ORDER BY`.
def precedes (r r' : FaceClusterRow) : Bool :=
  q.unlabeled r < q.unlabeled r' || (q.unlabeled r = q.unlabeled r' && (q.count r' < q.count r ||
    (q.count r = q.count r' && (r'.updatedAt < r.updatedAt ||
      (r.updatedAt = r'.updatedAt && r'.id ≤ r.id)))))

end ClusterQuery

namespace Tables

variable (t : Tables)

def fetchClusters (q : ClusterQuery) : List FaceClusterRow :=
  let rows := ((t.clusters.rows.filter q.selects).map t.clusterRow).filter q.having
  ((rows.mergeSort q.precedes).drop q.offset).take (q.limit + 1)

-- The joined rows of an observation, of which the `WHERE` of `list_cluster_media` is true.
def listedItem (owner version : Id) : Option (Id × Entry) := do
  let v ← t.versions.lookup version
  let file ← t.files.lookup v.fileId
  let e ← t.entries.lookup v.fileId
  let idx ← t.index.lookup v.fileId
  if file.currentVersionId = some version && e.ownerId = owner && idx.deletedAt.isNone && !idx.buried then
    some (v.fileId, e)
  else none

-- `ORDER BY entry.created_at DESC, entry.id DESC`
def newestFirst (r r' : Id × Entry) : Bool :=
  r'.2.createdAt < r.2.createdAt || (r'.2.createdAt = r.2.createdAt && r'.1 ≤ r.1)

def clusterMedia (owner cluster : Id) : List (Id × Entry) :=
  (((t.observationsOf cluster).filterMap fun o => t.listedItem owner o.2.fileVersionId).dedup).mergeSort
    newestFirst

def listClusterMedia (owner cluster : Id) (limit offset : Nat) : List (Id × Entry) × Bool :=
  let items := ((t.clusterMedia owner cluster).drop offset).take (limit + 1)
  (items.take limit, limit < items.length)

-- The pages from an offset on, until there are no more items.
def mediaPages (owner cluster : Id) (limit : Nat) : Nat → Nat → List (Id × Entry)
  | 0,     _      => []
  | n + 1, offset =>
    let page := t.listClusterMedia owner cluster limit offset
    if page.2 then page.1 ++ mediaPages owner cluster limit n (offset + limit) else page.1

def allMedia (owner cluster : Id) (limit : Nat) : List (Id × Entry) :=
  t.mediaPages owner cluster limit (t.observations.rows.length + 1) 0

-- What the foreign keys and triggers promise: the joined rows exist, the observed file is the owner's, and
-- the index says which entries are trashed.
structure Consistent : Prop where
  version : ∀ id o, t.observations.lookup id = some o → ∃ v, t.versions.lookup o.fileVersionId = some v
  file    : ∀ id v, t.versions.lookup id = some v → (∃ f, t.files.lookup v.fileId = some f) ∧
    ∃ e, t.entries.lookup v.fileId = some e ∧ e.kind = .file
  index   : ∀ id e, t.entries.lookup id = some e →
    ∃ r, t.index.lookup id = some r ∧ r.deletedAt = e.deletedAt
  owner   : ∀ id o c cluster v e, t.observations.lookup id = some o → o.clusterId = some c →
    t.clusters.lookup c = some cluster → t.versions.lookup o.fileVersionId = some v →
    t.entries.lookup v.fileId = some e → e.ownerId = cluster.ownerId

-- Every observed version of a file that is not trashed itself is the current version of the file, and no
-- folder above the file is trashed.
def UpToDate (cluster : Id) : Prop :=
  ∀ o ∈ t.observationsOf cluster, ∀ v, t.versions.lookup o.2.fileVersionId = some v →
    ∀ e, t.entries.lookup v.fileId = some e → e.deletedAt = none →
      (t.files.lookup v.fileId).bind (·.currentVersionId) = some o.2.fileVersionId ∧
        (t.index.lookup v.fileId).any (!·.buried)

-- The people list shows no row for the cluster.
def Hidden (owner cluster : Id) : Prop :=
  ∀ q : ClusterQuery, q.ownerId = some owner → q.hideEmptyUnlabeled = true →
    ∀ r ∈ t.fetchClusters q, r.id ≠ cluster

end Tables

end MyDrive.Browse.People
