import MyDrive.Drive.Queries
import MyDrive.Index.Refresh

-- `refresh_folder_stats` of migration 0012.

namespace MyDrive.Browse

open Drive (Entry Kind childrenOf)
open Index (Category Row)

structure FolderStats where
  ownerId        : Id
  totalBytes     : Nat
  fileCount      : Nat
  subfolderCount : Nat
  byCategory     : Category → Option Nat
  computedAt     : Time

structure TreeRow where
  folderId : Id
  nodeId   : Id
  kind     : Kind
  depth    : Nat

namespace Stats

def maxDepth : Nat := 40

def maxBigint : Nat := 2 ^ 63 - 1

section

variable (entries : Table Id Entry) (owner : Id)

-- The query `children`.
def isRoot (parent : Option Id) (children : Bool) (r : Id × Entry) : Bool :=
  r.2.ownerId = owner && r.2.kind = .folder && r.2.deletedAt.isNone &&
    ((children && ((parent.isNone && r.2.parentId.isNone) || (parent.isSome && r.2.parentId = parent))) ||
      (!children && parent = some r.1))

def roots (parent : Option Id) (children : Bool) : List TreeRow :=
  (entries.rows.filter (isRoot owner parent children)).map fun r => ⟨r.1, r.1, r.2.kind, 0⟩

def grow (t : TreeRow) : List TreeRow :=
  if t.depth < maxDepth then
    (childrenOf entries (fun e => e.ownerId = owner && e.deletedAt.isNone) t.nodeId).map fun r =>
      ⟨t.folderId, r.1, r.2.kind, t.depth + 1⟩
  else []

-- The query `tree`. Rows of the greatest depth are not joined to any more.
def tree (parent : Option Id) (children : Bool) : List TreeRow :=
  Recursive.rows (grow entries owner) (maxDepth + 1) (roots entries owner parent children)

end

variable (index : Table Id Row)

def sizeOf (id : Id) : Nat :=
  (index.lookup id).elim 0 (·.sizeBytes)

def inCategory (category : Category) (id : Id) : Bool :=
  (index.lookup id).any (·.category = category)

-- The queries `rolled` and `categories` for one folder.
def rolled (owner : Id) (now : Time) (tree : List TreeRow) (folder : Id) : FolderStats :=
  let rows  := tree.filter (·.folderId = folder)
  let files := rows.filter (·.kind = .file)
  { ownerId        := owner
    totalBytes     := (files.map fun t => sizeOf index t.nodeId).sum
    fileCount      := files.length
    subfolderCount := (rows.filter fun t => t.kind = .folder && t.nodeId ≠ t.folderId).length
    byCategory c   :=
      let found := files.filter fun t => inCategory index c t.nodeId
      if found.isEmpty then none else some (found.map fun t => sizeOf index t.nodeId).sum
    computedAt     := now }

-- `none` when a sum does not fit into a `BIGINT`.
def refreshFolderStats (entries : Table Id Entry) (stats : Table Id FolderStats) (owner : Id)
    (parent : Option Id) (children : Bool) (now : Time) : Option (Table Id FolderStats) :=
  let tree := tree entries owner parent children
  let folders := (tree.map (·.folderId)).dedup
  if folders.any fun f => maxBigint < (rolled index owner now tree f).totalBytes then none
  else some (folders.foldl (fun stats f => stats.set f (rolled index owner now tree f)) stats)

-- The active entries of the owner that are reached through active entries, with their distance.
inductive Below (entries : Table Id Entry) (owner folder : Id) : Nat → Id → Prop
  | self : Below entries owner folder 0 folder
  | child {n id id' e} : Below entries owner folder n id → entries.lookup id' = some e →
      e.parentId = some id → e.ownerId = owner → e.deletedAt = none → Below entries owner folder (n + 1) id'

section

open Classical

noncomputable def among (entries : Table Id Entry) (kind : Kind) (P : Id → Prop) : List (Id × Entry) :=
  entries.rows.filter fun r => r.2.kind = kind ∧ P r.1

-- The sums over the entries with the property.
structure Sums (entries : Table Id Entry) (P : Id → Prop) (s : FolderStats) : Prop where
  total    : s.totalBytes = ((among entries .file P).map fun r => sizeOf index r.1).sum
  files    : s.fileCount = (among entries .file P).length
  folders  : s.subfolderCount = (among entries .folder P).length
  category : ∀ c, (s.byCategory c).getD 0 =
    (((among entries .file P).filter fun r => inCategory index c r.1).map fun r => sizeOf index r.1).sum
  absent   : ∀ c, s.byCategory c = none ↔ ∀ r ∈ among entries .file P, inCategory index c r.1 = false

end

def Within (entries : Table Id Entry) (owner folder : Id) (id : Id) : Prop :=
  ∃ n < maxDepth, Below entries owner folder (n + 1) id

def Descends (entries : Table Id Entry) (owner folder : Id) (id : Id) : Prop :=
  ∃ n, Below entries owner folder (n + 1) id

end Stats

end MyDrive.Browse
