import MyDrive.Library.UnionFind

-- `cluster_merge_plan` and what it calls. An index that is out of range and a loop that does not end are
-- both `none`. A sum of the distances of the bytes of two descriptors fits into a `u32`.

namespace MyDrive.Media

open UnionFind

def descriptorLen : Nat := 256

def faceClusterMergeThreshold : Nat := 28

abbrev Descriptor := List UInt8

structure FaceClusterCandidate (α : Type) where
  clusterId  : α
  descriptor : Descriptor
  label      : Option String

def absDiff (a b : UInt8) : Nat :=
  (a.toNat - b.toNat) + (b.toNat - a.toNat)

def descriptorDistance (left right : Descriptor) : Option Nat :=
  if left.length ≠ descriptorLen ∨ right.length ≠ descriptorLen then none
  else some ((List.zipWith absDiff left right).sum / descriptorLen)

def closerOf (best : Option Nat) (left right : Descriptor) : Option Nat :=
  match descriptorDistance left right with
  | none          => best
  | some distance => some (best.elim distance (min · distance))

def closestDescriptorDistance (left right : List Descriptor) : Option Nat :=
  left.foldl (fun best l => right.foldl (closerOf · l ·) best) none

namespace Clusters

structure Group (α : Type) where
  id          : α
  label       : Option String
  descriptors : List Descriptor

def Group.push {α : Type} (g : Group α) (c : FaceClusterCandidate α) : Group α :=
  { g with label := g.label.or c.label, descriptors := g.descriptors ++ [c.descriptor] }

structure Merging (α : Type) where
  groups : List (Group α)
  parent : List Nat

variable {α : Type} [LinearOrder α]

def addCandidate : List (Group α) → FaceClusterCandidate α → List (Group α)
  | [],      c => [⟨c.clusterId, c.label, [c.descriptor]⟩]
  | g :: gs, c => if g.id = c.clusterId then g.push c :: gs else g :: addCandidate gs c

def grouped (candidates : List (FaceClusterCandidate α)) : List (Group α) :=
  (candidates.foldl addCandidate []).mergeSort (·.id ≤ ·.id)

def keepsLeft (left right : Group α) : Bool :=
  match left.label.isSome, right.label.isSome with
  | true,  false => true
  | false, true  => false
  | _,     _     => left.id ≤ right.id

def Merging.merge (s : Merging α) (root child : Nat) (extra : List Descriptor) : Merging α :=
  { groups := s.groups.modify root fun g => { g with descriptors := g.descriptors ++ extra }
    parent := s.parent.set child root }

def Merging.mergeGroups (s : Merging α) (leftRoot rightRoot : Nat) (left right : Group α) : Merging α :=
  if left.label.isSome && right.label.isSome then s
  else match closestDescriptorDistance left.descriptors right.descriptors with
  | none          => s
  | some distance =>
    if faceClusterMergeThreshold < distance then s
    else if keepsLeft left right then s.merge leftRoot rightRoot right.descriptors
    else s.merge rightRoot leftRoot left.descriptors

-- One turn of the double loop.
def Merging.mergePair (s : Merging α) (pair : Nat × Nat) : Option (Merging α) := do
  let (parent, leftRoot) ← find s.parent.length s.parent pair.1
  let (parent, rightRoot) ← find parent.length parent pair.2
  let s := { s with parent }
  if leftRoot = rightRoot then return s
  let left ← s.groups[leftRoot]?
  let right ← s.groups[rightRoot]?
  return s.mergeGroups leftRoot rightRoot left right

def pairs (n : Nat) : List (Nat × Nat) :=
  (List.range n).flatMap fun left => (List.range' (left + 1) (n - (left + 1))).map (left, ·)

abbrev Plan (α : Type) := List (α × α)

def planIndex (groups : List (Group α)) (s : List Nat × Plan α) (index : Nat) : Option (List Nat × Plan α) := do
  let (parent, root) ← find s.1.length s.1 index
  if root = index then return (parent, s.2)
  let source ← groups[index]?
  let target ← groups[root]?
  return (parent, s.2 ++ [(source.id, target.id)])

def clusterMergePlan (candidates : List (FaceClusterCandidate α)) : Option (Plan α) := do
  let groups := grouped candidates
  let s ← (pairs groups.length).foldlM Merging.mergePair ⟨groups, List.range groups.length⟩
  let (_, plan) ← (List.range groups.length).foldlM (planIndex s.groups) (s.parent, [])
  return plan.mergeSort (·.1 ≤ ·.1)

-- The cluster that the faces of a cluster are in once the plan is carried out.
def target (plan : Plan α) (id : α) : α :=
  (plan.lookup id).getD id

def Labelled (candidates : List (FaceClusterCandidate α)) (id : α) : Prop :=
  ∃ c ∈ candidates, c.clusterId = id ∧ c.label.isSome

def Near (left right : Descriptor) : Prop :=
  ∃ distance ≤ faceClusterMergeThreshold, descriptorDistance left right = some distance

structure Lawful (candidates : List (FaceClusterCandidate α)) (plan : Plan α) : Prop where
  once     : (plan.map (·.1)).Nodup
  apart    : ∀ m ∈ plan, m.2 ∉ plan.map (·.1)
  clusters : ∀ m ∈ plan, (∃ c ∈ candidates, c.clusterId = m.1) ∧ ∃ c ∈ candidates, c.clusterId = m.2
  single   : ∀ a b, Labelled candidates a → Labelled candidates b → target plan a = target plan b → a = b
  kept     : ∀ a id, Labelled candidates a → target plan id = target plan a → target plan id = a
  complete : ∀ c ∈ candidates, ∀ c' ∈ candidates, target plan c.clusterId ≠ target plan c'.clusterId →
    Near c.descriptor c'.descriptor →
      Labelled candidates (target plan c.clusterId) ∧ Labelled candidates (target plan c'.clusterId)

end Clusters

end MyDrive.Media
