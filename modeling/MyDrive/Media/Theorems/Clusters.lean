import Mathlib.Data.List.Basic
import MyDrive.Library.Clustering
import MyDrive.Library.Table
import MyDrive.Media.Clusters

-- What the merging of face clusters comes to.

namespace MyDrive.Media.Clusters

open UnionFind

section

variable {left right : List Descriptor} {l r : Descriptor} {best : Option Nat}

-- Being near does not depend on the order in which descriptors are compared.
theorem near_comm : Near l r ↔ Near r l := by
  have : descriptorDistance l r = descriptorDistance r l := by
    have diff (a b : UInt8) : absDiff a b = absDiff b a := Nat.add_comm ..
    unfold descriptorDistance
    rw [List.zipWith_comm_of_comm diff]
    simp only [or_comm]
  rw [Near, Near, this]

def Within (best : Option Nat) : Prop :=
  ∃ distance ≤ faceClusterMergeThreshold, best = some distance

theorem within_closerOf : Within (closerOf best l r) ↔ Within best ∨ Near l r := by
  unfold closerOf Near
  cases descriptorDistance l r
  case none => simp
  case some distance =>
    cases best
    case none => simp [Within]
    case some old => simp [Within]

theorem within_closest :
    Within (closestDescriptorDistance left right) ↔ ∃ l ∈ left, ∃ r ∈ right, Near l r := by
  have inner (l : Descriptor) (best : Option Nat) :
      Within (right.foldl (closerOf · l ·) best) ↔ Within best ∨ ∃ r ∈ right, Near l r := by
    induction right generalizing best
    case nil           => simp
    case cons r rs ih => simp [ih, within_closerOf, or_assoc]
  have outer (best : Option Nat) :
      Within (left.foldl (fun best l => right.foldl (closerOf · l ·) best) best) ↔
        Within best ∨ ∃ l ∈ left, ∃ r ∈ right, Near l r := by
    induction left generalizing best
    case nil           => simp
    case cons l ls ih => simp [ih, inner, or_assoc]
  rw [closestDescriptorDistance, outer]
  simp [Within]

end

variable {α : Type} {candidates candidates' : List (FaceClusterCandidate α)} {c : FaceClusterCandidate α}
  {groups groups' : List (Group α)}

theorem labelled_append {id : α} : Labelled (candidates ++ [c]) id ↔
    Labelled candidates id ∨ (c.clusterId = id ∧ c.label.isSome) := by
  simp [Labelled, or_and_right, exists_or]

-- The groups that are collected from the candidates.
section

variable [LinearOrder α]

structure Collects (candidates : List (FaceClusterCandidate α)) (groups : List (Group α)) : Prop where
  nodup       : (groups.map (·.id)).Nodup
  ids         : ∀ id, id ∈ groups.map (·.id) ↔ ∃ c ∈ candidates, c.clusterId = id
  labels      : ∀ g ∈ groups, g.label.isSome ↔ Labelled candidates g.id
  descriptors : ∀ g ∈ groups, ∀ d, d ∈ g.descriptors ↔ ∃ c ∈ candidates, c.clusterId = g.id ∧ c.descriptor = d

theorem addCandidate_cases :
    (c.clusterId ∉ groups.map (·.id) ∧
      addCandidate groups c = groups ++ [⟨c.clusterId, c.label, [c.descriptor]⟩]) ∨
    ∃ before g after, groups = before ++ g :: after ∧ g.id = c.clusterId ∧
      addCandidate groups c = before ++ g.push c :: after := by
  induction groups
  case nil => exact .inl ⟨by simp, rfl⟩
  case cons g gs ih =>
    by_cases same : g.id = c.clusterId
    case pos => exact .inr ⟨[], g, gs, rfl, same, if_pos same⟩
    case neg =>
      have skipped : addCandidate (g :: gs) c = g :: addCandidate gs c := if_neg same
      rw [skipped]
      rcases ih with ⟨new, added⟩ | ⟨before, g', after, rfl, own, added⟩
      case inl => exact .inl ⟨by simpa [Ne.symm same] using new, by rw [added]; rfl⟩
      case inr => exact .inr ⟨g :: before, g', after, rfl, own, by rw [added]; rfl⟩

theorem Collects.add (h : Collects candidates groups) : Collects (candidates ++ [c]) (addCandidate groups c) := by
  rcases @addCandidate_cases _ c groups _ with ⟨new, added⟩ | ⟨before, g, after, rfl, own, added⟩
  case inl =>
    have other (g : Group α) (hg : g ∈ groups) : c.clusterId ≠ g.id :=
      fun same => new (same ▸ List.mem_map_of_mem hg)
    have unlabelled : ¬Labelled candidates c.clusterId := by
      rintro ⟨c', hc', same, -⟩
      exact new ((h.ids _).mpr ⟨c', hc', same⟩)
    have absent (c' : FaceClusterCandidate α) (hc' : c' ∈ candidates) : c'.clusterId ≠ c.clusterId :=
      fun same => new ((h.ids _).mpr ⟨c', hc', same⟩)
    rw [added]
    constructor
    case nodup =>
      rw [List.map_append, List.map_singleton]
      exact List.Nodup.append h.nodup (List.nodup_singleton _) (by simpa using new)
    case ids =>
      intro id
      rw [List.map_append, List.mem_append, h.ids]
      simp [or_and_right, exists_or, eq_comm]
    case labels =>
      intro g hg
      rw [labelled_append]
      rcases List.mem_append.mp hg with hg | hg
      case inl => simp [h.labels g hg, other g hg]
      case inr => simp [List.mem_singleton.mp hg, unlabelled]
    case descriptors =>
      intro g hg d
      rcases List.mem_append.mp hg with hg | hg
      case inl => simp [h.descriptors g hg d, or_and_right, exists_or, other g hg]
      case inr =>
        rw [List.mem_singleton.mp hg]
        simp only [List.mem_append, List.mem_singleton]
        grind
  case inr =>
    have distinct (g' : Group α) (hg' : g' ∈ before ∨ g' ∈ after) : c.clusterId ≠ g'.id := by
      have := h.nodup
      simp only [List.map_append, List.map_cons, List.nodup_append, List.nodup_cons] at this
      rw [← own]
      rcases hg' with hg' | hg'
      case inl => exact (this.right.right _ (List.mem_map_of_mem hg') _ List.mem_cons_self).symm
      case inr => exact fun same => this.right.left.left (same ▸ List.mem_map_of_mem hg')
    have old (g' : Group α) (hg' : g' ∈ before ∨ g' ∈ after) : g' ∈ before ++ g :: after := by
      simp only [List.mem_append, List.mem_cons]
      exact hg'.imp_right .inr
    have parts (g' : Group α) (hg' : g' ∈ before ++ g.push c :: after) :
        (g' ∈ before ∨ g' ∈ after) ∨ g' = g.push c := by
      grind
    have self : g ∈ before ++ g :: after := by simp
    rw [added]
    constructor
    case nodup => simpa [Group.push] using h.nodup
    case ids =>
      intro id
      have := h.ids id
      simp only [List.map_append, List.map_cons, Group.push] at this ⊢
      rw [this]
      simp only [List.mem_append, List.mem_singleton]
      constructor
      case mp => grind
      case mpr =>
        rintro ⟨c', hc' | rfl, rfl⟩
        case inl => exact ⟨c', hc', rfl⟩
        case inr => exact (h.ids _).mp (own ▸ List.mem_map_of_mem self)
    case labels =>
      intro g' hg'
      rw [labelled_append]
      rcases parts g' hg' with hg' | rfl
      case inl => simp [h.labels g' (old g' hg'), distinct g' hg']
      case inr => simp [Group.push, ← own, h.labels g self]
    case descriptors =>
      intro g' hg' d
      rcases parts g' hg' with hg' | rfl
      case inl => simp [h.descriptors g' (old g' hg'), or_and_right, exists_or, distinct g' hg']
      case inr => simp [Group.push, ← own, h.descriptors g self, or_and_right, exists_or, eq_comm]

theorem collects_foldl : Collects candidates (candidates.foldl addCandidate []) := by
  have run (rest : List (FaceClusterCandidate α)) : ∀ before groups, Collects before groups →
      Collects (before ++ rest) (rest.foldl addCandidate groups) := by
    induction rest
    case nil => simp
    case cons c rest ih =>
      intro before groups h
      simpa using ih _ _ (h.add (c := c))
  refine run candidates [] [] ⟨List.nodup_nil, ?_, ?_, ?_⟩ <;> simp

theorem collects_grouped : Collects candidates (grouped candidates) := by
  have h : Collects candidates (candidates.foldl addCandidate []) := collects_foldl
  have perm := List.mergeSort_perm (candidates.foldl addCandidate []) (·.id ≤ ·.id)
  constructor
  case nodup       => exact (perm.map _).nodup_iff.mpr h.nodup
  case ids         => exact fun id => (perm.map _).mem_iff.trans (h.ids id)
  case labels      => exact fun g hg => h.labels g (perm.mem_iff.mp hg)
  case descriptors => exact fun g hg => h.descriptors g (perm.mem_iff.mp hg)

theorem sorted_grouped : ((grouped candidates).map (·.id)).Pairwise (· < ·) := by
  have sorted : (grouped candidates).Pairwise (fun g h => decide (g.id ≤ h.id)) :=
    List.pairwise_mergeSort (by grind) (by grind) _
  have distinct := List.pairwise_map.mp (@collects_grouped _ candidates _).nodup
  refine List.pairwise_map.mpr ((sorted.and distinct).imp fun h => ?_)
  exact lt_of_le_of_ne (of_decide_eq_true h.left) h.right

end

-- The groups as elements that are clustered.
section

def Pinned (groups : List (Group α)) (i : Nat) : Prop :=
  ∃ g, groups[i]? = some g ∧ g.label.isSome

def Close (groups : List (Group α)) (i j : Nat) : Prop :=
  ∃ g h, groups[i]? = some g ∧ groups[j]? = some h ∧ ∃ l ∈ g.descriptors, ∃ r ∈ h.descriptors, Near l r

noncomputable abbrev merged (groups : List (Group α)) : Nat → Nat :=
  Clustering.run (Pinned groups) (Close groups) id (pairs groups.length)

theorem sound_merged : Clustering.Sound (Pinned groups) (merged groups) :=
  Clustering.Sound.run Clustering.sound_id

-- The state of the loop after merges that lead to `root`: a root has the descriptors of its cluster.
structure Follows (groups : List (Group α)) (s : Merging α) (root : Nat → Nat) : Prop where
  parents  : ∃ depth, Represents s.parent root depth
  nodes    : s.parent.length = groups.length
  same     : s.groups.map (fun g => (g.id, g.label)) = groups.map fun g => (g.id, g.label)
  gathered : ∀ i g, s.groups[i]? = some g → root i = i →
    ∀ d, d ∈ g.descriptors ↔ ∃ j h, groups[j]? = some h ∧ root j = i ∧ d ∈ h.descriptors

variable {s s' : Merging α} {root : Nat → Nat} {a b i j l r : Nat} {g h : Group α} {pair : Nat × Nat}

theorem Follows.length (hf : Follows groups s root) : s.groups.length = groups.length := by
  simpa using congrArg List.length hf.same

theorem Follows.get (hf : Follows groups s root) (hi : i < groups.length) :
    ∃ g h, s.groups[i]? = some g ∧ groups[i]? = some h ∧ g.id = h.id ∧ g.label = h.label := by
  have same := congrArg (·[i]?) hf.same
  have hi' : i < s.groups.length := hf.length ▸ hi
  simp only [List.getElem?_map, List.getElem?_eq_getElem hi, List.getElem?_eq_getElem hi', Option.map_some,
    Option.some.injEq, Prod.mk.injEq] at same
  exact ⟨_, _, List.getElem?_eq_getElem hi', List.getElem?_eq_getElem hi, same⟩

theorem Follows.merge (hf : Follows groups s root) (ha : a < groups.length) (hb : b < groups.length)
    (hra : root a = a) (hrb : root b = b) (hab : a ≠ b) (hh : s.groups[b]? = some h) :
    Follows groups (s.merge a b h.descriptors) (link root a b) := by
  obtain ⟨depth, represents⟩ := hf.parents
  rw [← hf.nodes] at ha hb
  constructor
  case parents => exact ⟨_, represents.link ha hb hra hrb hab⟩
  case nodes   => simp [Merging.merge, hf.nodes]
  case same =>
    rw [← hf.same]
    apply List.ext_getElem?
    intro i
    simp only [Merging.merge, List.getElem?_map, List.getElem?_modify]
    cases s.groups[i]? <;> grind
  case gathered =>
    intro i g hg hi d
    have other : i ≠ b := by
      unfold link at hi
      grind
    simp only [Merging.merge, List.getElem?_modify] at hg
    by_cases hia : i = a
    case neg =>
      have hi' : root i = i := by
        unfold link at hi
        grind
      have hg' : s.groups[i]? = some g := by grind
      rw [hf.gathered i g hg' hi' d]
      unfold link
      grind
    case pos =>
      subst hia
      obtain ⟨old, hold, rfl⟩ : ∃ old, s.groups[i]? = some old ∧
          { old with descriptors := old.descriptors ++ h.descriptors } = g := by
        simpa using hg
      have ofA := hf.gathered i old hold hra d
      have ofB := hf.gathered b h hh hrb d
      rw [List.mem_append, ofA, ofB]
      unfold link
      grind

def entry (groups : List (Group α)) (root : Nat → Nat) (i : Nat) : Option (α × α) :=
  if root i = i then none
  else groups[i]?.bind fun g => groups[root i]?.map fun h => (g.id, h.id)

theorem Follows.planIndices {todo : List Nat} {depth : Nat → Nat} {parent : List Nat}
    (plan : Plan α) (hf : Follows groups s root) (hp : Represents parent root depth) (hn : parent.length = groups.length)
    (ht : ∀ i ∈ todo, i < groups.length) : ∃ parent',
    todo.foldlM (planIndex s.groups) (parent, plan) =
      some (parent', plan ++ todo.filterMap (entry groups root)) := by
  induction todo generalizing parent plan
  case nil => exact ⟨parent, by simp⟩
  case cons i todo ih =>
    have inside := ht i List.mem_cons_self
    have later (i : Nat) (hi : i ∈ todo) := ht i (.tail _ hi)
    obtain ⟨parent', found, represents, length⟩ := hp.find (hn ▸ inside)
    by_cases own : root i = i
    case pos =>
      obtain ⟨parent'', planned⟩ := ih plan represents (length.trans hn) later
      exact ⟨parent'', by simp [planIndex, found, own, entry, planned]⟩
    case neg =>
      have rooted : root i < groups.length := hn ▸ (hp.rooted i (hn ▸ inside)).left
      obtain ⟨g, g₀, hg, hg₀, idG, -⟩ := hf.get inside
      obtain ⟨h, h₀, hh, hh₀, idH, -⟩ := hf.get rooted
      obtain ⟨parent'', planned⟩ := ih (plan ++ [(g₀.id, h₀.id)]) represents (length.trans hn) later
      exact ⟨parent'', by simp [planIndex, found, own, entry, hg, hh, hg₀, hh₀, idG, idH, planned]⟩

theorem pinned_iff (hg : groups[i]? = some g) : Pinned groups i ↔ g.label.isSome := by
  simp [Pinned, hg]

variable [LinearOrder α]

theorem le_iff_of_sorted (hs : (groups.map (·.id)).Pairwise (· < ·)) (hg : groups[i]? = some g)
    (hh : groups[j]? = some h) : g.id ≤ h.id ↔ i ≤ j := by
  have less (i j : Nat) (g h : Group α) (hg : groups[i]? = some g) (hh : groups[j]? = some h)
      (hij : i < j) : g.id < h.id := by
    obtain ⟨hi, rfl⟩ := List.getElem?_eq_some_iff.mp hg
    obtain ⟨hj, rfl⟩ := List.getElem?_eq_some_iff.mp hh
    have := List.pairwise_iff_getElem.mp hs i j (by simpa) (by simpa) hij
    simpa using this
  rcases Nat.lt_trichotomy i j with hij | rfl | hij
  case inl => exact iff_of_true (less i j g h hg hh hij).le hij.le
  case inr.inl =>
    cases hg.symm.trans hh
    exact iff_of_true le_rfl le_rfl
  case inr.inr => exact iff_of_false (less j i h g hh hg hij).not_ge hij.not_ge

theorem keepsLeft_iff (hs : (groups.map (·.id)).Pairwise (· < ·)) (hg : groups[i]? = some g)
    (hh : groups[j]? = some h) : keepsLeft g h ↔ Clustering.KeepsFirst (Pinned groups) i j := by
  rw [Clustering.KeepsFirst, pinned_iff hg, pinned_iff hh, ← le_iff_of_sorted hs hg hh, keepsLeft]
  cases g.label.isSome <;> cases h.label.isSome <;> simp

theorem mergeGroups_of (h' : ¬(g.label.isSome && h.label.isSome) ∧
    Within (closestDescriptorDistance g.descriptors h.descriptors)) : s.mergeGroups a b g h =
      if keepsLeft g h then s.merge a b h.descriptors else s.merge b a g.descriptors := by
  obtain ⟨free, distance, hd, closest⟩ := h'
  rw [Merging.mergeGroups, if_neg free, closest]
  exact if_neg (Nat.not_lt.mpr hd)

theorem mergeGroups_of_not (h' : ¬(¬(g.label.isSome && h.label.isSome) ∧
    Within (closestDescriptorDistance g.descriptors h.descriptors))) : s.mergeGroups a b g h = s := by
  unfold Merging.mergeGroups
  split
  case isTrue => rfl
  case isFalse free =>
    split
    case h_1 => rfl
    case h_2 distance closest =>
      refine if_pos (Nat.lt_of_not_le fun hd => h' ⟨free, distance, hd, closest⟩)

theorem Follows.mergeGroups (hf : Follows groups s root) (hs : (groups.map (·.id)).Pairwise (· < ·))
    (ha : root l < groups.length) (hb : root r < groups.length) (hra : root (root l) = root l)
    (hrb : root (root r) = root r) (hab : root l ≠ root r) (hg : s.groups[root l]? = some g)
    (hh : s.groups[root r]? = some h) :
    Follows groups (s.mergeGroups (root l) (root r) g h)
      (Clustering.step (Pinned groups) (Close groups) root (l, r)) := by
  obtain ⟨g', g₀, hg', hg₀, idG, labelG⟩ := hf.get ha
  obtain ⟨h', h₀, hh', hh₀, idH, labelH⟩ := hf.get hb
  cases hg.symm.trans hg'
  cases hh.symm.trans hh'
  have pinnedL : Pinned groups (root l) ↔ g.label.isSome := labelG ▸ pinned_iff hg₀
  have pinnedR : Pinned groups (root r) ↔ h.label.isSome := labelH ▸ pinned_iff hh₀
  have keeps : keepsLeft g h ↔ Clustering.KeepsFirst (Pinned groups) (root l) (root r) := by
    rw [← keepsLeft_iff hs hg₀ hh₀, keepsLeft, keepsLeft, idG, idH, labelG, labelH]
  have close : Within (closestDescriptorDistance g.descriptors h.descriptors) ↔
      ∃ i j, root i = root l ∧ root j = root r ∧ Close groups i j := by
    rw [within_closest]
    simp only [hf.gathered _ g hg hra, hf.gathered _ h hh hrb, Close]
    grind
  have joins : Clustering.Joins (Pinned groups) (Close groups) root (root l) (root r) ↔
      ¬(g.label.isSome && h.label.isSome) ∧ Within (closestDescriptorDistance g.descriptors h.descriptors) := by
    rw [close, Bool.and_eq_true, ← pinnedL, ← pinnedR]
    exact ⟨fun h => ⟨h.free, h.near⟩, fun h => ⟨hab, h.left, h.right⟩⟩
  by_cases joined : Clustering.Joins (Pinned groups) (Close groups) root (root l) (root r)
  case neg =>
    rw [Clustering.step, if_neg joined, mergeGroups_of_not (joins.not.mp joined)]
    exact hf
  case pos =>
    rw [Clustering.step, if_pos joined, mergeGroups_of (joins.mp joined)]
    by_cases first : keepsLeft g h
    case pos =>
      rw [if_pos first, if_pos (keeps.mp first)]
      exact hf.merge ha hb hra hrb hab hh
    case neg =>
      rw [if_neg first, if_neg (keeps.not.mp first)]
      exact hf.merge hb ha hrb hra hab.symm hg

theorem Follows.mergePair (hf : Follows groups s root) (hs : (groups.map (·.id)).Pairwise (· < ·))
    (hl : l < groups.length) (hr : r < groups.length) : ∃ s', s.mergePair (l, r) = some s' ∧
      Follows groups s' (Clustering.step (Pinned groups) (Close groups) root (l, r)) := by
  obtain ⟨depth, represents⟩ := hf.parents
  have nodes := hf.nodes
  have inL : l < s.parent.length := nodes ▸ hl
  obtain ⟨parent, foundL, represents', length⟩ := represents.find inL
  have inR : r < parent.length := by omega
  obtain ⟨parent', foundR, represents'', length'⟩ := represents'.find inR
  have hf' : Follows groups { s with parent := parent' } root :=
    ⟨⟨depth, represents''⟩, by simp only; omega, hf.same, hf.gathered⟩
  have rootL := represents.rooted l inL
  have rootR := represents'.rooted r inR
  have ha : root l < groups.length := by omega
  have hb : root r < groups.length := by omega
  have hra := represents.root_root inL
  have hrb := represents'.root_root inR
  simp only [Merging.mergePair, foundL, foundR, Option.bind_eq_bind, Option.bind_some]
  by_cases same : root l = root r
  case pos =>
    have stays : Clustering.step (Pinned groups) (Close groups) root (l, r) = root :=
      if_neg fun joins => joins.apart same
    exact ⟨_, if_pos same, stays.symm ▸ hf'⟩
  case neg =>
    obtain ⟨g, -, hg, -⟩ := hf'.get ha
    obtain ⟨h, -, hh, -⟩ := hf'.get hb
    refine ⟨_, ?_, hf'.mergeGroups hs ha hb hra hrb same hg hh⟩
    rw [if_neg same]
    simp [hg, hh]

theorem Follows.mergePairs {todo : List (Nat × Nat)} (hf : Follows groups s root)
    (hs : (groups.map (·.id)).Pairwise (· < ·))
    (ht : ∀ pair ∈ todo, pair.1 < groups.length ∧ pair.2 < groups.length) :
    ∃ s', todo.foldlM Merging.mergePair s = some s' ∧
      Follows groups s' (Clustering.run (Pinned groups) (Close groups) root todo) := by
  induction todo generalizing s root
  case nil => exact ⟨s, rfl, hf⟩
  case cons pair todo ih =>
    obtain ⟨l, r⟩ := pair
    have inside := ht _ List.mem_cons_self
    obtain ⟨s', merged, hf'⟩ := hf.mergePair hs inside.left inside.right
    obtain ⟨s'', run, hf''⟩ := ih hf' fun pair hp => ht pair (.tail _ hp)
    exact ⟨s'', by simp [merged, run], hf''⟩

end

-- The plan of the groups, and what it says of the candidates.
section

variable [LinearOrder α] {i j : Nat} {g h : Group α}

noncomputable def planOf (groups : List (Group α)) : Plan α :=
  ((List.range groups.length).filterMap (entry groups (merged groups))).mergeSort (·.1 ≤ ·.1)

theorem inside_of_mem_pairs {n : Nat} {pair : Nat × Nat} (h : pair ∈ pairs n) : pair.1 < n ∧ pair.2 < n := by
  simp only [pairs, List.mem_flatMap, List.mem_range, List.mem_map, List.mem_range'] at h
  grind

theorem mem_pairs {n : Nat} (hi : i < j) (hj : j < n) : (i, j) ∈ pairs n := by
  simp only [pairs, List.mem_flatMap, List.mem_range, List.mem_map, List.mem_range']
  exact ⟨i, by omega, j, ⟨j - (i + 1), by omega, by omega⟩, rfl⟩

theorem exists_merging : ∃ s : Merging α,
    (pairs (grouped candidates).length).foldlM Merging.mergePair
      ⟨grouped candidates, List.range (grouped candidates).length⟩ = some s ∧
    Follows (grouped candidates) s (merged (grouped candidates)) := by
  have start : Follows (grouped candidates) ⟨grouped candidates, List.range (grouped candidates).length⟩ id := by
    constructor
    case parents  => exact ⟨_, represents_range⟩
    case nodes    => exact List.length_range
    case same     => rfl
    case gathered => grind
  exact start.mergePairs sorted_grouped fun pair => inside_of_mem_pairs

theorem clusterMergePlan_eq : clusterMergePlan candidates = some (planOf (grouped candidates)) := by
  obtain ⟨s, merged, hf⟩ := @exists_merging _ candidates _
  obtain ⟨depth, represents⟩ := hf.parents
  obtain ⟨parent, planned⟩ := hf.planIndices [] represents hf.nodes fun i => List.mem_range.mp
  simp [clusterMergePlan, merged, planned, planOf]

theorem merged_lt (hi : i < (grouped candidates).length) :
    merged (grouped candidates) i < (grouped candidates).length := by
  obtain ⟨s, -, hf⟩ := @exists_merging _ candidates _
  obtain ⟨depth, represents⟩ := hf.parents
  have nodes := hf.nodes
  exact nodes ▸ (represents.rooted i (nodes ▸ hi)).left

-- Other orders of the candidates lead to groups with the same ids, labels and sets of descriptors.
theorem ids_of_perm (hp : candidates.Perm candidates') :
    (grouped candidates).map (·.id) = (grouped candidates').map (·.id) := by
  have members (id : α) :
      id ∈ (grouped candidates).map (·.id) ↔ id ∈ (grouped candidates').map (·.id) := by
    rw [collects_grouped.ids, collects_grouped.ids]
    simp only [hp.mem_iff]
  have perm := (List.perm_ext_iff_of_nodup collects_grouped.nodup collects_grouped.nodup).mpr members
  exact perm.eq_of_pairwise (fun a b _ _ hab hba => (lt_asymm hab hba).elim) sorted_grouped sorted_grouped

abbrev idAt (candidates : List (FaceClusterCandidate α)) (i : Nat) : Option α :=
  ((grouped candidates).map (·.id))[i]?

theorem pinned_grouped :
    Pinned (grouped candidates) i ↔ ∃ id, idAt candidates i = some id ∧ Labelled candidates id := by
  simp only [Pinned, idAt, List.getElem?_map, Option.map_eq_some_iff]
  constructor
  case mp =>
    rintro ⟨g, hg, labelled⟩
    exact ⟨g.id, ⟨g, hg, rfl⟩, (collects_grouped.labels g (List.mem_of_getElem? hg)).mp labelled⟩
  case mpr =>
    rintro ⟨_, ⟨g, hg, rfl⟩, labelled⟩
    exact ⟨g, hg, (collects_grouped.labels g (List.mem_of_getElem? hg)).mpr labelled⟩

theorem close_grouped : Close (grouped candidates) i j ↔ ∃ c ∈ candidates, ∃ c' ∈ candidates,
    idAt candidates i = some c.clusterId ∧ idAt candidates j = some c'.clusterId ∧
      Near c.descriptor c'.descriptor := by
  simp only [Close, idAt, List.getElem?_map, Option.map_eq_some_iff]
  constructor
  case mp =>
    rintro ⟨g, h, hg, hh, l, hl, r, hr, near⟩
    obtain ⟨c, hc, idC, rfl⟩ := (collects_grouped.descriptors g (List.mem_of_getElem? hg) l).mp hl
    obtain ⟨c', hc', idC', rfl⟩ := (collects_grouped.descriptors h (List.mem_of_getElem? hh) r).mp hr
    exact ⟨c, hc, c', hc', ⟨g, hg, idC.symm⟩, ⟨h, hh, idC'.symm⟩, near⟩
  case mpr =>
    rintro ⟨c, hc, c', hc', ⟨g, hg, idC⟩, ⟨h, hh, idC'⟩, near⟩
    have hl := (collects_grouped.descriptors g (List.mem_of_getElem? hg) _).mpr ⟨c, hc, idC.symm, rfl⟩
    have hr := (collects_grouped.descriptors h (List.mem_of_getElem? hh) _).mpr ⟨c', hc', idC'.symm, rfl⟩
    exact ⟨g, h, hg, hh, _, hl, _, hr, near⟩

theorem entry_grouped {root : Nat → Nat} : entry (grouped candidates) root i =
    if root i = i then none
    else (idAt candidates i).bind fun a => (idAt candidates (root i)).map fun b => (a, b) := by
  unfold entry idAt
  simp only [List.getElem?_map]
  cases (grouped candidates)[i]? <;> cases (grouped candidates)[root i]? <;> rfl

theorem planOf_perm (hp : candidates.Perm candidates') :
    planOf (grouped candidates) = planOf (grouped candidates') := by
  have ids : idAt candidates = idAt candidates' := funext fun i => by rw [idAt, ids_of_perm hp]
  have length : (grouped candidates).length = (grouped candidates').length := by
    simpa using congrArg List.length (ids_of_perm hp)
  have pinned : Pinned (grouped candidates) = Pinned (grouped candidates') := by
    funext i
    apply propext
    rw [pinned_grouped, pinned_grouped, ids]
    simp only [Labelled, hp.mem_iff]
  have close : Close (grouped candidates) = Close (grouped candidates') := by
    funext i j
    apply propext
    rw [close_grouped, close_grouped, ids]
    simp only [hp.mem_iff]
  have roots : merged (grouped candidates) = merged (grouped candidates') := by
    rw [merged, merged, pinned, close, length]
  have entries : entry (grouped candidates) (merged (grouped candidates)) =
      entry (grouped candidates') (merged (grouped candidates')) := by
    funext i
    rw [entry_grouped, entry_grouped, ids, roots]
  rw [planOf, planOf, entries, length]

theorem idAt_inj {id : α} (hi : idAt candidates i = some id) (hj : idAt candidates j = some id) : i = j := by
  have nodup := (@collects_grouped _ candidates _).nodup
  exact (List.getElem?_inj (List.getElem?_eq_some_iff.mp hi).choose nodup).mp (hi.trans hj.symm)

theorem exists_idAt_iff {id : α} : (∃ c ∈ candidates, c.clusterId = id) ↔
    ∃ i < (grouped candidates).length, idAt candidates i = some id := by
  rw [← collects_grouped.ids, List.mem_iff_getElem?]
  constructor
  case mp =>
    rintro ⟨i, hi⟩
    exact ⟨i, by simpa using (List.getElem?_eq_some_iff.mp hi).choose, hi⟩
  case mpr =>
    rintro ⟨i, -, hi⟩
    exact ⟨i, hi⟩

theorem lt_of_idAt {id : α} (hi : idAt candidates i = some id) : i < (grouped candidates).length := by
  simpa using (List.getElem?_eq_some_iff.mp hi).choose

theorem mem_planOf {m : α × α} : m ∈ planOf (grouped candidates) ↔
    ∃ i, merged (grouped candidates) i ≠ i ∧ idAt candidates i = some m.1 ∧
      idAt candidates (merged (grouped candidates) i) = some m.2 := by
  obtain ⟨a, b⟩ := m
  simp only [planOf, List.mem_mergeSort, List.mem_filterMap, List.mem_range, entry_grouped]
  constructor
  case mp =>
    rintro ⟨i, -, h⟩
    refine ⟨i, ?_⟩
    split at h
    case isTrue => cases h
    case isFalse moved =>
      simp only [Option.bind_eq_some_iff, Option.map_eq_some_iff, Prod.mk.injEq] at h
      obtain ⟨_, ha, _, hb, rfl, rfl⟩ := h
      exact ⟨moved, ha, hb⟩
  case mpr =>
    rintro ⟨i, moved, ha, hb⟩
    exact ⟨i, lt_of_idAt ha, by simp only [moved, if_false, ha, hb]; rfl⟩

theorem nodup_planOf : ((planOf (grouped candidates)).map (·.1)).Nodup := by
  have perm := List.mergeSort_perm
    ((List.range (grouped candidates).length).filterMap
      (entry (grouped candidates) (merged (grouped candidates)))) (·.1 ≤ ·.1)
  refine (perm.map _).nodup_iff.mpr ?_
  rw [List.map_filterMap]
  refine List.Nodup.filterMap ?_ List.nodup_range
  intro i j id hi hj
  simp only [entry_grouped] at hi hj
  have first (i : Nat) (h : id ∈ Option.map (·.1) (if merged (grouped candidates) i = i then none
      else (idAt candidates i).bind fun a =>
        (idAt candidates (merged (grouped candidates) i)).map fun b => (a, b))) :
      idAt candidates i = some id := by
    split at h
    case isTrue => cases h
    case isFalse =>
      simp only [Option.mem_def, Option.map_eq_some_iff, Option.bind_eq_some_iff] at h
      grind
  exact idAt_inj (first i hi) (first j hj)

theorem target_eq {id id' : α} (hi : idAt candidates i = some id)
    (hr : idAt candidates (merged (grouped candidates) i) = some id') :
    target (planOf (grouped candidates)) id = id' := by
  let table : Table α α := ⟨planOf (grouped candidates), nodup_planOf⟩
  by_cases own : merged (grouped candidates) i = i
  case pos =>
    have none : (planOf (grouped candidates)).lookup id = none := by
      refine Table.lookup_eq_none_iff (t := table).mpr fun b hb => ?_
      obtain ⟨j, moved, hj, -⟩ := mem_planOf.mp hb
      exact moved (idAt_inj hi hj ▸ own)
    rw [own, hi] at hr
    rw [target, none]
    exact Option.some.inj hr
  case neg =>
    have found : (planOf (grouped candidates)).lookup id = some id' :=
      Table.lookup_eq_some_iff (t := table).mpr (mem_planOf.mpr ⟨i, own, hi, hr⟩)
    rw [target, found]
    rfl

theorem exists_target {id : α} (hi : idAt candidates i = some id) :
    ∃ id', idAt candidates (merged (grouped candidates) i) = some id' ∧
      target (planOf (grouped candidates)) id = id' := by
  have rooted : merged (grouped candidates) i < ((grouped candidates).map (·.id)).length := by
    simpa using merged_lt (lt_of_idAt hi)
  have hr := List.getElem?_eq_getElem rooted
  exact ⟨_, hr, target_eq hi hr⟩

theorem target_of_labelled {id : α} (h : Labelled candidates id) :
    target (planOf (grouped candidates)) id = id := by
  have := h
  obtain ⟨c, hc, own, -⟩ := this
  obtain ⟨i, -, hi⟩ := exists_idAt_iff.mp ⟨c, hc, own⟩
  have own := sound_merged.pinned i (pinned_grouped.mpr ⟨id, hi, h⟩)
  exact target_eq hi (by rw [own, hi])

-- The two roots of near clusters are pinned.
theorem labelled_of_near {c c' : FaceClusterCandidate α} (hc : c ∈ candidates) (hc' : c' ∈ candidates)
    (hn : Near c.descriptor c'.descriptor)
    (ht : target (planOf (grouped candidates)) c.clusterId ≠ target (planOf (grouped candidates)) c'.clusterId) :
    Labelled candidates (target (planOf (grouped candidates)) c.clusterId) ∧
      Labelled candidates (target (planOf (grouped candidates)) c'.clusterId) := by
  obtain ⟨i, hi, ownI⟩ := exists_idAt_iff.mp ⟨c, hc, rfl⟩
  obtain ⟨j, hj, ownJ⟩ := exists_idAt_iff.mp ⟨c', hc', rfl⟩
  obtain ⟨a, ha, targetI⟩ := exists_target ownI
  obtain ⟨b, hb, targetJ⟩ := exists_target ownJ
  rw [targetI, targetJ] at ht ⊢
  have apart : merged (grouped candidates) i ≠ merged (grouped candidates) j := by
    intro same
    rw [same] at ha
    exact ht (Option.some.inj (ha.symm.trans hb))
  have close : Close (grouped candidates) i j := close_grouped.mpr ⟨c, hc, c', hc', ownI, ownJ, hn⟩
  have close' : Close (grouped candidates) j i :=
    close_grouped.mpr ⟨c', hc', c, hc, ownJ, ownI, near_comm.mp hn⟩
  have pinned : Pinned (grouped candidates) (merged (grouped candidates) i) ∧
      Pinned (grouped candidates) (merged (grouped candidates) j) := by
    rcases Nat.lt_trichotomy i j with hij | rfl | hji
    case inl => exact Clustering.done_run Clustering.sound_id (mem_pairs hij hj) apart close
    case inr.inl => exact (apart rfl).elim
    case inr.inr => exact (Clustering.done_run Clustering.sound_id (mem_pairs hji hi) apart.symm close').symm
  obtain ⟨_, hid, first⟩ := pinned_grouped.mp pinned.left
  obtain ⟨_, hid', second⟩ := pinned_grouped.mp pinned.right
  cases ha.symm.trans hid
  cases hb.symm.trans hid'
  exact ⟨first, second⟩

theorem clusterMergePlan_lawful : ∃ plan, clusterMergePlan candidates = some plan ∧ Lawful candidates plan ∧
    ∀ candidates', candidates.Perm candidates' → clusterMergePlan candidates' = some plan := by
  refine ⟨_, clusterMergePlan_eq, ?_, fun candidates' hp => planOf_perm hp ▸ clusterMergePlan_eq⟩
  constructor
  case once => exact nodup_planOf
  case apart =>
    intro m hm hs
    obtain ⟨i, -, -, target⟩ := mem_planOf.mp hm
    obtain ⟨m', hm', same⟩ := List.mem_map.mp hs
    obtain ⟨j, moved, source, -⟩ := mem_planOf.mp hm'
    obtain rfl := idAt_inj (same ▸ source) target
    exact moved (sound_merged.idem i)
  case clusters =>
    intro m hm
    obtain ⟨i, -, source, target⟩ := mem_planOf.mp hm
    exact ⟨exists_idAt_iff.mpr ⟨_, lt_of_idAt source, source⟩, exists_idAt_iff.mpr ⟨_, lt_of_idAt target, target⟩⟩
  case single =>
    intro a b ha hb same
    rwa [target_of_labelled ha, target_of_labelled hb] at same
  case kept =>
    intro a id ha same
    rwa [target_of_labelled ha] at same
  case complete => exact fun c hc c' hc' ht hn => labelled_of_near hc hc' hn ht

end

end MyDrive.Media.Clusters
