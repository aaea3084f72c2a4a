import Mathlib.Algebra.BigOperators.Group.List.Basic
import Mathlib.Algebra.Ring.Nat
import Mathlib.Data.List.Dedup
import MyDrive.Browse.Stats
import MyDrive.Drive.Theorems.Queries

-- What the stored statistics of a folder are the sums of.

open Forest

namespace MyDrive.Browse.Stats

open Drive (Entry Kind Tree parentOf parentOf_eq mem_childrenOf_iff)
open Index (Category Row)

variable {entries : Table Id Entry} {index : Table Id Row} {stats stats' : Table Id FolderStats}
  {owner folder id id' : Id} {parent : Option Id} {children : Bool} {now : Time} {n m : Nat} {t t' : TreeRow}
  {e : Entry}

-- An entry is reached from a folder in one way only.
section

theorem Below.climb (h : Below entries owner folder n id) : climb (parentOf entries) n id = some folder := by
  induction h
  case self => rfl
  case child id id' e _ he hp _ _ ih => simp [Forest.climb, parentOf_eq he, hp, ih]

theorem Below.depth_eq (ht : Tree entries) (h : Below entries owner folder n id)
    (h' : Below entries owner folder m id) : n = m := by
  have cycle (n k : Nat) (h : Forest.climb (parentOf entries) n id = some folder)
      (h' : Forest.climb (parentOf entries) (n + (k + 1)) id = some folder) : False := by
    rw [climb_add, h, Option.bind_eq_bind, Option.bind_some, Forest.climb, Option.bind_eq_bind,
      Option.bind_eq_some_iff] at h'
    obtain ⟨above, hp, hc⟩ := h'
    exact not_ancestor_of_parent ht.wf hp (ancestor_iff_climb.mpr ⟨k, hc⟩)
  rcases Nat.lt_trichotomy n m with less | same | more
  case inl =>
    obtain ⟨k, rfl⟩ := Nat.exists_eq_add_of_lt less
    exact (cycle n k h.climb h'.climb).elim
  case inr.inl => exact same
  case inr.inr =>
    obtain ⟨k, rfl⟩ := Nat.exists_eq_add_of_lt more
    exact (cycle m k h'.climb h.climb).elim

theorem Below.ne_folder (ht : Tree entries) (h : Below entries owner folder (n + 1) id) : id ≠ folder := by
  rintro rfl
  exact absurd (h.depth_eq ht .self) (Nat.succ_ne_zero n)

-- The first step of a path.
theorem below_succ_iff : Below entries owner folder (n + 1) id ↔
    ∃ g, Below entries owner folder 1 g ∧ Below entries owner g n id := by
  constructor
  case mp =>
    intro h
    induction n generalizing id
    case zero => exact ⟨id, h, .self⟩
    case succ n ih =>
      cases h
      case child hp ho hd hb he =>
        obtain ⟨g, first, rest⟩ := ih hb
        exact ⟨g, first, rest.child he hp ho hd⟩
  case mpr =>
    rintro ⟨g, first, rest⟩
    induction rest
    case self                  => exact first
    case child he hp ho hd ih => exact ih.child he hp ho hd

end

-- The rows of the query `tree`.
section

structure Valid (entries : Table Id Entry) (owner : Id) (t : TreeRow) : Prop where
  entry : ∃ e, entries.lookup t.nodeId = some e ∧ e.kind = t.kind
  below : Below entries owner t.folderId t.depth t.nodeId
  depth : t.depth ≤ maxDepth

theorem mem_grow : t' ∈ grow entries owner t ↔ t.depth < maxDepth ∧ ∃ e, entries.lookup t'.nodeId = some e ∧
    e.parentId = some t.nodeId ∧ e.ownerId = owner ∧ e.deletedAt = none ∧
      t' = ⟨t.folderId, t'.nodeId, e.kind, t.depth + 1⟩ := by
  unfold grow
  split
  case isFalse deep => simp [deep]
  case isTrue shallow =>
    simp only [shallow, true_and, List.mem_map]
    constructor
    case mp =>
      rintro ⟨⟨id, e⟩, hr, rfl⟩
      obtain ⟨he, hp, keep⟩ := mem_childrenOf_iff.mp hr
      simp only [Bool.and_eq_true, decide_eq_true_eq, Option.isNone_iff_eq_none] at keep
      exact ⟨e, he, hp, keep.left, keep.right, rfl⟩
    case mpr =>
      rintro ⟨e, he, hp, ho, hd, same⟩
      exact ⟨(t'.nodeId, e), mem_childrenOf_iff.mpr ⟨he, hp, by simp [ho, hd]⟩, same.symm⟩

theorem mem_roots : t ∈ roots entries owner parent children ↔ ∃ e, entries.lookup t.nodeId = some e ∧
    isRoot owner parent children (t.nodeId, e) ∧ t = ⟨t.nodeId, t.nodeId, e.kind, 0⟩ := by
  simp only [roots, List.mem_map, List.mem_filter]
  constructor
  case mp =>
    rintro ⟨⟨id, e⟩, ⟨hr, root⟩, rfl⟩
    exact ⟨e, Table.lookup_eq_some_iff.mpr hr, root, rfl⟩
  case mpr =>
    rintro ⟨e, he, root, same⟩
    exact ⟨(t.nodeId, e), ⟨Table.lookup_eq_some_iff.mp he, root⟩, same.symm⟩

theorem valid_of_root (h : t ∈ roots entries owner parent children) : Valid entries owner t ∧ t.depth = 0 := by
  obtain ⟨e, he, -, same⟩ := mem_roots.mp h
  rw [same]
  exact ⟨⟨⟨e, he, rfl⟩, .self, Nat.zero_le _⟩, rfl⟩

theorem Valid.grow (h : Valid entries owner t) (hg : t' ∈ grow entries owner t) :
    Valid entries owner t' ∧ t'.depth = t.depth + 1 := by
  obtain ⟨shallow, e, he, hp, ho, hd, same⟩ := mem_grow.mp hg
  rw [same]
  exact ⟨⟨⟨e, he, rfl⟩, h.below.child he hp ho hd, shallow⟩, rfl⟩

theorem valid_of_mem (h : t ∈ tree entries owner parent children) : Valid entries owner t := by
  obtain ⟨_, _, r, hr, joins⟩ := Recursive.mem_rows_iff.mp h
  exact joins.invariant (valid_of_root hr).left fun a b ha hb => (ha.grow hb).left

abbrev treeKey (t : TreeRow) : Id × Id :=
  (t.folderId, t.nodeId)

theorem nodup_tree (ht : Tree entries) : ((tree entries owner parent children).map treeKey).Nodup := by
  refine Recursive.nodup_rows (P := Valid entries owner) (d := 0) (fun a b ha hb => ha.grow hb) ?_ ?_ ?_ ?_
    fun a ha => valid_of_root ha
  case refine_1 =>
    intro a b ha hb same
    simp only [treeKey, Prod.mk.injEq] at same
    have below := hb.below
    rw [← same.left, ← same.right] at below
    exact ha.below.depth_eq ht below
  case refine_2 =>
    intro a b c d _ _ hc hd same
    obtain ⟨-, e, he, hp, -, -, ofC⟩ := mem_grow.mp hc
    obtain ⟨-, e', he', hp', -, -, ofD⟩ := mem_grow.mp hd
    rw [ofC, ofD] at same
    simp only [treeKey, Prod.mk.injEq] at same
    rw [← same.right] at he'
    cases he.symm.trans he'
    have node := Option.some.inj (hp.symm.trans hp')
    simp [treeKey, same.left, node]
  case refine_3 =>
    intro a _
    unfold grow
    split
    case isFalse => exact List.nodup_nil
    case isTrue =>
      rw [List.map_map]
      refine List.pairwise_map.mpr ((List.pairwise_map.mp entries.nodup).filter _ |>.imp fun apart same => apart ?_)
      exact congrArg Prod.snd same
  case refine_4 =>
    rw [roots, List.map_map]
    refine List.pairwise_map.mpr ((List.pairwise_map.mp entries.nodup).filter _ |>.imp fun apart same => apart ?_)
    exact congrArg Prod.snd same

-- Every entry below a root is in a row, up to the greatest depth.
theorem exists_mem_tree (hr : isRoot owner parent children (folder, e)) (he : entries.lookup folder = some e)
    (h : Below entries owner folder n id) (hn : n ≤ maxDepth) :
    ∃ t ∈ tree entries owner parent children, t.folderId = folder ∧ t.nodeId = id ∧ t.depth = n := by
  have root : (⟨folder, folder, e.kind, 0⟩ : TreeRow) ∈ roots entries owner parent children :=
    mem_roots.mpr ⟨e, he, hr, rfl⟩
  have joined : ∃ t, Recursive.Joins (grow entries owner) n ⟨folder, folder, e.kind, 0⟩ t ∧
      t.folderId = folder ∧ t.nodeId = id ∧ t.depth = n := by
    induction h
    case self => exact ⟨_, .zero, rfl, rfl, rfl⟩
    case child n id id' e' hb he' hp ho hd ih =>
      obtain ⟨t, joins, rfl, rfl, rfl⟩ := ih (by omega)
      have grown : ⟨t.folderId, id', e'.kind, t.depth + 1⟩ ∈ grow entries owner t :=
        mem_grow.mpr ⟨hn, e', he', hp, ho, hd, rfl⟩
      exact ⟨_, joins.snoc grown, rfl, rfl, rfl⟩
  obtain ⟨t, joins, same⟩ := joined
  exact ⟨t, Recursive.mem_rows_iff.mpr ⟨n, Nat.lt_succ_of_le hn, _, root, joins⟩, same⟩

end

-- The rows of one folder are the entries up to the greatest depth.
section

open Classical

theorem mem_among {kind : Kind} {P : Id → Prop} {r : Id × Entry} :
    r ∈ among entries kind P ↔ entries.lookup r.1 = some r.2 ∧ r.2.kind = kind ∧ P r.1 := by
  simp only [among, List.mem_filter, decide_eq_true_eq, Table.lookup_eq_some_iff]

variable (hr : isRoot owner parent children (folder, e)) (he : entries.lookup folder = some e)
include hr he

-- The root is a folder, and no other row of it is the root.
theorem within_iff {r : Id × Entry} (hm : r ∈ entries.rows) (hk : r.2.kind = .file ∨ r.1 ≠ folder) :
    (∃ n ≤ maxDepth, Below entries owner folder n r.1) ↔ Within entries owner folder r.1 := by
  constructor
  case mp =>
    rintro ⟨n, hn, hb⟩
    cases n
    case succ n => exact ⟨n, hn, hb⟩
    case zero =>
      have own : r.1 = folder := by
        cases hb
        rfl
      have ofR := Table.lookup_eq_some_iff.mpr hm
      rw [own, he] at ofR
      have folderKind : e.kind = .folder := by
        simp only [isRoot, Bool.and_eq_true, decide_eq_true_eq] at hr
        exact hr.left.left.right
      rcases hk with file | other
      case inl =>
        rw [← Option.some.inj ofR, folderKind] at file
        cases file
      case inr => exact (other own).elim
  case mpr =>
    rintro ⟨n, hn, hb⟩
    exact ⟨n + 1, hn, hb⟩

variable (ht : Tree entries)
include ht

theorem nodes_perm (p : Id → Kind → Bool) :
    (((tree entries owner parent children).filter fun t => t.folderId = folder ∧ p t.nodeId t.kind).map
      (·.nodeId)).Perm
    ((entries.rows.filter fun r => p r.1 r.2.kind ∧ ∃ n ≤ maxDepth, Below entries owner folder n r.1).map
      (·.1)) := by
  refine (List.perm_ext_iff_of_nodup ?_ ?_).mpr fun id => ?_
  case refine_1 =>
    refine List.pairwise_map.mpr (((List.pairwise_map.mp (nodup_tree ht)).filter _).imp_of_mem
      fun ha hb apart same => apart ?_)
    have ofA := (of_decide_eq_true (List.mem_filter.mp ha).right).left
    have ofB := (of_decide_eq_true (List.mem_filter.mp hb).right).left
    simp [treeKey, ofA, ofB, same]
  case refine_2 => exact List.pairwise_map.mpr ((List.pairwise_map.mp entries.nodup).filter _)
  case refine_3 =>
    simp only [List.mem_map, List.mem_filter, decide_eq_true_eq]
    constructor
    case mp =>
      rintro ⟨t, ⟨hm, rfl, hp⟩, rfl⟩
      have valid := valid_of_mem hm
      obtain ⟨e', he', kind⟩ := valid.entry
      exact ⟨(t.nodeId, e'), ⟨Table.lookup_eq_some_iff.mp he', kind ▸ hp, _, valid.depth, valid.below⟩, rfl⟩
    case mpr =>
      rintro ⟨⟨id, e'⟩, ⟨hm, hp, n, hn, hb⟩, rfl⟩
      obtain ⟨t, hm', rfl, rfl, -⟩ := exists_mem_tree hr he hb hn
      obtain ⟨e'', he'', kind⟩ := (valid_of_mem hm').entry
      cases he''.symm.trans (Table.lookup_eq_some_iff.mpr hm)
      exact ⟨t, ⟨hm', rfl, kind ▸ hp⟩, rfl⟩

theorem files_perm (q : Id → Bool) :
    (((((tree entries owner parent children).filter (·.folderId = folder)).filter (·.kind = .file)).filter
      fun t => q t.nodeId).map (·.nodeId)).Perm
    (((among entries .file (Within entries owner folder)).filter fun r => q r.1).map (·.1)) := by
  have nodes : ((((tree entries owner parent children).filter (·.folderId = folder)).filter
      (·.kind = .file)).filter fun t => q t.nodeId) =
      (tree entries owner parent children).filter fun t => t.folderId = folder ∧
        (decide (t.kind = .file) && q t.nodeId) := by
    rw [List.filter_filter, List.filter_filter]
    exact List.filter_congr fun t _ => by grind
  have found : ((among entries .file (Within entries owner folder)).filter fun r => q r.1) =
      entries.rows.filter fun r => (decide (r.2.kind = .file) && q r.1) ∧
        ∃ n ≤ maxDepth, Below entries owner folder n r.1 := by
    rw [among, List.filter_filter]
    refine List.filter_congr fun r hm => ?_
    by_cases file : r.2.kind = .file
    case pos => simp [file, within_iff hr he hm (.inl file)]
    case neg => simp [file]
  rw [nodes, found]
  exact nodes_perm hr he ht fun id kind => kind = .file && q id

theorem folders_perm :
    ((((tree entries owner parent children).filter (·.folderId = folder)).filter fun t =>
      t.kind = .folder && t.nodeId ≠ t.folderId).map (·.nodeId)).Perm
    ((among entries .folder (Within entries owner folder)).map (·.1)) := by
  have nodes : (((tree entries owner parent children).filter (·.folderId = folder)).filter fun t =>
      t.kind = .folder && t.nodeId ≠ t.folderId) =
      (tree entries owner parent children).filter fun t => t.folderId = folder ∧
        (decide (t.kind = .folder) && decide (t.nodeId ≠ folder)) := by
    rw [List.filter_filter]
    refine List.filter_congr fun t _ => ?_
    by_cases own : t.folderId = folder <;> simp [own]
  have found : among entries .folder (Within entries owner folder) =
      entries.rows.filter fun r => (decide (r.2.kind = .folder) && decide (r.1 ≠ folder)) ∧
        ∃ n ≤ maxDepth, Below entries owner folder n r.1 := by
    refine List.filter_congr fun r hm => ?_
    by_cases own : r.1 = folder
    case neg => simp [own, within_iff hr he hm (.inr own)]
    case pos =>
      have apart : ¬Within entries owner folder r.1 := by
        rintro ⟨n, -, hb⟩
        exact hb.ne_folder ht own
      simp [own ▸ apart, own]
  rw [nodes, found]
  exact nodes_perm hr he ht fun id kind => kind = .folder && id ≠ folder

theorem sums_rolled :
    Sums index entries (Within entries owner folder)
      (rolled index owner now (tree entries owner parent children) folder) := by
  have files := files_perm hr he ht
  have all := files fun _ => true
  simp only [List.filter_true] at all
  constructor
  case total =>
    simpa [rolled, Function.comp_def] using (all.map (sizeOf index)).sum_nat
  case files => simpa [rolled] using all.length_eq
  case folders => simpa [rolled] using (folders_perm hr he ht).length_eq
  case category =>
    intro c
    have found := files (inCategory index c)
    have sums := (found.map (sizeOf index)).sum_nat
    simp only [rolled]
    split
    case isTrue empty =>
      rw [List.isEmpty_iff.mp empty] at sums
      simpa [Function.comp_def] using sums
    case isFalse => simpa [Function.comp_def] using sums
  case absent =>
    intro c
    have found := (files (inCategory index c)).length_eq
    rw [List.length_map, List.length_map] at found
    simp only [rolled, ite_eq_left_iff, reduceCtorEq, imp_false, not_not, List.isEmpty_iff_length_eq_zero, found]
    simp [List.filter_eq_nil_iff]

end

theorem lookup_foldl_set {f : Id → FolderStats} {folders : List Id} :
    (folders.foldl (fun stats g => stats.set g (f g)) stats).lookup id =
      if id ∈ folders then some (f id) else stats.lookup id := by
  induction folders generalizing stats
  case nil => simp
  case cons g folders ih =>
    rw [List.foldl_cons, ih, Table.lookup_set]
    grind

theorem lookup_refreshed (h : refreshFolderStats index entries stats owner parent children now = some stats')
    (hr : isRoot owner parent children (folder, e)) (he : entries.lookup folder = some e) :
    stats'.lookup folder = some (rolled index owner now (tree entries owner parent children) folder) := by
  unfold refreshFolderStats at h
  simp only at h
  split at h
  case isTrue => cases h
  case isFalse =>
    have root : (⟨folder, folder, e.kind, 0⟩ : TreeRow) ∈ tree entries owner parent children :=
      Recursive.mem_rows_of_mem (mem_roots.mpr ⟨e, he, hr, rfl⟩)
    rw [← Option.some.inj h, lookup_foldl_set, if_pos]
    exact List.mem_dedup.mpr (List.mem_map_of_mem root)

-- The sums over all descendants, from those of the direct children.
section

open Classical

theorem sum_filter {α : Type} {xs : List α} {p : α → Prop} [DecidablePred p] {f : α → Nat} :
    ((xs.filter fun x => p x).map f).sum = (xs.map fun x => if p x then f x else 0).sum := by
  induction xs
  case nil => rfl
  case cons x xs ih => by_cases h : p x <;> simp [h, ih]

theorem sum_map_single {α : Type} {xs : List α} {x : α} {n : Nat} {p : α → Prop} [DecidablePred p] (hx : x ∈ xs) (hn : xs.Nodup)
    (hp : p x) (hu : ∀ y ∈ xs, p y → y = x) : (xs.map fun y => if p y then n else 0).sum = n := by
  have other (y : α) (apart : y ≠ x) (hy : y ∈ xs) : (if p y then n else 0) = 0 :=
    if_neg fun py => apart (hu y hy py)
  rw [List.sum_map_eq_nsmul_single x _ other, List.count_eq_one_of_mem hn hx, one_nsmul, if_pos hp]

theorem sum_comm {α β : Type} {xs : List α} {ys : List β} {f : α → β → Nat} :
    (xs.map fun x => (ys.map fun y => f x y).sum).sum = (ys.map fun y => (xs.map fun x => f x y).sum).sum := by
  induction xs
  case nil => simp
  case cons x xs ih => simp [ih, List.sum_map_add]

-- A file below the folder is a direct one, or lies below exactly one of the direct folders.
theorem weight_descends (ht : Tree entries) {r : Id × Entry} {n : Nat} :
    (if r.2.kind = .file ∧ Descends entries owner folder r.1 then n else 0) =
      (if r.2.kind = .file ∧ Below entries owner folder 1 r.1 then n else 0) +
        ((among entries .folder (Below entries owner folder 1)).map fun g =>
          if r.2.kind = .file ∧ Descends entries owner g.1 r.1 then n else 0).sum := by
  have none (h : ∀ g ∈ among entries .folder (Below entries owner folder 1),
      ¬(r.2.kind = .file ∧ Descends entries owner g.1 r.1)) :
      ((among entries .folder (Below entries owner folder 1)).map fun g =>
        if r.2.kind = .file ∧ Descends entries owner g.1 r.1 then n else 0).sum = 0 := by
    refine List.sum_eq_zero fun m hm => ?_
    obtain ⟨g, hg, rfl⟩ := List.mem_map.mp hm
    exact if_neg (h g hg)
  have joined (g : Id × Entry) (hg : g ∈ among entries .folder (Below entries owner folder 1)) (m : Nat)
      (hb : Below entries owner g.1 (m + 1) r.1) : Below entries owner folder (m + 2) r.1 :=
    below_succ_iff.mpr ⟨g.1, (mem_among.mp hg).right.right, hb⟩
  by_cases file : r.2.kind = .file ∧ Descends entries owner folder r.1
  case neg =>
    have direct : ¬(r.2.kind = .file ∧ Below entries owner folder 1 r.1) :=
      fun h => file ⟨h.left, 0, h.right⟩
    have below : ∀ g ∈ among entries .folder (Below entries owner folder 1),
        ¬(r.2.kind = .file ∧ Descends entries owner g.1 r.1) := by
      rintro g hg ⟨kind, m, hb⟩
      exact file ⟨kind, m + 1, joined g hg m hb⟩
    rw [if_neg file, if_neg direct, none below]
  case pos =>
    rw [if_pos file]
    obtain ⟨kind, m, hb⟩ := file
    cases m
    case zero =>
      have below : ∀ g ∈ among entries .folder (Below entries owner folder 1),
          ¬(r.2.kind = .file ∧ Descends entries owner g.1 r.1) := by
        rintro g hg ⟨-, m, hb'⟩
        have := hb.depth_eq ht (joined g hg m hb')
        omega
      rw [if_pos ⟨kind, hb⟩, none below, Nat.add_zero]
    case succ m =>
      have direct : ¬(r.2.kind = .file ∧ Below entries owner folder 1 r.1) := by
        rintro ⟨-, hb'⟩
        have := hb.depth_eq ht hb'
        omega
      obtain ⟨g, first, rest⟩ := below_succ_iff.mp hb
      obtain ⟨child, next, -⟩ := below_succ_iff.mp rest
      obtain ⟨e, he, folderKind⟩ : ∃ e, entries.lookup g = some e ∧ e.kind = .folder := by
        cases next
        case child hp ho hd hs he =>
          cases hs
          obtain ⟨e, he, kind, -⟩ := ht.parent he hp
          exact ⟨e, he, kind⟩
      have mem : (g, e) ∈ among entries .folder (Below entries owner folder 1) :=
        mem_among.mpr ⟨he, folderKind, first⟩
      rw [if_neg direct, Nat.zero_add]
      refine (sum_map_single (p := fun g => r.2.kind = .file ∧ Descends entries owner g.1 r.1) mem ?_
        ⟨kind, m, rest⟩ ?_).symm
      case refine_1 => exact (List.Nodup.of_map _ entries.nodup).filter _
      case refine_2 =>
        rintro ⟨g', e'⟩ hg' ⟨-, m', hb'⟩
        have same : m' + 2 = m + 2 := (joined _ hg' m' hb').depth_eq ht hb
        obtain rfl : m' = m := by omega
        obtain rfl : g' = g := Option.some.inj (hb'.climb.symm.trans rest.climb)
        cases he.symm.trans (mem_among.mp hg').left
        rfl

theorem bytes_descends (ht : Tree entries) :
    ((among entries .file (Descends entries owner folder)).map fun r => sizeOf index r.1).sum =
      ((among entries .file (Below entries owner folder 1)).map fun r => sizeOf index r.1).sum +
        ((among entries .folder (Below entries owner folder 1)).map fun g =>
          ((among entries .file (Descends entries owner g.1)).map fun r => sizeOf index r.1).sum).sum := by
  have weights (P : Id → Prop) : ((among entries .file P).map fun r => sizeOf index r.1).sum =
      (entries.rows.map fun r => if r.2.kind = .file ∧ P r.1 then sizeOf index r.1 else 0).sum := sum_filter
  simp only [weights]
  rw [sum_comm, ← List.sum_map_add]
  congr 1
  exact List.map_congr_left fun r _ => weight_descends ht

theorem Sums.congr {P Q : Id → Prop} {s : FolderStats} (h : Sums index entries P s)
    (same : ∀ id, P id ↔ Q id) : Sums index entries Q s := by
  have : P = Q := funext fun id => propext (same id)
  exact this ▸ h

theorem isRoot_child {r : Id × Entry} (h : r ∈ among entries .folder (Below entries owner folder 1)) :
    entries.lookup r.1 = some r.2 ∧ isRoot owner (some folder) true r := by
  obtain ⟨he, kind, hb⟩ := mem_among.mp h
  cases hb
  case child hp ho hd hs he' =>
    cases hs
    cases he.symm.trans he'
    exact ⟨he, by simp [isRoot, kind, hp, ho, hd]⟩

-- The sums are those of the entries that the query reaches. When it reaches all, they are the sums over all
-- descendants, and the total is that of the direct files and of the totals of the direct folders.
theorem refreshed_sums (ht : Tree entries) (hr : isRoot owner parent children (folder, e))
    (he : entries.lookup folder = some e)
    (h : refreshFolderStats index entries stats owner parent children now = some stats') :
    ∃ s, stats'.lookup folder = some s ∧ Sums index entries (Within entries owner folder) s ∧
      ((∀ n id, Below entries owner folder n id → n ≤ maxDepth) →
        Sums index entries (Descends entries owner folder) s ∧
        ∀ now' inner, refreshFolderStats index entries stats' owner (some folder) true now' = some inner →
          s.totalBytes =
            ((among entries .file (Below entries owner folder 1)).map fun r => sizeOf index r.1).sum +
              ((among entries .folder (Below entries owner folder 1)).map fun g =>
                (inner.lookup g.1).elim 0 (·.totalBytes)).sum) := by
  refine ⟨_, lookup_refreshed h hr he, sums_rolled hr he ht, fun shallow => ?_⟩
  have full (g : Id) (hg : ∀ n id, Below entries owner g n id → n ≤ maxDepth) (id : Id) :
      Within entries owner g id ↔ Descends entries owner g id := by
    constructor
    case mp =>
      rintro ⟨n, -, hb⟩
      exact ⟨n, hb⟩
    case mpr =>
      rintro ⟨n, hb⟩
      exact ⟨n, hg (n + 1) id hb, hb⟩
  have sums : Sums index entries (Descends entries owner folder)
      (rolled index owner now (tree entries owner parent children) folder) :=
    (sums_rolled hr he ht).congr (full folder shallow)
  refine ⟨sums, fun now' inner refreshed => ?_⟩
  rw [sums.total, bytes_descends ht]
  congr 2
  refine List.map_congr_left fun g hg => ?_
  obtain ⟨he', root⟩ := isRoot_child hg
  have below := (mem_among.mp hg).right.right
  have shallow' (n : Nat) (id : Id) (hb : Below entries owner g.1 n id) : n ≤ maxDepth := by
    have := shallow (n + 1) id (below_succ_iff.mpr ⟨g.1, below, hb⟩)
    omega
  have own : Sums index entries (Descends entries owner g.1)
      (rolled index owner now' (tree entries owner (some folder) true) g.1) :=
    (sums_rolled root he' ht).congr (full g.1 shallow')
  rw [lookup_refreshed refreshed root he', Option.elim_some, own.total]

end

theorem tree_of_smaller (h : entries.rows.all (fun r => r.2.parentId.all fun p => p < r.1 &&
    (entries.lookup p).any fun f => f.kind = .folder && f.ownerId = r.2.ownerId) = true) : Tree entries where
  parent {x p e} hx hp := by
    have := List.all_eq_true.mp h _ (Table.lookup_eq_some_iff.mp hx)
    simp only [hp, Option.all_some, Bool.and_eq_true, decide_eq_true_eq, Option.any_eq_true] at this
    exact this.right
  wf := by
    refine Subrelation.wf (fun {p x} hp => ?_) Nat.lt_wfRel.wf
    obtain ⟨e, he, parent⟩ := Drive.lookup_of_parentOf hp
    have := List.all_eq_true.mp h _ (Table.lookup_eq_some_iff.mp he)
    simp only [parent, Option.all_some, Bool.and_eq_true, decide_eq_true_eq] at this
    exact this.left

def entryOf (parent : Option Id) (kind : Kind) : Entry where
  ownerId  := 7
  parentId := parent
  kind
  name     := "entry"

def imageRow (sizeBytes : Nat) : Row where
  ownerId        := 7
  parentId       := none
  kind           := .file
  name           := "entry"
  nameNormalized := "entry"
  mimeType       := some "image/png"
  category       := .image
  sizeBytes
  createdAt      := 0
  updatedAt      := 0
  deletedAt      := none
  media          := {}

-- A folder with an image and a folder, which has another image.
def album : Table Id Entry where
  rows  :=
    [(0, entryOf none .folder), (1, entryOf (some 0) .file), (2, entryOf (some 0) .folder),
      (3, entryOf (some 2) .file)]
  nodup := by decide

def albumIndex : Table Id Row where
  rows  := [(1, imageRow 5), (3, imageRow 6)]
  nodup := by decide

theorem refreshed_sums_album : ∃ stats s,
    refreshFolderStats albumIndex album .empty 7 (some 0) false 1 = some stats ∧
      stats.lookup 0 = some s ∧ s.totalBytes = 11 ∧ Sums albumIndex album (Within album 7 0) s := by
  have totals : (refreshFolderStats albumIndex album .empty 7 (some 0) false 1).bind
      (fun stats => (stats.lookup 0).map (·.totalBytes)) = some 11 := by
    decide +kernel
  obtain ⟨stats, refreshed, total⟩ := Option.bind_eq_some_iff.mp totals
  have root : isRoot 7 (some 0) false (0, entryOf none .folder) := by decide
  obtain ⟨s, hs, sums, -⟩ := refreshed_sums (tree_of_smaller (by decide)) root (by decide) refreshed
  rw [hs] at total
  exact ⟨stats, s, refreshed, hs, Option.some.inj total, sums⟩

-- Folders within folders, with a file in the last, which is deeper than the query goes.
def nest : Table Id Entry where
  rows  := (List.range 42).map fun n =>
    (n, entryOf (if n = 0 then none else some (n - 1)) (if n = 41 then .file else .folder))
  nodup := by decide +kernel

def nestIndex : Table Id Row where
  rows  := [(41, imageRow 5)]
  nodup := by decide

theorem below_nest {n : Nat} (h : n ≤ 41) : Below nest 7 0 n n := by
  have step : ∀ n < 41, (nest.lookup (n + 1)).any fun e =>
      e.parentId = some n && e.ownerId = 7 && e.deletedAt = none := by
    decide +kernel
  induction n
  case zero => exact .self
  case succ n ih =>
    obtain ⟨e, he, checked⟩ := (Option.any_eq_true _ _).mp (step n h)
    simp only [Bool.and_eq_true, decide_eq_true_eq] at checked
    exact (ih (Nat.le_of_succ_le h)).child he checked.left.left checked.left.right checked.right

theorem not_sums_nest : ∃ stats s, Tree nest ∧ isRoot 7 (some 0) false (0, entryOf none .folder) ∧
    nest.lookup 0 = some (entryOf none .folder) ∧
    refreshFolderStats nestIndex nest .empty 7 (some 0) false 1 = some stats ∧ stats.lookup 0 = some s ∧
      ¬Sums nestIndex nest (Descends nest 7 0) s := by
  have totals : (refreshFolderStats nestIndex nest .empty 7 (some 0) false 1).bind
      (fun stats => (stats.lookup 0).map (·.totalBytes)) = some 0 := by
    decide +kernel
  obtain ⟨stats, refreshed, total⟩ := Option.bind_eq_some_iff.mp totals
  obtain ⟨s, hs, none⟩ := Option.map_eq_some_iff.mp total
  refine ⟨stats, s, tree_of_smaller (by decide +kernel), by decide, by decide +kernel, refreshed, hs, fun sums => ?_⟩
  have deep : (41, entryOf (some 40) .file) ∈ among nest .file (Descends nest 7 0) :=
    mem_among.mpr ⟨by decide +kernel, rfl, 40, below_nest (Nat.le_refl 41)⟩
  have zero := List.sum_eq_zero_iff_forall_eq_nat.mp (sums.total.symm.trans none)
  exact absurd (zero _ (List.mem_map_of_mem deep)) (by decide)

end MyDrive.Browse.Stats
