import Mathlib.Data.Finset.Card
import Mathlib.Data.List.Dedup
import MyDrive.Browse.People

-- When the counts of the people list are those of the media lists.

namespace MyDrive.Browse.People

open Index (Entry File FileVersion)
open Drive (IndexRow)

namespace Tables

variable {t : Tables} {owner cluster id v : Id} {c : Cluster} {limit offset n : Nat} {e : Entry}

-- The pages of the media of a cluster are the whole list.
section

theorem listClusterMedia_fst :
    (t.listClusterMedia owner cluster limit offset).1 = ((t.clusterMedia owner cluster).drop offset).take limit := by
  simp [listClusterMedia, List.take_take]

theorem listClusterMedia_snd :
    (t.listClusterMedia owner cluster limit offset).2 =
      decide (limit < ((t.clusterMedia owner cluster).drop offset).length) := by
  rw [listClusterMedia, List.length_take, Bool.eq_iff_iff, decide_eq_true_eq, decide_eq_true_eq]
  omega

theorem mediaPages_eq (hl : 0 < limit) (hn : (t.clusterMedia owner cluster).length < n + offset) (hp : 0 < n) :
    t.mediaPages owner cluster limit n offset = (t.clusterMedia owner cluster).drop offset := by
  induction n generalizing offset
  case zero => contradiction
  case succ n ih =>
    simp only [mediaPages, listClusterMedia_fst, listClusterMedia_snd, decide_eq_true_eq]
    split
    case isFalse last => exact List.take_of_length_le (Nat.le_of_not_lt last)
    case isTrue more =>
      rw [List.length_drop] at more
      rw [ih (by omega) (by omega), ← List.drop_drop, List.take_append_drop]

theorem length_clusterMedia_le : (t.clusterMedia owner cluster).length ≤ t.observations.rows.length := by
  rw [clusterMedia, List.length_mergeSort]
  calc
    _ ≤ ((t.observationsOf cluster).filterMap fun o => t.listedItem owner o.2.fileVersionId).length :=
      (List.dedup_sublist _).length_le
    _ ≤ (t.observationsOf cluster).length := List.length_filterMap_le ..
    _ ≤ _                                 := List.length_filter_le ..

theorem allMedia_eq (hl : 0 < limit) : t.allMedia owner cluster limit = t.clusterMedia owner cluster := by
  have : (t.clusterMedia owner cluster).length ≤ t.observations.rows.length := length_clusterMedia_le
  rw [allMedia, mediaPages_eq hl (by omega) (Nat.succ_pos _), List.drop_zero]

end

-- The versions of the listed items are among those that are counted.
section

theorem activeFile_eq_some_iff {r : Id × Entry} : t.activeFile v = some r ↔ ∃ ver,
    t.versions.lookup v = some ver ∧ ver.fileId = r.1 ∧ t.entries.lookup r.1 = some r.2 ∧
      r.2.deletedAt = none ∧ r.2.kind = .file := by
  obtain ⟨id, e⟩ := r
  simp only [activeFile, Option.bind_eq_bind, Option.bind_eq_some_iff, Option.ite_none_right_eq_some,
    Option.some.injEq, Prod.mk.injEq, Bool.and_eq_true, decide_eq_true_eq, Option.isNone_iff_eq_none]
  grind

theorem listedItem_eq_some_iff {r : Id × Entry} : t.listedItem owner v = some r ↔ ∃ ver file idx,
    t.versions.lookup v = some ver ∧ ver.fileId = r.1 ∧ t.files.lookup r.1 = some file ∧
      t.entries.lookup r.1 = some r.2 ∧ t.index.lookup r.1 = some idx ∧ file.currentVersionId = some v ∧
      r.2.ownerId = owner ∧ idx.deletedAt = none ∧ idx.buried = false := by
  obtain ⟨id, e⟩ := r
  simp only [listedItem, Option.bind_eq_bind, Option.bind_eq_some_iff, Option.ite_none_right_eq_some,
    Option.some.injEq, Prod.mk.injEq, Bool.and_eq_true, decide_eq_true_eq, Option.isNone_iff_eq_none,
    Bool.not_eq_true']
  grind

def observed (t : Tables) (cluster : Id) : List Id :=
  (t.observationsOf cluster).map (·.2.fileVersionId)

theorem mem_countedVersions :
    v ∈ t.countedVersions cluster ↔ v ∈ t.observed cluster ∧ (t.activeFile v).isSome := by
  rw [countedVersions, observed, List.mem_filter]

theorem mem_clusterMedia {r : Id × Entry} :
    r ∈ t.clusterMedia owner cluster ↔ ∃ v ∈ t.observed cluster, t.listedItem owner v = some r := by
  simp [clusterMedia, observed, List.mem_mergeSort, List.mem_dedup, List.mem_filterMap]

theorem activeFile_of_listed (con : t.Consistent) {r : Id × Entry} (h : t.listedItem owner v = some r) :
    t.activeFile v = some r := by
  obtain ⟨ver, file, idx, hv, hf, -, he, hi, -, -, hd, -⟩ := listedItem_eq_some_iff.mp h
  obtain ⟨-, e, he', kind⟩ := con.file v ver hv
  obtain ⟨idx', hi', same⟩ := con.index r.1 r.2 he
  rw [hf] at he'
  cases he.symm.trans he'
  cases hi.symm.trans hi'
  exact activeFile_eq_some_iff.mpr ⟨ver, hv, hf, he, same ▸ hd, kind⟩

end

-- The counts, as cardinalities.
section

def counted (t : Tables) (cluster : Id) : Finset Id :=
  (t.countedVersions cluster).toFinset

def listed (t : Tables) (owner cluster : Id) : Finset Id :=
  (t.counted cluster).filter fun v => (t.listedItem owner v).isSome

theorem mem_listed (con : t.Consistent) :
    v ∈ t.listed owner cluster ↔ v ∈ t.observed cluster ∧ ∃ r, t.listedItem owner v = some r := by
  simp only [listed, counted, Finset.mem_filter, List.mem_toFinset, mem_countedVersions, Option.isSome_iff_exists]
  constructor
  case mp  => exact fun h => ⟨h.left.left, h.right⟩
  case mpr =>
    rintro ⟨seen, r, hr⟩
    exact ⟨⟨seen, r, activeFile_of_listed con hr⟩, r, hr⟩

-- An item is listed for one version only, the current one.
theorem card_media (con : t.Consistent) :
    ((t.clusterMedia owner cluster).map (·.1)).dedup.length = (t.listed owner cluster).card := by
  let file (v : Id) : Id := ((t.listedItem owner v).map (·.1)).getD 0
  have image : ((t.clusterMedia owner cluster).map (·.1)).toFinset = (t.listed owner cluster).image file := by
    ext id
    simp only [List.mem_toFinset, List.mem_map, mem_clusterMedia, Finset.mem_image, mem_listed con]
    constructor
    case mp =>
      rintro ⟨r, ⟨v, seen, hr⟩, rfl⟩
      exact ⟨v, ⟨seen, r, hr⟩, by simp [file, hr]⟩
    case mpr =>
      rintro ⟨v, ⟨seen, r, hr⟩, rfl⟩
      exact ⟨r, ⟨v, seen, hr⟩, by simp [file, hr]⟩
  rw [← List.card_toFinset, image, Finset.card_image_of_injOn]
  intro v hv v' hv' same
  obtain ⟨-, r, hr⟩ := (mem_listed con).mp hv
  obtain ⟨-, r', hr'⟩ := (mem_listed con).mp hv'
  simp only [file, hr, hr', Option.map_some, Option.getD_some] at same
  obtain ⟨-, f, -, -, -, hf, -, -, current, -⟩ := listedItem_eq_some_iff.mp hr
  obtain ⟨-, f', -, -, -, hf', -, -, current', -⟩ := listedItem_eq_some_iff.mp hr'
  rw [same] at hf
  cases hf.symm.trans hf'
  exact Option.some.inj (current.symm.trans current')

theorem all_listed_iff (con : t.Consistent) (hc : t.clusters.lookup cluster = some c) (ho : c.ownerId = owner) :
    (∀ v ∈ t.counted cluster, (t.listedItem owner v).isSome) ↔ t.UpToDate cluster := by
  constructor
  case mp =>
    intro all o mem ver hv e he hd
    obtain ⟨-, e', he', kind⟩ := con.file _ ver hv
    cases he.symm.trans he'
    have active : t.activeFile o.2.fileVersionId = some (ver.fileId, e) :=
      activeFile_eq_some_iff.mpr ⟨ver, hv, rfl, he, hd, kind⟩
    have seen : o.2.fileVersionId ∈ t.counted cluster :=
      List.mem_toFinset.mpr (mem_countedVersions.mpr ⟨List.mem_map_of_mem mem, by simp [active]⟩)
    obtain ⟨r, hr⟩ := Option.isSome_iff_exists.mp (all _ seen)
    obtain ⟨ver', f, idx, hv', same, hf, -, hi, current, -, -, shown⟩ := listedItem_eq_some_iff.mp hr
    cases hv.symm.trans hv'
    rw [same]
    simp [hf, hi, current, shown]
  case mpr =>
    intro fresh v hv
    obtain ⟨seen, active⟩ := mem_countedVersions.mp (List.mem_toFinset.mp hv)
    obtain ⟨r, hr⟩ := Option.isSome_iff_exists.mp active
    obtain ⟨ver, hv, same, he, hd, -⟩ := activeFile_eq_some_iff.mp hr
    obtain ⟨o, mem, rfl⟩ := List.mem_map.mp seen
    have := fresh o mem ver hv r.2 (same ▸ he) hd
    rw [same] at this
    obtain ⟨current, shown⟩ := this
    obtain ⟨f, hf, current⟩ := Option.bind_eq_some_iff.mp current
    obtain ⟨idx, hi, deleted⟩ := con.index r.1 r.2 he
    rw [hi, Option.any_some, Bool.not_eq_true'] at shown
    obtain ⟨hm, ofCluster⟩ := List.mem_filter.mp mem
    have owned := con.owner o.1 o.2 cluster c ver r.2 (Table.lookup_eq_some_iff.mpr hm)
      (of_decide_eq_true ofCluster) hc hv (same ▸ he)
    exact Option.isSome_iff_exists.mpr ⟨r, listedItem_eq_some_iff.mpr
      ⟨ver, f, idx, hv, same, hf, he, hi, current, owned.trans ho, deleted.trans hd, shown⟩⟩

theorem counts_eq_iff (con : t.Consistent) (hc : t.clusters.lookup cluster = some c) (ho : c.ownerId = owner)
    (hl : 0 < limit) :
    (t.clusterRow (cluster, c)).assetCount = ((t.allMedia owner cluster limit).map (·.1)).dedup.length ↔
      t.UpToDate cluster := by
  rw [allMedia_eq hl, card_media con, ← all_listed_iff con hc ho, clusterRow, ← List.card_toFinset]
  exact eq_comm.trans Finset.card_filter_eq_iff

end

-- The rows that are fetched.
section

variable {q : ClusterQuery} {r : FaceClusterRow}

theorem row_of_mem_fetchClusters (h : r ∈ t.fetchClusters q) (hc : t.clusters.lookup r.id = some c) :
    r = t.clusterRow (r.id, c) ∧ q.having r := by
  have h := List.mem_of_mem_drop (List.mem_of_mem_take h)
  rw [List.mem_mergeSort, List.mem_filter, List.mem_map] at h
  obtain ⟨⟨⟨id, c'⟩, hm, rfl⟩, having⟩ := h
  have found := Table.lookup_eq_some_iff.mpr (List.mem_filter.mp hm).left
  cases hc.symm.trans found
  exact ⟨rfl, having⟩

-- A cluster can be looked up on its own.
theorem fetchClusters_one (hc : t.clusters.lookup cluster = some c) (hide : Bool)
    (hh : ({ limit := 1, hideEmptyUnlabeled := hide } : ClusterQuery).having (t.clusterRow (cluster, c))) :
    t.clusterRow (cluster, c) ∈ t.fetchClusters
      { ownerId := some c.ownerId, clusterId := some cluster, limit := 1, hideEmptyUnlabeled := hide } := by
  let q : ClusterQuery :=
    { ownerId := some c.ownerId, clusterId := some cluster, limit := 1, hideEmptyUnlabeled := hide }
  have single : (t.clusters.rows.filter q.selects).length ≤ 1 := by
    have distinct := (List.pairwise_map.mpr ((List.pairwise_map.mp t.clusters.nodup).filter q.selects))
    have only : (t.clusters.rows.filter q.selects).map (·.1) ⊆ [cluster] := by
      intro id hid
      obtain ⟨r, hr, rfl⟩ := List.mem_map.mp hid
      have := (List.mem_filter.mp hr).right
      simp only [ClusterQuery.selects, q, Option.all_some, Bool.and_eq_true, decide_eq_true_eq] at this
      simp [this.left.left.right]
    simpa using (List.Nodup.subperm distinct only).length_le
  have mem : t.clusterRow (cluster, c) ∈ ((t.clusters.rows.filter q.selects).map t.clusterRow).filter q.having := by
    refine List.mem_filter.mpr ⟨List.mem_map_of_mem (List.mem_filter.mpr ⟨?_, ?_⟩), hh⟩
    case refine_1 => exact Table.lookup_eq_some_iff.mp hc
    case refine_2 => simp [ClusterQuery.selects, q]
  have short : ((((t.clusters.rows.filter q.selects).map t.clusterRow).filter q.having).mergeSort
      q.precedes).length ≤ q.limit + 1 := by
    rw [List.length_mergeSort]
    refine (List.length_filter_le ..).trans ?_
    rw [List.length_map]
    exact single.trans (Nat.le_succ 1)
  rw [fetchClusters, List.drop_zero, List.take_of_length_le short, List.mem_mergeSort]
  exact mem

theorem hidden_iff (hc : t.clusters.lookup cluster = some c) (hn : c.label = none) :
    t.Hidden c.ownerId cluster ↔ (t.clusterRow (cluster, c)).assetCount = 0 := by
  constructor
  case mp =>
    intro hidden
    by_contra some
    have shown : ({ limit := 1, hideEmptyUnlabeled := true } : ClusterQuery).having
        (t.clusterRow (cluster, c)) := by
      simp [ClusterQuery.having, Nat.pos_of_ne_zero some]
    exact hidden _ rfl rfl _ (fetchClusters_one hc true shown) rfl
  case mpr =>
    rintro none q - hq r hr rfl
    obtain ⟨same, having⟩ := row_of_mem_fetchClusters hr hc
    rw [same] at having
    have unlabeled : (t.clusterRow (r.id, c)).label = Option.none := hn
    simp [ClusterQuery.having, hq, none, unlabeled] at having

theorem people_counts_iff (con : t.Consistent) (hc : t.clusters.lookup cluster = some c) (hl : 0 < limit) :
    ((∀ q, ∀ r ∈ t.fetchClusters q, r.id = cluster →
        r.assetCount = ((t.allMedia c.ownerId cluster limit).map (·.1)).dedup.length) ∧
      (c.label = none → (t.Hidden c.ownerId cluster ↔ t.allMedia c.ownerId cluster limit = []))) ↔
    t.UpToDate cluster := by
  rw [← counts_eq_iff con hc rfl hl]
  constructor
  case mp =>
    intro h
    exact h.left _ _ (fetchClusters_one hc false rfl) rfl
  case mpr =>
    intro equal
    constructor
    case left =>
      rintro q r hr rfl
      rw [(row_of_mem_fetchClusters hr hc).left]
      exact equal
    case right =>
      intro hn
      rw [hidden_iff hc hn, equal, List.length_eq_zero_iff]
      constructor
      case mp =>
        intro empty
        rw [List.eq_nil_iff_forall_not_mem] at empty ⊢
        exact fun r hr => empty r.1 (List.mem_dedup.mpr (List.mem_map_of_mem hr))
      case mpr =>
        intro empty
        rw [empty]
        rfl

end

end Tables

def portraitEntry : Entry where
  ownerId   := 7
  parentId  := none
  kind      := .file
  name      := "portrait"
  createdAt := 0
  updatedAt := 0

-- A file whose version 10 has been replaced by version 11, and a person seen in one of the two.
def portrait (seen : Id) : Tables where
  entries      := Table.empty.set 1 portraitEntry
  index        := Table.empty.set 1 (portraitEntry.toEntry.indexRow false)
  files        := Table.empty.set 1 { currentVersionId := some 11 }
  versions     := (Table.empty.set 10 { fileId := 1, storageObjectId := 30, sizeBytes := 4 }).set 11
    { fileId := 1, storageObjectId := 31, sizeBytes := 4 }
  clusters     := Table.empty.set 5 { ownerId := 7, label := none, createdAt := 0, updatedAt := 0 }
  observations := Table.empty.set 20 { fileVersionId := seen, clusterId := some 5, createdAt := 0 }

theorem consistent_portrait {seen : Id} (h : seen = 10 ∨ seen = 11) : (portrait seen).Consistent := by
  have single {α : Type} {k k' : Id} {a b : α} (h : (Table.empty.set k a).lookup k' = some b) : k' = k ∧ a = b := by
    rw [Table.lookup_set, Table.lookup_empty, Option.ite_none_right_eq_some] at h
    exact h.imp_right Option.some.inj
  have version {id : Id} {v : FileVersion} (hv : (portrait seen).versions.lookup id = some v) : v.fileId = 1 := by
    simp only [portrait, Table.lookup_set, Table.lookup_empty] at hv
    split at hv
    case isTrue => rw [← Option.some.inj hv]
    case isFalse =>
      split at hv
      case isTrue => rw [← Option.some.inj hv]
      case isFalse => cases hv
  constructor
  case version =>
    intro id o ho
    obtain ⟨rfl, rfl⟩ := single ho
    rcases h with rfl | rfl <;> exact ⟨_, rfl⟩
  case file =>
    intro id v hv
    rw [version hv]
    exact ⟨⟨_, rfl⟩, _, rfl, rfl⟩
  case index =>
    intro id e he
    obtain ⟨rfl, rfl⟩ := single he
    exact ⟨_, rfl, rfl⟩
  case owner =>
    rintro id o c cluster v e - - hl - he
    obtain ⟨-, rfl⟩ := single hl
    obtain ⟨-, rfl⟩ := single he
    rfl

theorem people_counts_portrait :
    (∀ q, ∀ r ∈ (portrait 11).fetchClusters q, r.id = 5 →
        r.assetCount = (((portrait 11).allMedia 7 5 20).map (·.1)).dedup.length) ∧
      (portrait 11).allMedia 7 5 20 = [(1, portraitEntry)] := by
  have fresh : (portrait 11).UpToDate 5 := by
    intro o ho v hv e he hd
    cases List.mem_singleton.mp (List.mem_filter.mp ho).left
    cases (Option.some.inj hv : _ = v)
    exact ⟨rfl, rfl⟩
  have found : (portrait 11).clusters.lookup 5 = some { ownerId := 7, label := none, createdAt := 0, updatedAt := 0 } :=
    rfl
  have agree := Tables.people_counts_iff (consistent_portrait (.inr rfl)) found (show 0 < 20 by decide)
  exact ⟨(agree.mpr fresh).left, by decide +kernel⟩

theorem not_people_counts_portrait : (portrait 10).Consistent ∧
    ((portrait 10).fetchClusters { ownerId := some 7, hideEmptyUnlabeled := true, limit := 20 }).map
      (fun r => (r.id, r.label, r.assetCount)) = [(5, none, 1)] ∧
    (portrait 10).allMedia 7 5 20 = [] :=
  ⟨consistent_portrait (.inl rfl), by decide +kernel, by decide +kernel⟩

end MyDrive.Browse.People
