import MyDrive.Google.Server
import MyDrive.Transfers.Theorems.Carried

-- What the items, the worker and the uploads rely on of each other.

namespace MyDrive.Transfers.Store

structure Regular (s : Store) : Prop where
  proper   : s.Proper
  backed   : s.Backed
  recorded : s.Recorded
  carried  : s.Carried

variable {s s' : Store}

-- The bytes of the files do not matter, and neither does an object that changes its state.
theorem Regular.of_rows (h : s.Regular) (hn : s.next ≤ s'.next) (hv : s'.versions = s.versions)
    (hf : s'.files = s.files) (hx : s'.sessions = s.sessions) (hh : s'.history = s.history)
    (hi : ∀ o x, s'.objects.lookup o = some x → ∃ y, s.objects.lookup o = some y)
    (ho : ∀ o x, s.objects.lookup o = some x → ∃ y, s'.objects.lookup o = some y) : s'.Regular where
  backed   := h.backed.recede (.of_rows hn hx hv hf)
  carried  := h.carried.of_rows hv hx
  recorded := h.recorded.frame (.of_rows [] hn (by simp [hh]) hx (by simp) (by simp))
  proper   := {
    fileIds    := fun hy => Nat.lt_of_lt_of_le (h.proper.fileIds (hf ▸ hy)) hn
    versionIds := fun hy => Nat.lt_of_lt_of_le (h.proper.versionIds (hv ▸ hy)) hn
    sessionIds := fun hy => Nat.lt_of_lt_of_le (h.proper.sessionIds (hx ▸ hy)) hn
    current    := fun hy => hv ▸ h.proper.current (hf ▸ hy)
    objectIds  := fun {o x} hy => by
      obtain ⟨y, hy⟩ := hi o x hy
      exact Nat.lt_of_lt_of_le (h.proper.objectIds hy) hn
    object     := fun {v x} hy => by
      obtain ⟨y, hy⟩ := h.proper.object (hv ▸ hy)
      exact ho _ y hy }

-- No upload has the object or the file that an import adds.
theorem Regular.intake {size : Nat} {createdAt : Time} {files : Table Id File} {f : Id}
    (h : s.Regular) (hf : files = s.files ∨ f = s.next + 2 ∧ ∃ x : File, x.currentVersion = none ∧
      files = s.files.set f x) : (s.intake size createdAt files f).Regular where
  proper   := h.proper.intake hf
  recorded := h.recorded.frame (.of_rows [] (Nat.le_add_right _ _) (by simp [Store.intake]) rfl
    (by simp) (by simp))
  carried  := {
    replace          := h.carried.replace
    version hx hs ho := by
      obtain ⟨v, w, hv, hw⟩ := h.carried.version hx hs ho
      have old : v ≠ s.next + 1 := Nat.ne_of_lt (Nat.lt_succ_of_lt (h.proper.versionIds hv))
      exact ⟨v, w, (Table.lookup_set.trans (if_neg old)).trans hv, hw⟩ }
  backed   := {
    objectIds hx ho       := Nat.lt_add_right 3 (h.backed.objectIds hx ho)
    fileIds hx hi         := Nat.lt_add_right 3 (h.backed.fileIds hx hi)
    version hx hs ho hv he := by
      simp only [Store.intake, Table.lookup_set] at hv
      split at hv
      case isFalse => exact h.backed.version hx hs ho hv he
      case isTrue  =>
        cases hv
        exact absurd (h.backed.objectIds hx ho) (he ▸ Nat.lt_irrefl _)
    owner {u x g y} hx hs hi hy := by
      simp only [Store.intake, Table.lookup_filterMap, Option.bind_eq_some_iff, Option.some.injEq] at hy
      obtain ⟨z, hz, hy⟩ := hy
      have same : y.ownerId = z.ownerId := by rw [← hy]; split <;> rfl
      rw [same]
      obtain rfl | ⟨rfl, x', -, rfl⟩ := hf
      case inl => exact h.backed.owner hx hs hi hz
      case inr =>
        have old : g ≠ s.next + 2 := Nat.ne_of_lt (Nat.lt_add_right 2 (h.backed.fileIds hx hi))
        rw [Table.lookup_set, if_neg old] at hz
        exact h.backed.owner hx hs hi hz }

theorem Spares.intake {size : Nat} {createdAt : Time} {files : Table Id File} {f : Id} (h : s.Proper)
    (hf : files = s.files ∨ ∃ x : File, files = s.files.set f x) :
    s.Spares (s.intake size createdAt files f) where
  next           := Nat.le_add_right _ _
  reserved       := .inl
  uploaded       := .inl
  staging        := .inl
  payload        := .inl
  object ho _    := (Table.lookup_set.trans (if_neg (Nat.ne_of_lt (h.objectIds ho)))).trans ho
  version hv _ _ := by
    have old := Nat.ne_of_lt (Nat.lt_succ_of_lt (h.versionIds hv))
    exact (Table.lookup_set.trans (if_neg old)).trans hv
  file {g} hg _  := by
    have row : (files.lookup g).isSome := by
      obtain rfl | ⟨x, rfl⟩ := hf
      case inl => exact hg
      case inr =>
        rw [Table.lookup_set]
        split
        case isTrue  => rfl
        case isFalse => exact hg
    obtain ⟨y, hy⟩ := Option.isSome_iff_exists.mp row
    simp [Store.intake, hy]

theorem Extends.of_rows (hn : s.next ≤ s'.next) (hx : s'.sessions = s.sessions)
    (hh : s'.history = s.history) : s.Extends s' where
  next         := hn
  history h    := hh ▸ h
  sessions _ h := ⟨_, hx ▸ h, rfl, rfl⟩

end MyDrive.Transfers.Store

namespace MyDrive.Google

open Transfers

-- A row of an item that refers to nothing new.
structure Item.Drops (x x' : Item) : Prop where
  object {o} : x'.storageObjectId = some o → x.storageObjectId = some o
  key {k} : x'.stagingKey = some k → x.stagingKey = some k
  file {f} : x'.localFileId = some f → x.localFileId = some f

theorem Item.Drops.refl {x : Item} : x.Drops x :=
  ⟨id, id, id⟩

structure Item.Fades (x x' : Item) : Prop extends x.Drops x' where
  committing : x'.state = .committing → x' = x

theorem Item.Fades.refl {x : Item} : x.Fades x :=
  ⟨.refl, fun _ => rfl⟩

theorem Item.Fades.drop {x : Item} {p : Prop} [Decidable p] {x' : Item} (hx : p → x.Fades x') :
    x.Fades (if p then x' else x) := by
  split
  case isTrue hp => exact hx hp
  case isFalse   => exact .refl

namespace Rows

def Imported (s : Rows) (f : Id) : Prop :=
  (∃ i x, s.items.lookup i = some x ∧ x.localFileId = some f) ∨ ∃ g, s.links.lookup g = some f

-- A step that leaves the items and their files as they are, or takes something away.
structure Keeps (s s' : Rows) : Prop where
  spares : s.store.Spares s'.store
  item {i x'} : s'.items.lookup i = some x' → ∃ x, s.items.lookup i = some x ∧ x.Fades x'
  link {g f} : s'.links.lookup g = some f → s.links.lookup g = some f

-- A step that makes no item refer to anything new.
structure Derives (s s' : Rows) : Prop where
  next : s.store.next ≤ s'.store.next
  reserved {o} : s'.store.Reserved o → s.store.Reserved o ∨ s.store.next ≤ o
  uploaded {f} : s'.store.Uploaded f → s.store.Uploaded f ∨ s.store.next ≤ f
  item {i x'} : s'.items.lookup i = some x' → ∃ x, s.items.lookup i = some x ∧ x.Drops x'
  imported {f} : s'.Imported f → s.Imported f
  path {o b} : s'.store.payloads.lookup o = some b →
    (s.store.payloads.lookup o).isSome ∨ o < s.store.next

section

variable [Digest]

def Content (size : Nat) (checksum : String) (bytes : List UInt8) : Prop :=
  bytes.length = size ∧ Digest.sha256 bytes = checksum

-- An item between the two transactions of its commit.
structure Interrupted (s : Rows) (x : Item) (o k f : Id) (c : String) : Prop where
  object   : x.storageObjectId = some o
  key      : x.stagingKey = some k
  checksum : x.checksum = some c
  file     : x.localFileId = some f
  row      : ∃ y, s.store.objects.lookup o = some y ∧ y.state = .pending
  version  : ∃ v w, s.store.versions.lookup v = some w ∧ w.objectId = o ∧ w.fileId = f
  entry    : (s.store.files.lookup f).isSome
  staged {b} : s.store.staging.lookup k = some b → Content x.bytesDownloaded c b
  payload {b} : s.store.payloads.lookup o = some b → Content x.bytesDownloaded c b

structure Sound (s : Rows) : Prop where
  regular : s.store.Regular
  ids {i x} : s.items.lookup i = some x → i < s.store.next
  object {i x o} : s.items.lookup i = some x → x.storageObjectId = some o →
    o < s.store.next ∧ ¬s.store.Reserved o
  key {i x k} : s.items.lookup i = some x → x.stagingKey = some k → k < s.store.next
  imported {f} : s.Imported f → f < s.store.next ∧ ¬s.store.Uploaded f
  path {o} : (s.store.payloads.lookup o).isSome → o < s.store.next
  objects {i j x y o} : s.items.lookup i = some x → s.items.lookup j = some y →
    x.storageObjectId = some o → y.storageObjectId = some o → i = j
  keys {i j x y k} : s.items.lookup i = some x → s.items.lookup j = some y →
    x.stagingKey = some k → y.stagingKey = some k → i = j
  committing {i x} : s.items.lookup i = some x → x.state = .committing →
    ∃ o k f c, s.Interrupted x o k f c

end

variable {s s' : Rows} {id o k f : Id} {c : String}

theorem Imported.keep (h : s'.Imported f) (hk : s.Keeps s') : s.Imported f := by
  obtain ⟨i, x', hx', hf⟩ | ⟨g, hg⟩ := h
  case inl =>
    obtain ⟨x, hx, hr⟩ := hk.item hx'
    exact .inl ⟨i, x, hx, hr.file hf⟩
  case inr => exact .inr ⟨g, hk.link hg⟩

theorem lookup_updateItem {g : Item → Item} {i : Id} : (s.updateItem id g).items.lookup i =
    (s.items.lookup i).map fun x => if i = id then g x else x := by
  simp [Rows.updateItem, Option.map_eq_bind, Function.comp_def]

-- The files of the staging area and the rows of the items go, or lose what they refer to.
theorem Keeps.of_items {n : Id} {staging : Table Id (List UInt8)} {sources : Table Id Source}
    {items : Table Id Item} (hn : s.store.next ≤ n)
    (hs : ∀ {k b}, staging.lookup k = some b →
      s.store.staging.lookup k = some b ∨ s.store.next ≤ k)
    (hi : ∀ {i x'}, items.lookup i = some x' → ∃ x, s.items.lookup i = some x ∧ x.Fades x') :
    s.Keeps { s with store := { s.store with next := n, staging }, sources, items } where
  spares := ⟨hn, .inl, .inl, fun h _ => h, fun h _ _ => h, fun h _ => h, hs, .inl⟩
  item   := hi
  link   := id

-- A removal deletes items, and changes none.
theorem lookup_deleteSources {p : Id → Source → Bool} {i : Id} {x : Item}
    (h : (s.deleteSources p).items.lookup i = some x) : s.items.lookup i = some x := by
  simp only [Rows.deleteSources, Table.lookup_filterMap, Option.bind_eq_some_iff] at h
  obtain ⟨y, hy, he⟩ := h
  split at he <;> cases he
  exact hy

theorem lookup_removeSource {r : Removal} {i : Id} {x : Item}
    (h : (s.removeSource r).items.lookup i = some x) : s.items.lookup i = some x := by
  have pending {y : Item} (hy : (s.items.filterMap fun _ i =>
      if i.sourceId = r.source ∧ i.state = .pending then none else some i).lookup i = some y) :
      s.items.lookup i = some y := by
    simp only [Table.lookup_filterMap, Option.bind_eq_some_iff] at hy
    obtain ⟨z, hz, he⟩ := hy
    split at he <;> cases he
    exact hz
  simp only [Rows.removeSource] at h
  split at h
  case isTrue  => exact pending h
  case isFalse => exact pending (lookup_deleteSources h)

variable [Digest]

theorem Interrupted.keep {x : Item} (h : s.Interrupted x o k f c) (hs : s.store.Spares s'.store)
    (ho : ¬s.store.Reserved o) (hf : ¬s.store.Uploaded f) (hn : k < s.store.next) :
    s'.Interrupted x o k f c where
  object   := h.object
  key      := h.key
  checksum := h.checksum
  file     := h.file
  row      := by
    obtain ⟨y, hy, hp⟩ := h.row
    exact ⟨y, hs.object hy ho, hp⟩
  version  := by
    obtain ⟨v, w, hv, rfl, rfl⟩ := h.version
    exact ⟨v, w, hs.version hv ho hf, rfl, rfl⟩
  entry    := hs.file h.entry hf
  staged hb := by
    obtain hb | hk := hs.staging hb
    case inl => exact h.staged hb
    case inr => exact absurd hn (Nat.not_lt_of_le hk)
  payload hb := by
    obtain hb | hr := hs.payload hb
    case inl => exact h.payload hb
    case inr => exact absurd hr ho

theorem Sound.derive (h : s.Sound) (hd : s.Derives s') (hr : s'.store.Regular)
    (hc : ∀ {i x}, s'.items.lookup i = some x → x.state = .committing →
      ∃ o k f c, s'.Interrupted x o k f c) : s'.Sound where
  regular    := hr
  committing := hc
  ids hx'    := by
    obtain ⟨x, hx, -⟩ := hd.item hx'
    exact Nat.lt_of_lt_of_le (h.ids hx) hd.next
  object hx' ho := by
    obtain ⟨x, hx, hw⟩ := hd.item hx'
    obtain ⟨hn, hu⟩ := h.object hx (hw.object ho)
    refine ⟨Nat.lt_of_lt_of_le hn hd.next, fun hu' => ?_⟩
    exact (hd.reserved hu').elim hu fun hle => absurd hn (Nat.not_lt_of_le hle)
  key hx' hy := by
    obtain ⟨x, hx, hw⟩ := hd.item hx'
    exact Nat.lt_of_lt_of_le (h.key hx (hw.key hy)) hd.next
  imported hi := by
    obtain ⟨hn, hu⟩ := h.imported (hd.imported hi)
    refine ⟨Nat.lt_of_lt_of_le hn hd.next, fun hu' => ?_⟩
    exact (hd.uploaded hu').elim hu fun hle => absurd hn (Nat.not_lt_of_le hle)
  path hb := by
    obtain ⟨b, hb⟩ := Option.isSome_iff_exists.mp hb
    exact Nat.lt_of_lt_of_le ((hd.path hb).elim h.path fun hn => hn) hd.next
  objects hx' hy' ho ho' := by
    obtain ⟨x, hx, hw⟩ := hd.item hx'
    obtain ⟨y, hy, hz⟩ := hd.item hy'
    exact h.objects hx hy (hw.object ho) (hz.object ho')
  keys hx' hy' ho ho' := by
    obtain ⟨x, hx, hw⟩ := hd.item hx'
    obtain ⟨y, hy, hz⟩ := hd.item hy'
    exact h.keys hx hy (hw.key ho) (hz.key ho')

theorem Sound.keep_interrupted {i : Id} {x : Item} (h : s.Sound) (hs : s.store.Spares s'.store)
    (hx : s.items.lookup i = some x) (hc : x.state = .committing) :
    ∃ o k f c, s'.Interrupted x o k f c := by
  obtain ⟨o, k, f, c, hi⟩ := h.committing hx hc
  have file : s.Imported f := .inl ⟨i, x, hx, hi.file⟩
  exact ⟨o, k, f, c, hi.keep hs (h.object hx hi.object).right (h.imported file).right
    (h.key hx hi.key)⟩

theorem Sound.keep (h : s.Sound) (hk : s.Keeps s') (hr : s'.store.Regular) : s'.Sound := by
  refine h.derive ⟨hk.spares.next, hk.spares.reserved, hk.spares.uploaded, fun hx' => ?_,
    fun hf => hf.keep hk, fun hb => ?_⟩ hr fun hx' hc => ?_
  case refine_1 =>
    obtain ⟨x, hx, hw⟩ := hk.item hx'
    exact ⟨x, hx, hw.toDrops⟩
  case refine_2 =>
    obtain hb | ⟨u, v, f, hu⟩ := hk.spares.payload hb
    case inl => exact .inl (hb ▸ rfl)
    case inr => exact .inr (h.regular.recorded.bound hu).right
  case refine_3 =>
    obtain ⟨x, hx, hw⟩ := hk.item hx'
    cases hw.committing hc
    exact h.keep_interrupted hk.spares hx hc

-- The foreign keys of the items are valid, so that an upload's step does not change what an item that
-- is being committed refers to.
theorem Keeps.withStore {store : Store} (h : s.Sound) (hs : s.store.Spares store) :
    s.Keeps (s.withStore store) where
  spares   := hs
  link hg  := by
    simp only [Rows.withStore, Table.lookup_filterMap, Option.bind_eq_some_iff] at hg
    obtain ⟨f, hf, he⟩ := hg
    split at he <;> cases he
    exact hf
  item hx' := by
    simp only [Rows.withStore, Table.lookup_filterMap, Option.bind_eq_some_iff, Option.some.injEq] at hx'
    obtain ⟨x, hx, rfl⟩ := hx'
    refine ⟨x, hx, ⟨fun ho => ?_, fun hk => hk, fun hf => ?_⟩, fun hc => ?_⟩
    case refine_1 => exact (Option.filter_eq_some_iff.mp ho).left
    case refine_2 => exact (Option.filter_eq_some_iff.mp hf).left
    case refine_3 =>
      obtain ⟨o, k, f, c, hi⟩ := h.committing hx hc
      obtain ⟨y, hy, -⟩ := hi.row
      have file : s.Imported f := .inl ⟨_, _, hx, hi.file⟩
      have object : x.storageObjectId.filter (fun o => (store.objects.lookup o).isSome) =
          x.storageObjectId := by
        simp [hi.object, Option.filter_some, hs.object hy (h.object hx hi.object).right]
      have entry : x.localFileId.filter (fun f => (store.files.lookup f).isSome) = x.localFileId := by
        simp [hi.file, Option.filter_some, hs.file hi.entry (h.imported file).right]
      rw [object, entry]

theorem Sound.of_items {n : Id} {staging : Table Id (List UInt8)} {sources : Table Id Source}
    {items : Table Id Item} (h : s.Sound) (hn : s.store.next ≤ n)
    (hs : ∀ {k b}, staging.lookup k = some b →
      s.store.staging.lookup k = some b ∨ s.store.next ≤ k)
    (hi : ∀ {i x'}, items.lookup i = some x' → ∃ x, s.items.lookup i = some x ∧ x.Fades x') :
    Sound { s with store := { s.store with next := n, staging }, sources, items } :=
  h.keep (.of_items hn hs hi)
    (h.regular.of_rows hn rfl rfl rfl rfl (fun _ x h => ⟨x, h⟩) fun _ x h => ⟨x, h⟩)

theorem Sound.removeStaging {key : Option Id} (h : s.Sound) : (s.removeStaging key).Sound := by
  cases key
  case none   => exact h
  case some k =>
    apply h.of_items (Nat.le_refl _) _ fun hx => ⟨_, hx, .refl⟩
    intro j b hb
    rw [Table.lookup_erase] at hb
    split at hb
    case isTrue  => contradiction
    case isFalse => exact .inl hb

theorem Sound.updateItem {g : Item → Item} (h : s.Sound)
    (hg : ∀ x, s.items.lookup id = some x → x.Fades (g x)) : (s.updateItem id g).Sound := by
  apply h.of_items (Nat.le_refl _) .inl
  intro i x' hx'
  obtain ⟨x, hx, rfl⟩ := Option.map_eq_some_iff.mp (lookup_updateItem.symm.trans hx')
  refine ⟨x, hx, ?_⟩
  split
  case isTrue he => subst he; exact hg x hx
  case isFalse   => exact .refl

theorem Sound.failItem (h : s.Sound) : (s.failItem id).Sound := by
  apply h.removeStaging.updateItem
  intro x _
  exact .drop fun _ => ⟨⟨fun h => h, by simp, fun h => h⟩, by simp⟩

theorem Sound.releaseItem (h : s.Sound) : (s.releaseItem id).Sound := by
  apply h.updateItem
  intro x _
  exact .drop fun _ => ⟨⟨fun h => h, by simp, fun h => h⟩, by simp⟩

theorem Sound.recoverDownloads {removed : List Id} (h : s.Sound) :
    (s.recoverDownloads removed).Sound := by
  refine h.of_items (Nat.le_refl _) (fun hb => ?_) fun hx' => ?_
  case refine_1 =>
    simp only [Table.lookup_filterMap, Option.bind_eq_some_iff] at hb
    obtain ⟨b, hb, he⟩ := hb
    split at he <;> cases he
    exact .inl hb
  case refine_2 =>
    simp only [Table.lookup_filterMap, Option.bind_eq_some_iff, Option.some.injEq] at hx'
    obtain ⟨x, hx, rfl⟩ := hx'
    exact ⟨x, hx, .drop fun _ => ⟨⟨fun h => h, by simp, fun h => h⟩, by simp⟩⟩

theorem Sound.disconnect {owner : Id} (h : s.Sound) : (s.disconnect owner).Sound := by
  apply h.of_items (Nat.le_refl _) .inl
  intro i x hx
  exact ⟨x, lookup_deleteSources (p := fun _ y => y.ownerId = owner) hx, .refl⟩

theorem Sound.removeSource {r : Removal} (h : s.Sound) : (s.removeSource r).Sound := by
  have items {i : Id} {x : Item} (hx : (s.removeSource r).items.lookup i = some x) :
      ∃ y, s.items.lookup i = some y ∧ y.Fades x := ⟨x, lookup_removeSource hx, .refl⟩
  simp only [Rows.removeSource] at items ⊢
  split at items <;> rename_i hc <;> simp only [hc]
  case isTrue  => exact h.of_items (Nat.le_refl _) .inl items
  case isFalse => exact h.of_items (Nat.le_refl _) .inl items

theorem Sound.insertSource {source : Source} (h : s.Sound) : (s.insertSource source).Sound :=
  h.of_items (Nat.le_succ _) .inl fun hx => ⟨_, hx, .refl⟩

end Rows
end MyDrive.Google
