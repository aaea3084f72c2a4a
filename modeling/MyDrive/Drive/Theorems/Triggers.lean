import MyDrive.Drive.Theorems.Queries

open Forest

namespace MyDrive.Drive

-- A trashed entry lies strictly above `x`.
def Buried (entries : Table Id Entry) (x : Id) : Prop :=
  ∃ z, Above (parentOf entries) x z ∧ Trashed entries z

-- The effect of `sync_drive_entry_index` for the row `id`: its own index row is rewritten, and
-- the index rows of the touched entries get a new flag.
structure Synced (v v' : View) (id : Id) (new : Entry) (buried : Bool)
    (touched : Id → Prop) (flag : Id → Bool) : Prop where
  base    : v'.base = v.base
  entries : v'.changes.entries = v.changes.entries
  self    : v'.changes.index.lookup id = some (some (new.indexRow buried))
  below {x r} : x ≠ id → touched x → v.index.lookup x = some r →
    v'.changes.index.lookup x = some (some { r with buried := flag x })
  missing {x} : x ≠ id → touched x → v.index.lookup x = none →
    v'.changes.index.lookup x = v.changes.index.lookup x
  other {x} : x ≠ id → ¬touched x → v'.changes.index.lookup x = v.changes.index.lookup x

-- The same effect, as it is seen by a reader of the index.
structure Resynced (index index' : Table Id IndexRow) (id : Id) (new : Entry) (buried : Bool)
    (touched : Id → Prop) (flag : Id → Bool) : Prop where
  self : index'.lookup id = some (new.indexRow buried)
  below {x} : x ≠ id → touched x →
    index'.lookup x = (index.lookup x).map fun r => { r with buried := flag x }
  other {x} : x ≠ id → ¬touched x → index'.lookup x = index.lookup x

variable {v v' : View} {id : Id} {old new : Entry} {b : Bool}

namespace Synced

variable {touched : Id → Prop} {flag : Id → Bool}

theorem view_entries (s : Synced v v' id new b touched flag) : v'.entries = v.entries := by
  simp [View.entries, s.base, s.entries]

theorem resynced (s : Synced v v' id new b touched flag) :
    Resynced v.index v'.index id new b touched flag where
  self := by simp [View.index, s.self]
  below {x} h ht := by
    cases hr : v.index.lookup x
    case some => simp [View.index, s.below h ht hr]
    case none => simpa [View.index, s.missing h ht hr, s.base] using hr
  other h ht := by simp [View.index, s.other h ht, s.base]

end Synced

-- The triggers write index rows only.
@[simp]
theorem sync_changes_entries {old : Option Entry} :
    (syncDriveEntryIndex v old id new).changes.entries = v.changes.entries := by
  have refresh : (refreshEntryIndex v id).changes.entries = v.changes.entries := by
    unfold refreshEntryIndex
    split <;> rfl
  unfold syncDriveEntryIndex
  split
  case isTrue  => exact refresh
  case isFalse =>
    split <;> simp [buryDescendants, rebaseDescendants, setBuried, refresh]

@[simp]
theorem sync_base {old : Option Entry} : (syncDriveEntryIndex v old id new).base = v.base := by
  have refresh : (refreshEntryIndex v id).base = v.base := by
    unfold refreshEntryIndex
    split <;> rfl
  unfold syncDriveEntryIndex
  split
  case isTrue  => exact refresh
  case isFalse =>
    split <;> simp [buryDescendants, rebaseDescendants, setBuried, refresh]

theorem sync_entries {old : Option Entry} :
    (syncDriveEntryIndex v old id new).entries = v.entries := by
  simp [View.entries]

variable (hid : v.entries.lookup id = some new)
include hid

theorem refreshEntryIndex_eq : refreshEntryIndex v id =
    v.setIndex id (new.indexRow ((v.index.lookup id).elim false (·.buried))) := by
  simp [refreshEntryIndex, hid]

theorem sync_same (h : old.parentId = new.parentId) (h' : old.deletedAt = new.deletedAt) :
    Synced v (syncDriveEntryIndex v old id new) id new
      ((v.index.lookup id).elim false (·.buried)) (fun _ => False) (fun _ => false) := by
  have he : syncDriveEntryIndex v old id new = refreshEntryIndex v id := by
    simp [syncDriveEntryIndex, h, h']
  rw [he, refreshEntryIndex_eq hid]
  constructor
  case base    => rfl
  case entries => rfl
  case self    => simp
  case below   => intro x r _ ht; exact ht.elim
  case missing => intro x _ ht; exact ht.elim
  case other   => intro x hx _; simp [hx]

-- Rewriting the row of `id` first and then the rows of `ids`.
theorem synced_updateIndex (b : Bool) (flag : Id → Bool) {ids : List Id} (hn : id ∉ ids) :
    Synced v ((setBuried (refreshEntryIndex v id) id b).updateIndex
      (fun x r => { r with buried := flag x }) ids) id new b (· ∈ ids) flag := by
  have self : (setBuried (refreshEntryIndex v id) id b).changes.index.lookup id =
      some (some (new.indexRow b)) := by
    rw [refreshEntryIndex_eq hid, setBuried, View.lookup_updateIndex_changes (by simp)]
    simp [Entry.indexRow]
  have rest {x} (h : x ≠ id) : (setBuried (refreshEntryIndex v id) id b).changes.index.lookup x =
      v.changes.index.lookup x := by
    rw [refreshEntryIndex_eq hid, setBuried, View.lookup_updateIndex_changes (by simp)]
    simp [h]
  have index {x} (h : x ≠ id) : (setBuried (refreshEntryIndex v id) id b).index.lookup x =
      v.index.lookup x := by
    rw [refreshEntryIndex_eq hid, setBuried, View.lookup_updateIndex (by simp)]
    simp [h]
  have lookup {x} := @View.lookup_updateIndex_changes (setBuried (refreshEntryIndex v id) id b) x
    (fun x r => { r with buried := flag x }) ids (by simp)
  constructor
  case base    =>
    rw [View.updateIndex_base, setBuried, View.updateIndex_base, refreshEntryIndex_eq hid]
    rfl
  case entries =>
    rw [View.updateIndex_changes_entries, setBuried, View.updateIndex_changes_entries,
      refreshEntryIndex_eq hid]
    rfl
  case self    => rw [lookup, if_neg hn, self]
  case below   => intro x r h ht hr; rw [lookup, if_pos ht, index h, hr]; rfl
  case missing => intro x h ht hr; rw [lookup, if_pos ht, index h, hr]; exact rest h
  case other   => intro x h ht; rw [lookup, if_neg ht, rest h]

theorem setBuried_refreshEntryIndex_entries :
    (setBuried (refreshEntryIndex v id) id b).entries = v.entries := by
  rw [setBuried, View.updateIndex_entries, refreshEntryIndex_eq hid, View.setIndex_entries]

variable (tree : Tree v.entries)
include tree

omit hid in
theorem not_above_self : ¬Above (parentOf v.entries) id id := by
  rintro ⟨_, hp, hc⟩
  exact not_ancestor_of_parent tree.wf hp hc

theorem parentHidden_refreshEntryIndex :
    parentHidden (refreshEntryIndex v id) new.parentId = parentHidden v new.parentId := by
  cases hp : new.parentId
  case none => rfl
  case some p =>
    have hn : p ≠ id := fun h =>
      not_ancestor_of_parent tree.wf (parentOf_eq hid |>.trans hp) (h ▸ .refl _)
    rw [refreshEntryIndex_eq hid]
    simp [parentHidden, hn]

-- Trashing `id` buries everything below it.
theorem sync_trash {o : Option Entry} (ho : ∀ e ∈ o, e.deletedAt ≠ new.deletedAt)
    (hd : new.deletedAt.isSome) :
    Synced v (syncDriveEntryIndex v o id new) id new false
      (fun x => Above (parentOf v.entries) x id) (fun _ => true) := by
  have he : syncDriveEntryIndex v o id new =
      buryDescendants (setBuried (refreshEntryIndex v id) id false) id new.ownerId := by
    have hn : (o.any fun o => o.parentId = new.parentId && o.deletedAt = new.deletedAt) = false := by
      cases o <;> simp_all
    simp [syncDriveEntryIndex, hn, hd]
  have hm (x) : x ∈ (descend v.entries (·.ownerId = new.ownerId)
      (childrenOf v.entries (·.ownerId = new.ownerId) id)).map Prod.fst ↔
      Above (parentOf v.entries) x id :=
    tree.mem_map_descend_iff hid rfl
  rw [he, buryDescendants, setBuried_refreshEntryIndex_entries hid]
  have hn := mt (hm id).mp (not_above_self tree)
  have hs := synced_updateIndex hid false (fun _ => true) hn
  simpa only [hm] using hs

-- The entries that `rebase_descendants` visits, each with the flag that it finds for them.
theorem mem_rebaseWalk_filter_iff {x : Id} {f : Bool} :
    (∃ w ∈ (rebaseWalk v.entries id new.ownerId).filter (·.id ≠ id),
      w.id = x ∧ w.ancestorDeleted = f) ↔
    Above (parentOf v.entries) x id ∧ (f = true ↔
      ∃ z, Above (parentOf v.entries) x z ∧ Ancestor (parentOf v.entries) z id ∧
        Trashed v.entries z) := by
  have walk {w} := tree.mem_rebaseWalk_iff (w := w) hid rfl
  constructor
  case mp =>
    rintro ⟨w, hw, hx, hf⟩
    obtain ⟨hw, hn⟩ := List.mem_filter.mp hw
    obtain ⟨ha, _, hi⟩ := walk.mp hw
    cases hx
    cases hf
    exact ⟨above_iff tree.wf |>.mpr ⟨ha, (of_decide_eq_true hn).symm⟩, hi⟩
  case mpr =>
    rintro ⟨ha, hf⟩
    obtain ⟨ha', hn⟩ := above_iff tree.wf |>.mp ha
    obtain ⟨_, hc, _⟩ := ha
    obtain ⟨e, he, _⟩ := lookup_of_parentOf hc
    have hw := walk (w := ⟨x, e.deletedAt, f⟩) |>.mpr ⟨ha', ⟨e, he, rfl⟩, hf⟩
    exact ⟨_, List.mem_filter.mpr ⟨hw, decide_eq_true hn.symm⟩, rfl, rfl⟩

-- Any other write passes the flag of the parent on to `id`, and recomputes the flags below `id`
-- from the entries up to `id`.
theorem sync_live {o : Option Entry}
    (ho : ∀ e ∈ o, e.parentId = new.parentId → e.deletedAt ≠ none) (hd : new.deletedAt = none) :
    ∃ flag : Id → Bool,
      (∀ x, Above (parentOf v.entries) x id → (flag x = true ↔
        ∃ z, Above (parentOf v.entries) x z ∧ Ancestor (parentOf v.entries) z id ∧
          Trashed v.entries z)) ∧
      Synced v (syncDriveEntryIndex v o id new) id new (parentHidden v new.parentId)
        (fun x => Above (parentOf v.entries) x id) flag := by
  have he : syncDriveEntryIndex v o id new =
      rebaseDescendants (setBuried (refreshEntryIndex v id) id (parentHidden v new.parentId))
        id new.ownerId := by
    have hn : (o.any fun o => o.parentId = new.parentId && o.deletedAt = none) = false := by
      cases o <;> simp_all
    simp [syncDriveEntryIndex, hn, hd, parentHidden_refreshEntryIndex hid tree]
  have walk {x f} := mem_rebaseWalk_filter_iff hid tree (x := x) (f := f)
  have hm (x) : x ∈ ((rebaseWalk v.entries id new.ownerId).filter (·.id ≠ id)).map (·.id) ↔
      Above (parentOf v.entries) x id := by
    rw [List.mem_map]
    constructor
    case mp  => rintro ⟨w, hw, hx⟩; exact walk.mp ⟨w, hw, hx, rfl⟩ |>.left
    case mpr =>
      classical
      intro ha
      obtain ⟨w, hw, hx, _⟩ := walk (f := decide _) |>.mpr ⟨ha, decide_eq_true_iff⟩
      exact ⟨w, hw, hx⟩
  have hs := synced_updateIndex hid (parentHidden v new.parentId)
    (fun x => ((rebaseWalk v.entries id new.ownerId).filter (·.id ≠ id)).any fun w =>
      w.id = x && w.ancestorDeleted) (mt (hm id).mp (not_above_self tree))
  simp only [hm] at hs
  rw [he, rebaseDescendants, setBuried_refreshEntryIndex_entries hid]
  refine ⟨_, fun x hx => ?_, hs⟩
  have := walk (x := x) (f := true)
  simp only [List.any_eq_true, Bool.and_eq_true, decide_eq_true_eq, this, hx, true_and, true_iff]

end MyDrive.Drive
