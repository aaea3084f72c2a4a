import MyDrive.Library.Except
import MyDrive.Drive.Statements
import MyDrive.Drive.Theorems.Triggers

open Forest

namespace MyDrive.Drive

variable {v v' : View} {id p owner : Id} {old new : Entry}

theorem validateDriveEntryParent_ok (h : validateDriveEntryParent v id new = .ok ())
    (hp : new.parentId = some p) :
    ∃ f, v.entries.lookup p = some f ∧ f.kind = .folder ∧ f.ownerId = new.ownerId ∧
      f.deletedAt = none ∧ (new.kind = .folder → ∀ e, (id, e) ∉ chain v.entries (fun _ => true) p) := by
  simp only [validateDriveEntryParent, hp] at h
  split at h <;> try contradiction
  case _ f hf =>
    split at h <;> try contradiction
    case _ hn =>
      simp only [ne_eq, not_or, Decidable.not_not] at hn
      split at h <;> try contradiction
      case _ hc =>
        refine ⟨f, hf, hn.1, hn.2.1, hn.2.2, fun hk e hm => hc ⟨hk, ?_⟩⟩
        exact List.any_eq_true.mpr ⟨_, hm, by simp⟩

section

variable (tree : Tree v.entries)
include tree

-- What the parent guard excludes besides the ancestors that it looks for: a file has no children,
-- and neither has a row that is not yet there.
theorem not_ancestor_of_validate (h : validateDriveEntryParent v id new = .ok ())
    (hk : ∀ old, v.entries.lookup id = some old → old.kind = new.kind)
    (hp : new.parentId = some p) : ¬Ancestor (parentOf v.entries) p id := by
  intro ha
  obtain ⟨f, hf, hfk, _, _, hc⟩ := validateDriveEntryParent_ok h hp
  obtain ⟨e, he, _⟩ := tree.linked.ancestor_lookup ha hf
  cases hn : new.kind
  case folder =>
    refine hc hn e ?_
    exact tree.linked.mem_chain_iff hf (fun _ _ _ _ => rfl) |>.mpr ⟨ha, he⟩
  case file =>
    have hek := hk e he
    cases Relation.ReflTransGen.cases_tail ha
    case inl h =>
      cases h
      cases he.symm.trans hf
      simp [hek, hn] at hfk
    case inr h =>
      obtain ⟨c, _, hc⟩ := h
      obtain ⟨g, hg, hgp⟩ := lookup_of_parentOf hc
      obtain ⟨e', he', hek', _⟩ := tree.parent hg hgp
      cases he.symm.trans he'
      simp [hek, hn] at hek'

theorem tree_setEntry_guarded (h : validateDriveEntryParent v id new = .ok ())
    (hs : ∀ old, v.entries.lookup id = some old →
      old.kind = new.kind ∧ old.ownerId = new.ownerId) :
    Tree (v.setEntry id new).entries := by
  refine tree.set (fun _ => View.lookup_setEntry) hs fun p hp => ?_
  obtain ⟨f, hf, hk, ho, _⟩ := validateDriveEntryParent_ok h hp
  exact ⟨not_ancestor_of_validate tree h (fun _ h => (hs _ h).left) hp, f, hf, hk, ho⟩

theorem tree_setEntry_same (new : Entry) (ho : v.entries.lookup id = some old) (hk : old.kind = new.kind)
    (hw : old.ownerId = new.ownerId) (hp : old.parentId = new.parentId) :
    Tree (v.setEntry id new).entries := by
  refine tree.set (fun _ => View.lookup_setEntry) ?_ fun p hnp => ?_
  case refine_1 => intro _ h; cases ho.symm.trans h; exact ⟨hk, hw⟩
  case refine_2 =>
    have hop := hp.trans hnp
    refine ⟨not_ancestor_of_parent tree.wf (parentOf_eq ho |>.trans hop), ?_⟩
    exact hw ▸ tree.parent ho hop

end

theorem activeRow_eq_some (h : activeRow v owner id = some old) :
    v.entries.lookup id = some old ∧ old.ownerId = owner ∧ old.deletedAt = none := by
  simpa [activeRow, Option.filter_eq_some_iff] using h

theorem trashedRow_eq_some (h : trashedRow v owner id = some old) :
    v.entries.lookup id = some old ∧ old.ownerId = owner ∧ old.deletedAt.isSome := by
  simpa [trashedRow, Option.filter_eq_some_iff] using h

theorem deleteEntry_ok (h : deleteEntry v id = .ok v') :
    (∀ y e, v.entries.lookup y = some e → e.parentId ≠ some id) ∧
      v' = (v.setEntry id none).setIndex id none := by
  simp only [deleteEntry] at h
  split at h <;> try contradiction
  case _ hn =>
    cases h
    refine ⟨fun y e hy hp => hn ?_, rfl⟩
    exact Table.any_iff.mpr ⟨y, e, hy, by simp [hp]⟩

variable [Collation]

theorem insertEntry_ok (h : insertEntry v id new = .ok v') :
    v.entries.lookup id = none ∧ validateDriveEntryParent v id new = .ok () ∧
      v' = syncDriveEntryIndex (v.setEntry id new) none id new := by
  simp only [insertEntry] at h
  split at h <;> try contradiction
  case _ hn =>
    cases hv : validateDriveEntryParent v id new <;> simp only [hv] at h <;> try contradiction
    split at h <;> try contradiction
    case _ => 
      cases h
      exact ⟨by simpa using hn, rfl, rfl⟩

theorem updateEntry_ok {guarded : Bool} (h : updateEntry v id old new guarded = .ok v') :
    (guarded = true → validateDriveEntryParent v id new = .ok ()) ∧
      v' = syncDriveEntryIndex (v.setEntry id new) old id new := by
  cases guarded <;> simp only [updateEntry, Bool.false_eq_true, if_false, if_true] at h
  case false =>
    split at h <;> try contradiction
    cases h
    exact ⟨(absurd · Bool.false_ne_true), rfl⟩
  case true =>
    cases hv : validateDriveEntryParent v id new <;> simp only [hv] at h <;> try contradiction
    split at h <;> try contradiction
    cases h
    exact ⟨fun _ => rfl, rfl⟩

theorem insertEntry_unique {new : Entry} (h : insertEntry v id new = .ok v') :
    violatesUnique v.entries id new = false := by
  simp only [insertEntry, Except.ite_throw_eq_ok_iff, Except.bind_eq_ok_iff] at h
  obtain ⟨-, -, -, h, -⟩ := h
  simpa using h

theorem updateEntry_unique {guarded : Bool} (h : updateEntry v id old new guarded = .ok v') :
    violatesUnique v.entries id new = false := by
  cases guarded <;> simp only [updateEntry, Bool.false_eq_true, if_false, if_true] at h
  case false =>
    split at h <;> try contradiction
    case _ hn => simpa using hn
  case true =>
    cases hv : validateDriveEntryParent v id new <;> simp only [hv] at h <;> try contradiction
    split at h <;> try contradiction
    case _ hn => simpa using hn

theorem updateName_ok {name : String} (h : updateName v owner id name = .ok v') :
    ∃ old, v.entries.lookup id = some old ∧ old.ownerId = owner ∧ old.deletedAt = none ∧
      Synced (v.setEntry id (some { old with name })) v' id { old with name }
        ((v.index.lookup id).elim false (·.buried)) (fun _ => False) (fun _ => false) := by
  simp only [updateName] at h
  split at h <;> try contradiction
  case _ old ho =>
    obtain ⟨hl, hw, hd⟩ := activeRow_eq_some ho
    obtain ⟨_, he⟩ := updateEntry_ok h
    exact ⟨old, hl, hw, hd, he ▸ sync_same (by simp) rfl rfl⟩

theorem setDeletedAt_ok {now : Time} (tree : Tree v.entries)
    (h : setDeletedAt v owner id now = .ok v') :
    ∃ old new, v.entries.lookup id = some old ∧ old.ownerId = owner ∧ old.deletedAt = none ∧
      new = { old with deletedAt := some now } ∧ Tree (v.setEntry id (some new)).entries ∧
      Synced (v.setEntry id (some new)) v' id new false
        (fun x => Above (parentOf (v.setEntry id (some new)).entries) x id) (fun _ => true) := by
  simp only [setDeletedAt] at h
  split at h <;> try contradiction
  case _ old ho =>
    obtain ⟨hl, hw, hd⟩ := activeRow_eq_some ho
    obtain ⟨_, he⟩ := updateEntry_ok h
    have ht := tree_setEntry_same tree { old with deletedAt := some now } hl rfl rfl rfl
    refine ⟨old, _, hl, hw, hd, rfl, ht, he ▸ sync_trash (by simp) ht ?_ rfl⟩
    simp [hd]

-- The writes after which the trigger recomputes the flags below the row.
structure Rebased (v v' : View) (id : Id) (new : Entry) : Prop where
  tree   : Tree (v.setEntry id (some new)).entries
  active : new.deletedAt = none
  synced : ∃ flag : Id → Bool,
    (∀ x, Above (parentOf (v.setEntry id (some new)).entries) x id → (flag x = true ↔
      ∃ z, Above (parentOf (v.setEntry id (some new)).entries) x z ∧
        Ancestor (parentOf (v.setEntry id (some new)).entries) z id ∧
        Trashed (v.setEntry id (some new)).entries z)) ∧
    Synced (v.setEntry id (some new)) v' id new
      (parentHidden (v.setEntry id (some new)) new.parentId)
      (fun x => Above (parentOf (v.setEntry id (some new)).entries) x id) flag

theorem insertEntry_rebased (tree : Tree v.entries) (hd : new.deletedAt = none)
    (h : insertEntry v id new = .ok v') :
    v.entries.lookup id = none ∧ validateDriveEntryParent v id new = .ok () ∧
      Rebased v v' id new := by
  obtain ⟨hn, hv, he⟩ := insertEntry_ok h
  have ht := tree_setEntry_guarded tree hv (by simp [hn])
  exact ⟨hn, hv, ht, hd, he ▸ sync_live (by simp) ht (by simp) hd⟩

theorem clearDeletedAt_ok (tree : Tree v.entries) (h : clearDeletedAt v owner id = .ok v') :
    ∃ old new, v.entries.lookup id = some old ∧ old.ownerId = owner ∧ old.deletedAt.isSome ∧
      new = { old with deletedAt := none } ∧ Rebased v v' id new := by
  simp only [clearDeletedAt] at h
  split at h <;> try contradiction
  case _ old ho =>
    obtain ⟨hl, hw, hd⟩ := trashedRow_eq_some ho
    obtain ⟨_, he⟩ := updateEntry_ok h
    have ht := tree_setEntry_same tree { old with deletedAt := none } hl rfl rfl rfl
    refine ⟨old, _, hl, hw, hd, rfl, ht, rfl, he ▸ sync_live (by simp) ht ?_ rfl⟩
    simpa [Option.isSome_iff_ne_none] using hd

theorem updateParent_ok {parent : Option Id} (tree : Tree v.entries)
    (h : updateParent v owner id parent = .ok v') :
    ∃ old new, v.entries.lookup id = some old ∧ old.ownerId = owner ∧ old.deletedAt = none ∧
      new = { old with parentId := parent } ∧ validateDriveEntryParent v id new = .ok () ∧
      Tree (v.setEntry id (some new)).entries ∧
      (old.parentId = parent ∧
        Synced (v.setEntry id (some new)) v' id new
          ((v.index.lookup id).elim false (·.buried)) (fun _ => False) (fun _ => false) ∨
        old.parentId ≠ parent ∧ Rebased v v' id new) := by
  simp only [updateParent] at h
  split at h <;> try contradiction
  case _ old ho =>
    obtain ⟨hl, hw, hd⟩ := activeRow_eq_some ho
    obtain ⟨hv, he⟩ := updateEntry_ok h
    have ht := tree_setEntry_guarded tree (hv rfl) fun _ h => by cases hl.symm.trans h; simp
    refine ⟨old, _, hl, hw, hd, rfl, hv rfl, ht, ?_⟩
    by_cases hp : old.parentId = parent
    case pos => exact .inl ⟨hp, he ▸ sync_same (by simp) hp rfl⟩
    case neg => exact .inr ⟨hp, ht, hd, he ▸ sync_live (by simp) ht (by simp [hp]) hd⟩

end MyDrive.Drive
