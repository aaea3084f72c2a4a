import MyDrive.Drive.Theorems.Requests

namespace MyDrive.Drive

variable {v v' : View} {id owner : Id} {now : Time} {parent : Option Id}

theorem ensureActiveEntry_error {entries : Table Id Entry} {requireFolder : Bool}
    (h : ensureActiveEntry entries owner id requireFolder ≠ .ok ()) :
    ensureActiveEntry entries owner id requireFolder = .error .notFound := by
  simp only [ensureActiveEntry] at h ⊢
  split at h
  case isTrue       => exact absurd rfl h
  case isFalse none => exact if_neg none

theorem ensureActiveParent_error (h : ensureActiveParent v owner parent ≠ .ok ()) :
    ensureActiveParent v owner parent = .error .notFound := by
  cases parent
  case none   => exact absurd rfl h
  case some p => exact ensureActiveEntry_error h

-- Below a trashed entry, `ensure_active_entry` finds nothing.
theorem ensureActiveEntry_buried (linked : Linked v.entries) (h : Buried v.entries id) :
    ensureActiveEntry v.entries owner id false = .error .notFound := by
  apply ensureActiveEntry_error
  intro hx
  obtain ⟨-, -, -, -, ha⟩ := (ensureActiveEntry_iff linked).mp hx
  exact (active_iff.mp ha).right h

-- Elsewhere, whatever `ensure_active_entry` does not find, `ensure_mutable_entry` does not find either.
theorem ensureMutableEntry_of_inactive (linked : Linked v.entries) (clear : ¬Buried v.entries id)
    (h : ensureActiveEntry v.entries owner id false ≠ .ok ()) :
    ensureMutableEntry v.entries owner id = .error .notFound := by
  unfold ensureMutableEntry
  split
  case h_2        => rfl
  case h_1 e hx =>
    obtain ⟨hx, he⟩ := Option.filter_eq_some_iff.mp hx
    simp only [Bool.and_eq_true, decide_eq_true_eq, Option.isNone_iff_eq_none] at he
    have active : Active v.entries id := active_iff.mpr ⟨by simp [trashed_iff hx, he.right], clear⟩
    exact absurd ((ensureActiveEntry_iff linked).mpr ⟨e, hx, he.left, by simp, active⟩) h

theorem ensureMutableEntry_of_active (linked : Linked v.entries)
    (h : ensureActiveEntry v.entries owner id false = .ok ()) :
    ensureMutableEntry v.entries owner id ≠ .error .notFound := by
  obtain ⟨e, hx, ho, -, ha⟩ := (ensureActiveEntry_iff linked).mp h
  have hd : e.deletedAt = none := by simpa [trashed_iff hx] using (active_iff.mp ha).left
  have row : (v.entries.lookup id).filter (fun e => e.ownerId = owner && e.deletedAt.isNone) = some e :=
    Option.filter_eq_some_iff.mpr ⟨hx, by simp [ho, hd]⟩
  unfold ensureMutableEntry
  rw [row]
  by_cases hs : e.systemRole.isSome <;> simp [hs]

theorem ensureMutableEntry_error {e : DriveError} (h : ensureMutableEntry v.entries owner id = .error e) :
    e = .protectedEntry ∨ e = .notFound := by
  unfold ensureMutableEntry at h
  split at h
  case h_2 => cases h; exact .inr rfl
  case h_1 =>
    split at h
    case isTrue  => cases h; exact .inl rfl
    case isFalse => cases h

variable [Collation]

theorem batchTrash_singleton : batchTrash v owner [id] now = trashOwnedEntry v owner id now := by
  change (trashOwnedEntry v owner id now >>= pure) = trashOwnedEntry v owner id now
  exact bind_pure _

theorem batchMove_of_inactive (h : ensureActiveParent v owner parent ≠ .ok ()) :
    batchMove v owner [id] parent = .error .notFound := by
  simp [batchMove, ensureActiveParent_error h, maxBatchEntries]
  rfl

theorem batchMove_self (h : ensureActiveParent v owner (some id) = .ok ()) :
    batchMove v owner [id] (some id) = .error .badRequest := by
  simp [batchMove, h, maxBatchEntries]
  rfl

theorem batchMove_singleton (h : ensureActiveParent v owner parent = .ok ()) (hn : parent ≠ some id) :
    batchMove v owner [id] parent = moveOwnedEntry owner parent v id := by
  have outside : (parent.any fun p => p = id) = false := by
    cases parent
    case none   => rfl
    case some p => simpa using hn
  simp [batchMove, h, outside, maxBatchEntries]
  rfl

theorem moveEntry_of_active (ha : ensureActiveEntry v.entries owner id false = .ok ())
    (hp : ensureActiveParent v owner parent = .ok ()) :
    moveEntry v owner id parent = moveOwnedEntry owner parent v id := by
  simp [moveEntry, moveOwnedEntry, ha, hp]
  rfl

theorem moveEntry_of_inactive (h : ensureActiveEntry v.entries owner id false ≠ .ok ()) :
    moveEntry v owner id parent = .error .notFound := by
  simp [moveEntry, ensureActiveEntry_error h]
  rfl

theorem trashEntry_of_inactive (h : ensureActiveEntry v.entries owner id false ≠ .ok ()) :
    trashEntry v owner id now = .error .notFound := by
  simp [trashEntry, ensureActiveEntry_error h]
  rfl

theorem moveOwnedEntry_immutable {e : DriveError} (h : ensureMutableEntry v.entries owner id = .error e) :
    moveOwnedEntry owner parent v id = .error e := by
  simp [moveOwnedEntry, h]
  rfl

theorem moveEntry_immutable {e : DriveError} (ha : ensureActiveEntry v.entries owner id false = .ok ())
    (h : ensureMutableEntry v.entries owner id = .error e) :
    moveEntry v owner id parent = .error e := by
  simp [moveEntry, ha, h]
  rfl

-- The target is checked before the entry in a batch, and after it in the other request.
theorem moveEntry_of_inactive_target (ha : ensureActiveEntry v.entries owner id false = .ok ())
    (hm : ensureMutableEntry v.entries owner id = .ok ())
    (hp : ensureActiveParent v owner parent ≠ .ok ()) :
    moveEntry v owner id parent = .error .notFound := by
  simp [moveEntry, ha, hm, ensureActiveParent_error hp]
  rfl

theorem moveEntry_self (ha : ensureActiveEntry v.entries owner id false = .ok ())
    (hm : ensureMutableEntry v.entries owner id = .ok ())
    (hp : ensureActiveParent v owner (some id) = .ok ()) :
    moveEntry v owner id (some id) = .error .conflict := by
  simp [moveEntry, ha, hm, hp]
  rfl

-- Where the two requests refuse for different reasons.
def Differs (v : View) (owner id : Id) (parent : Option Id) : Prop :=
  (parent = some id ∧ ensureActiveParent v owner parent = .ok ()) ∨
  (ensureMutableEntry v.entries owner id = .error .protectedEntry ∧
    ensureActiveParent v owner parent ≠ .ok ())

theorem batchMove_eq_moveEntry (linked : Linked v.entries) (clear : ¬Buried v.entries id)
    (h : ¬Differs v owner id parent) : batchMove v owner [id] parent = moveEntry v owner id parent := by
  by_cases hp : ensureActiveParent v owner parent = .ok ()
  case pos =>
    rw [batchMove_singleton hp fun hs => h (.inl ⟨hs, hp⟩)]
    by_cases ha : ensureActiveEntry v.entries owner id false = .ok ()
    case pos => exact (moveEntry_of_active ha hp).symm
    case neg =>
      rw [moveOwnedEntry_immutable (ensureMutableEntry_of_inactive linked clear ha),
        moveEntry_of_inactive ha]
  case neg =>
    rw [batchMove_of_inactive hp]
    by_cases ha : ensureActiveEntry v.entries owner id false = .ok ()
    case neg => exact (moveEntry_of_inactive ha).symm
    case pos =>
      cases hm : ensureMutableEntry v.entries owner id
      case ok      => exact (moveEntry_of_inactive_target ha hm hp).symm
      case error e =>
        obtain rfl | rfl := ensureMutableEntry_error hm
        case inl => exact absurd (.inr ⟨hm, hp⟩) h
        case inr => exact (moveEntry_immutable ha hm).symm

-- The refusals where the two requests differ.
theorem refused_of_differs (linked : Linked v.entries) (clear : ¬Buried v.entries id)
    (h : Differs v owner id parent) :
    (batchMove v owner [id] parent = .error .badRequest ∧
      (moveEntry v owner id parent = .error .conflict ∨
        moveEntry v owner id parent = .error .protectedEntry)) ∨
    (batchMove v owner [id] parent = .error .notFound ∧
      moveEntry v owner id parent = .error .protectedEntry) := by
  obtain ⟨rfl, hp⟩ | ⟨hm, hp⟩ := h
  case inl =>
    refine .inl ⟨batchMove_self hp, ?_⟩
    have ha : ensureActiveEntry v.entries owner id false = .ok () := by
      obtain ⟨e, hx, ho, -, active⟩ := (ensureActiveEntry_iff linked).mp hp
      exact (ensureActiveEntry_iff linked).mpr ⟨e, hx, ho, by simp, active⟩
    cases hm : ensureMutableEntry v.entries owner id
    case ok      => exact .inl (moveEntry_self ha hm hp)
    case error e =>
      obtain rfl | rfl := ensureMutableEntry_error hm
      case inl => exact .inr (moveEntry_immutable ha hm)
      case inr => exact absurd hm (ensureMutableEntry_of_active linked ha)
  case inr =>
    refine .inr ⟨batchMove_of_inactive hp, ?_⟩
    by_cases ha : ensureActiveEntry v.entries owner id false = .ok ()
    case pos => exact moveEntry_immutable ha hm
    case neg => cases hm.symm.trans (ensureMutableEntry_of_inactive linked clear ha)

theorem batch_single (linked : Linked v.entries) :
    (Buried v.entries id → trashEntry v owner id now = .error .notFound ∧
      moveEntry v owner id parent = .error .notFound) ∧
    (¬Buried v.entries id →
      batchTrash v owner [id] now = trashEntry v owner id now ∧
      (∀ v', batchMove v owner [id] parent = .ok v' ↔ moveEntry v owner id parent = .ok v') ∧
      (¬Differs v owner id parent →
        batchMove v owner [id] parent = moveEntry v owner id parent)) := by
  constructor
  case left =>
    intro buried
    have inactive : ensureActiveEntry v.entries owner id false ≠ .ok () := by
      simp [ensureActiveEntry_buried linked buried]
    exact ⟨trashEntry_of_inactive inactive, moveEntry_of_inactive inactive⟩
  case right =>
    intro clear
    refine ⟨?trash, fun v' => ?succeeds, batchMove_eq_moveEntry linked clear⟩
    case trash =>
      rw [batchTrash_singleton]
      by_cases ha : ensureActiveEntry v.entries owner id false = .ok ()
      case pos => simp [trashEntry, ha]; rfl
      case neg =>
        rw [trashEntry_of_inactive ha]
        simp [trashOwnedEntry, ensureMutableEntry_of_inactive linked clear ha]
        rfl
    case succeeds =>
      by_cases h : Differs v owner id parent
      case neg => rw [batchMove_eq_moveEntry linked clear h]
      case pos =>
        obtain ⟨hb, hm | hm⟩ | ⟨hb, hm⟩ := refused_of_differs linked clear h <;> simp [hb, hm]

end MyDrive.Drive

namespace MyDrive.Drive

-- The folder 1 is trashed, with the folder 2 in it.
def tripTrashed : View where
  base := {
    entries := photosInTrip.set 1
      { ownerId := 7, parentId := none, kind := .folder, name := "trip", deletedAt := some 3 }
    index   := .empty }

theorem batch_single_fails :
    let _ := Collation.binary
    trashEntry tripTrashed 7 2 5 = .error .notFound ∧
    (batchTrash tripTrashed 7 [2] 5).isOk ∧
    moveEntry tripTrashed 7 2 none = .error .notFound ∧
    (batchMove tripTrashed 7 [2] none).isOk ∧
    moveEntry { base := { entries := photosInTrip, index := .empty } } 7 1 (some 1) = .error .conflict ∧
    batchMove { base := { entries := photosInTrip, index := .empty } } 7 [1] (some 1) =
      .error .badRequest :=
  ⟨rfl, rfl, rfl, rfl, rfl, rfl⟩

theorem batch_single_trip :
    let _ := Collation.binary
    let v : View := { base := { entries := photosInTrip, index := .empty } }
    ¬Buried v.entries 2 ∧
    batchTrash v 7 [2] 5 = trashEntry v 7 2 5 ∧
    batchMove v 7 [2] none = moveEntry v 7 2 none := by
  intro _ v
  have clear : ¬Buried v.entries 2 := by
    have active : ensureActiveEntry v.entries 7 2 false = .ok () := rfl
    obtain ⟨-, -, -, -, ha⟩ := (ensureActiveEntry_iff photosInTrip_tree.linked).mp active
    exact (active_iff.mp ha).right
  obtain ⟨trash, -, move⟩ := (batch_single (v := v) photosInTrip_tree.linked).right clear
  refine ⟨clear, trash, move ?_⟩
  rintro (⟨h, -⟩ | ⟨-, h⟩)
  case inl => cases h
  case inr => exact h rfl

end MyDrive.Drive
