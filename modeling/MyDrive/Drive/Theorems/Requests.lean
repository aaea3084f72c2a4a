import MyDrive.Library.Except
import MyDrive.Drive.Requests
import MyDrive.Drive.Theorems.Statements
import MyDrive.Drive.Theorems.Index

open Forest

namespace MyDrive.Drive

-- Neither the entry nor any of its ancestors is trashed.
def Active (entries : Table Id Entry) (x : Id) : Prop :=
  ∀ y, Ancestor (parentOf entries) x y → ¬Trashed entries y

theorem active_iff {entries : Table Id Entry} {x : Id} :
    Active entries x ↔ ¬Trashed entries x ∧ ¬Buried entries x := by
  simp only [Active, Buried, ancestor_iff_eq_or_above]
  grind

theorem ensureActiveEntry_iff {entries : Table Id Entry} {owner x : Id} {requireFolder : Bool}
    (linked : Linked entries) :
    ensureActiveEntry entries owner x requireFolder = .ok () ↔
      ∃ e, entries.lookup x = some e ∧ e.ownerId = owner ∧
        (requireFolder = true → e.kind = .folder) ∧ Active entries x := by
  simp only [ensureActiveEntry]
  split
  case isTrue h =>
    simp only [Bool.and_eq_true, Bool.not_eq_true', List.any_eq_true, List.any_eq_false,
      decide_eq_true_eq, Prod.exists, Prod.forall] at h
    obtain ⟨⟨y, e, hm, ⟨hy, _⟩, hk⟩, ht⟩ := h
    subst hy
    obtain ⟨hx, ho⟩ := lookup_of_mem_chain hm
    have ho : e.ownerId = owner := by simpa using ho
    have hc {y f} := linked.mem_parentChain_iff (y := y) (f := f) hx ho
    refine iff_of_true rfl ⟨e, hx, ho, by simpa [or_iff_not_imp_left] using hk, ?_⟩
    rintro z hz ⟨f, hf, hd⟩
    exact ht z f (hc.mpr ⟨hz, hf⟩) hd
  case isFalse h =>
    refine iff_of_false (by simp) ?_
    rintro ⟨e, hx, ho, hk, ha⟩
    refine h ?_
    have hc {y f} := linked.mem_parentChain_iff (y := y) (f := f) hx ho
    have hd : e.deletedAt = none := by
      simpa [trashed_iff hx] using ha x (.refl _)
    simp only [Bool.and_eq_true, Bool.not_eq_true', List.any_eq_true, List.any_eq_false,
      decide_eq_true_eq, Prod.exists, Prod.forall]
    refine ⟨⟨x, e, hc.mpr ⟨.refl _, hx⟩, ⟨rfl, by simp [hd]⟩, ?_⟩, fun z f hm hs => ?_⟩
    case refine_1 => simpa [or_iff_not_imp_left] using hk
    case refine_2 => obtain ⟨hz, hf⟩ := hc.mp hm; exact ha z hz ⟨f, hf, hs⟩

-- The state of `drive_entries` and of its index that every request finds and leaves.
structure Sound (v : View) : Prop where
  tree   : Tree v.entries
  agrees : Agrees v.entries v.index

variable {v v' : View} {id owner : Id} {old new : Entry}

theorem Active.not_buried_setEntry (tree : Tree (v.setEntry id (some new)).entries)
    (ha : ∀ p, new.parentId = some p → Active v.entries p) :
    ¬Buried (v.setEntry id (some new)).entries id := by
  rintro ⟨z, ⟨p, hp, hz⟩, ht⟩
  have hn := not_ancestor_of_parent tree.wf hp
  have he (y) (h : y ≠ id) : (v.setEntry id (some new)).entries.lookup y = v.entries.lookup y := by
    simp [h]
  have hp : new.parentId = some p := by simpa [parentOf] using hp
  have hzi : z ≠ id := fun h => hn (h ▸ hz)
  refine ha p hp z ?_ (trashed_congr he hzi |>.mp ht)
  exact ancestor_iff_of_not (parentOf_congr he) (not_ancestor_congr he hn) |>.mp hz

namespace Sound

variable (sound : Sound v)
include sound

theorem index_row {x : Id} {e : Entry} (h : v.entries.lookup x = some e) :
    ∃ r, v.index.lookup x = some r ∧
      ((r.deletedAt = none ∧ r.buried = false) ↔ Active v.entries x) := by
  obtain ⟨r, hr, hd, hb⟩ := sound.agrees x e h
  refine ⟨r, hr, ?_⟩
  rw [active_iff, trashed_iff h, hd]
  cases hd : e.deletedAt
  case none => simp [← hb hd]
  case some => simp

theorem of_synced_same {flag : Id → Bool} (ho : v.entries.lookup id = some old)
    (ht : Tree (v.setEntry id (some new)).entries)
    (hp : new.parentId = old.parentId) (hd : new.deletedAt = old.deletedAt)
    (s : Synced (v.setEntry id (some new)) v' id new
      ((v.index.lookup id).elim false (·.buried)) (fun _ => False) flag) : Sound v' where
  tree   := s.view_entries ▸ ht
  agrees := by
    rw [s.view_entries]
    exact sound.agrees.rename (fun _ => View.lookup_setEntry) ho hp hd s.resynced

theorem of_rebased (r : Rebased v v' id new)
    (hc : ¬Buried (v.setEntry id (some new)).entries id ∨
      ∀ c, parentOf (v.setEntry id (some new)).entries c = some id →
        Trashed (v.setEntry id (some new)).entries c) : Sound v' := by
  obtain ⟨flag, hf, s⟩ := r.synced
  refine ⟨s.view_entries ▸ r.tree, ?_⟩
  rw [s.view_entries]
  refine sound.agrees.live (fun _ => View.lookup_setEntry) ?_ hf hc s.resynced
  exact sound.agrees.parentHidden_iff r.tree (by simp) (by simp +contextual) (by simp)

theorem deleteEntry (h : deleteEntry v id = .ok v') : Sound v' := by
  obtain ⟨hc, he⟩ := deleteEntry_ok h
  have hl (y) : v'.entries.lookup y = if y = id then none else v.entries.lookup y := by
    simp [he]
  refine ⟨sound.tree.erase hl hc, fun x e hx => ?_⟩
  rw [hl] at hx
  split at hx
  case isTrue => contradiction
  case isFalse hn =>
    obtain ⟨r, hr, hrd, hb⟩ := sound.agrees x e hx
    have above : ¬Ancestor (parentOf v.entries) x id := by
      intro ha
      cases Relation.ReflTransGen.cases_tail ha
      case inl h => exact hn h.symm
      case inr h =>
        obtain ⟨c, _, hcp⟩ := h
        obtain ⟨g, hg, hgp⟩ := lookup_of_parentOf hcp
        exact hc c g hg hgp
    refine ⟨r, by simpa [he, hn] using hr, hrd, fun hd => ?_⟩
    rw [buried_congr (fun y h => by simp [hl, h]) above]
    exact hb hd

theorem active_of_ensureActiveParent {parent : Option Id}
    (h : ensureActiveParent v owner parent = .ok ()) {p : Id} (hp : parent = some p) :
    Active v.entries p := by
  cases hp
  obtain ⟨_, _, _, _, ha⟩ := ensureActiveEntry_iff sound.tree.linked |>.mp h
  exact ha

theorem purgeOneTrashRoot (h : purgeOneTrashRoot v owner id = .ok v') : Sound v' := by
  simp only [Drive.purgeOneTrashRoot] at h
  split at h
  case h_1 => cases h; exact sound
  case h_2 => exact Except.foldlM_invariant h sound fun _ _ _ _ sound h => sound.deleteEntry h

variable [Collation]

theorem updateName {name : String} (h : updateName v owner id name = .ok v') : Sound v' := by
  obtain ⟨old, ho, _, _, s⟩ := updateName_ok h
  have ht := tree_setEntry_same sound.tree { old with name } ho rfl rfl rfl
  exact sound.of_synced_same ho ht rfl rfl s

theorem setDeletedAt {now : Time} (h : setDeletedAt v owner id now = .ok v') : Sound v' := by
  obtain ⟨old, new, _, _, _, hn, ht, s⟩ := setDeletedAt_ok sound.tree h
  refine ⟨s.view_entries ▸ ht, ?_⟩
  rw [s.view_entries]
  exact sound.agrees.trash (fun _ => View.lookup_setEntry) (hn ▸ rfl) s.resynced

theorem insertEntry (hd : new.deletedAt = none) (h : insertEntry v id new = .ok v') :
    Sound v' := by
  obtain ⟨hn, _, r⟩ := insertEntry_rebased sound.tree hd h
  refine sound.of_rebased r (.inr fun c hc => ?_)
  obtain ⟨e, he, hp⟩ := lookup_of_parentOf hc
  have hci : c ≠ id := fun h => not_ancestor_of_parent r.tree.wf hc (h ▸ .refl _)
  rw [View.lookup_setEntry, if_neg hci] at he
  obtain ⟨f, hf, _⟩ := sound.tree.parent he hp
  cases hn.symm.trans hf

theorem clearDeletedAt (ha : ∀ e p, v.entries.lookup id = some e → e.parentId = some p →
    Active v.entries p) (h : clearDeletedAt v owner id = .ok v') : Sound v' := by
  obtain ⟨old, new, ho, _, _, hn, r⟩ := clearDeletedAt_ok sound.tree h
  refine sound.of_rebased r (.inl ?_)
  exact Active.not_buried_setEntry r.tree fun p hp => ha old p ho (by simpa [hn] using hp)

theorem updateParent {parent : Option Id} (ha : ∀ p, parent = some p → Active v.entries p)
    (h : updateParent v owner id parent = .ok v') : Sound v' := by
  obtain ⟨old, new, ho, _, _, hn, _, ht, hs⟩ := updateParent_ok sound.tree h
  cases hs
  case inl hs => exact sound.of_synced_same ho ht (by simp [hn, hs.left]) (by simp [hn]) hs.right
  case inr hs =>
    refine sound.of_rebased hs.right (.inl ?_)
    exact Active.not_buried_setEntry ht fun p hp => ha p (by simpa [hn] using hp)

theorem createEntry {kind : Kind} {name : String} {parent : Option Id}
    (h : createEntry v owner id kind name parent = .ok v') : Sound v' := by
  simp only [Drive.createEntry, Except.bind_eq_ok_iff] at h
  obtain ⟨_, _, _, _, h⟩ := h
  exact sound.insertEntry rfl h

theorem renameEntry {name : String} (h : renameEntry v owner id name = .ok v') : Sound v' := by
  simp only [Drive.renameEntry, Except.bind_eq_ok_iff] at h
  obtain ⟨_, _, _, _, _, _, h⟩ := h
  exact sound.updateName h

theorem moveEntry {parent : Option Id} (h : moveEntry v owner id parent = .ok v') : Sound v' := by
  simp only [Drive.moveEntry, Except.ite_throw_eq_ok_iff, Except.bind_eq_ok_iff] at h
  obtain ⟨_, _, _, _, _, hp, _, h⟩ := h
  exact sound.updateParent (fun _ => sound.active_of_ensureActiveParent hp) h

theorem trashOwnedEntry {now : Time} (h : trashOwnedEntry v owner id now = .ok v') :
    Sound v' := by
  simp only [Drive.trashOwnedEntry, Except.bind_eq_ok_iff] at h
  obtain ⟨_, _, h⟩ := h
  exact sound.setDeletedAt h

theorem trashEntry {now : Time} (h : trashEntry v owner id now = .ok v') : Sound v' := by
  simp only [Drive.trashEntry, Except.bind_eq_ok_iff] at h
  obtain ⟨_, _, h⟩ := h
  exact sound.trashOwnedEntry h

theorem restoreEntry (h : restoreEntry v owner id = .ok v') : Sound v' := by
  simp only [Drive.restoreEntry] at h
  split at h
  case h_1 => contradiction
  case h_2 e ht =>
    obtain ⟨he, _, _⟩ := trashedRow_eq_some ht
    obtain ⟨_, hp, h⟩ := Except.bind_eq_ok_iff.mp h
    refine sound.clearDeletedAt (fun f p hf hfp => ?_) h
    cases he.symm.trans hf
    exact sound.active_of_ensureActiveParent hp hfp

theorem batchTrash {ids : List Id} {now : Time} (h : batchTrash v owner ids now = .ok v') :
    Sound v' := by
  simp only [Drive.batchTrash, Except.ite_throw_eq_ok_iff] at h
  obtain ⟨_, h⟩ := h
  exact Except.foldlM_invariant h sound fun _ _ _ _ sound h => sound.trashOwnedEntry h

-- A move within a batch does not hide the target folder, which lies outside the moved entry.
theorem moveOwnedEntry {parent : Option Id} (ha : ∀ p, parent = some p → Active v.entries p)
    (h : moveOwnedEntry owner parent v id = .ok v') :
    Sound v' ∧ ∀ p, parent = some p → Active v'.entries p := by
  simp only [Drive.moveOwnedEntry, Except.ite_throw_eq_ok_iff, Except.bind_eq_ok_iff] at h
  obtain ⟨_, _, _, h⟩ := h
  refine ⟨sound.updateParent ha h, fun p hp => ?_⟩
  obtain ⟨old, new, ho, _, hd, hn, hv, ht, hs⟩ := updateParent_ok sound.tree h
  have he : v'.entries = (v.setEntry id (some new)).entries := by
    cases hs
    case inl hs => exact hs.right.view_entries
    case inr hs => obtain ⟨_, _, s⟩ := hs.right.synced; exact s.view_entries
  have hna := not_ancestor_of_validate sound.tree hv (by simp [ho, hn]) (p := p) (by simp [hn, hp])
  have hl (y) (h : y ≠ id) : (v.setEntry id (some new)).entries.lookup y = v.entries.lookup y := by
    simp [h]
  intro z hz
  rw [he, ancestor_iff_of_not (parentOf_congr hl) hna] at hz
  rw [he, trashed_congr hl fun h => hna (h ▸ hz)]
  exact ha p hp z hz

theorem batchMove {ids : List Id} {parent : Option Id}
    (h : batchMove v owner ids parent = .ok v') : Sound v' := by
  simp only [Drive.batchMove, Except.ite_throw_eq_ok_iff, Except.bind_eq_ok_iff] at h
  obtain ⟨_, _, hp, _, h⟩ := h
  have hb : Sound v ∧ ∀ p, parent = some p → Active v.entries p :=
    ⟨sound, fun _ => sound.active_of_ensureActiveParent hp⟩
  have he := Except.foldlM_invariant (P := fun v => Sound v ∧ ∀ p, parent = some p → Active v.entries p)
    h hb fun _ _ _ _ hb h => hb.left.moveOwnedEntry hb.right h
  exact he.left

theorem copyOneEntry {job : CopyJob} {copied : Nat} {children : List CopyJob}
    (h : copyOneEntry v owner job id copied = .ok (v', children)) : Sound v' := by
  simp only [Drive.copyOneEntry, Except.ite_throw_eq_ok_iff, Except.bind_eq_ok_iff] at h
  obtain ⟨_, _, _, _, _, _, w, hw, h⟩ := h
  cases h
  exact sound.insertEntry rfl hw

theorem copyEntries {copied : Nat} {fresh : List Id} {jobs : List CopyJob}
    (h : copyEntries owner v copied fresh jobs = .ok v') : Sound v' := by
  induction fresh generalizing v copied jobs
  case nil =>
    cases jobs <;> cases h
    exact sound
  case cons id fresh ih =>
    cases jobs
    case nil => cases h; exact sound
    case cons job jobs =>
      obtain ⟨_, hc, h⟩ := Except.bind_eq_ok_iff.mp h
      exact ih (sound.copyOneEntry hc) h

theorem batchCopy {ids fresh : List Id} {parent : Option Id}
    (h : batchCopy v owner ids parent fresh = .ok v') : Sound v' := by
  simp only [Drive.batchCopy, Except.ite_throw_eq_ok_iff, Except.bind_eq_ok_iff] at h
  obtain ⟨_, _, _, _, h⟩ := h
  exact sound.copyEntries h

theorem handle {r : Request} (h : handle v owner r = .ok v') : Sound v' := by
  cases r
  case createFolder => exact sound.createEntry h
  case createFile   => exact sound.createEntry h
  case rename       => exact sound.renameEntry h
  case move         => exact sound.moveEntry h
  case trash        => exact sound.trashEntry h
  case restore      => exact sound.restoreEntry h
  case purge        => exact sound.purgeOneTrashRoot h
  case batchMove    => exact sound.batchMove h
  case batchTrash   => exact sound.batchTrash h
  case batchCopy    => exact sound.batchCopy h

end Sound

section

variable [Collation] {db : Db}

theorem Sound.serve {r : Request} (sound : Sound { base := db }) :
    Sound { base := db.serve owner r } := by
  simp only [Db.serve]
  split
  case h_1 v h =>
    have hs := sound.handle h
    exact ⟨hs.tree, hs.agrees⟩
  case h_2 => exact sound

theorem Sound.serveAll {rs : List (Id × Request)} (sound : Sound { base := db }) :
    Sound { base := db.serveAll rs } := by
  induction rs generalizing db
  case nil          => exact sound
  case cons r rs ih => exact ih sound.serve

-- Whatever the tree that migration 0011 finds and whatever requests follow, the index row of an
-- entry tells whether the entry is active.
theorem index_row_active_iff {entries : Table Id Entry} (tree : Tree entries)
    (rs : List (Id × Request)) {x : Id} {e : Entry}
    (h : ((backfillIndex entries).commit.serveAll rs).entries.lookup x = some e) :
    ∃ r, ((backfillIndex entries).commit.serveAll rs).index.lookup x = some r ∧
      ((r.deletedAt = none ∧ r.buried = false) ↔
        Active ((backfillIndex entries).commit.serveAll rs).entries x) ∧
      ((r.deletedAt = none ∧ r.buried = false) ↔
        ensureActiveEntry ((backfillIndex entries).commit.serveAll rs).entries e.ownerId x false =
          .ok ()) := by
  have start : Sound { base := (backfillIndex entries).commit } := by
    have ht : Tree (backfillIndex entries).entries := backfillIndex_entries.symm ▸ tree
    have ha := backfillIndex_agrees tree
    exact ⟨ht, backfillIndex_entries.symm ▸ ha⟩
  have sound : Sound { base := (backfillIndex entries).commit.serveAll rs } := start.serveAll
  obtain ⟨r, hr, active⟩ := sound.index_row h
  refine ⟨r, hr, active, active.trans ?_⟩
  refine Iff.trans ?_ (ensureActiveEntry_iff sound.tree.linked).symm
  refine ⟨fun ha => ⟨e, h, rfl, by simp, ha⟩, ?_⟩
  rintro ⟨_, _, _, _, ha⟩
  exact ha

end

def photosInTrip : Table Id Entry :=
  (Table.empty.set 1 { ownerId := 7, parentId := none, kind := .folder, name := "trip" }).set 2
    { ownerId := 7, parentId := some 1, kind := .folder, name := "photos" }

theorem photosInTrip_tree : Tree photosInTrip := by
  have trip : Tree (Table.empty.set 1
      { ownerId := 7, parentId := none, kind := .folder, name := "trip" }) :=
    Tree.empty.set (fun _ => Table.lookup_set) (by simp) (by simp)
  refine trip.set (fun _ => Table.lookup_set) (by simp) fun p hp => ?_
  cases hp
  refine ⟨fun ha => ?_, _, rfl, rfl, rfl⟩
  cases ha.eq_of_root rfl

theorem index_row_active_iff_photosInTrip :
    let _ := Collation.binary
    let rs := [(7, .trash 1 5), (7, .restore 1)]
    ∃ r, ((backfillIndex photosInTrip).commit.serveAll rs).index.lookup 2 = some r ∧
      ((r.deletedAt = none ∧ r.buried = false) ↔
        Active ((backfillIndex photosInTrip).commit.serveAll rs).entries 2) ∧
      ((r.deletedAt = none ∧ r.buried = false) ↔
        ensureActiveEntry ((backfillIndex photosInTrip).commit.serveAll rs).entries 7 2 false =
          .ok ()) := by
  intro _ rs
  have h : ((backfillIndex photosInTrip).commit.serveAll rs).entries.lookup 2 =
      some { ownerId := 7, parentId := some 1, kind := .folder, name := "photos" } := by
    decide +kernel
  have hr := index_row_active_iff photosInTrip_tree rs h
  exact hr

end MyDrive.Drive
