import MyDrive.Google.Theorems.System

-- Who finishes an object that a file already refers to while its bytes are not there.

namespace MyDrive.Transfers.Store

-- An object that is to be finished or abandoned.
def Waiting (s : Store) (o : Id) : Prop :=
  (∃ y, s.objects.lookup o = some y ∧ y.state = .pending) ∧ s.referenced o

-- No upload drops an object that is still waited for.
def Attends (s s' : Store) : Prop :=
  ∀ o, s'.Waiting o → s'.finalizing o ∨ s.Waiting o ∧ s.finalizing o = false

variable {s s' : Store} {u o : Id} {x : Session}

theorem Attends.of_rows (ho : s'.objects = s.objects) (hv : s'.versions = s.versions)
    (hx : s'.sessions = s.sessions) : s.Attends s' := by
  intro o hw
  have waiting : s.Waiting o := by simpa only [Waiting, referenced, ho, hv] using hw
  cases hf : s.finalizing o
  case true  => exact .inl (by simpa only [finalizing, hx] using hf)
  case false => exact .inr ⟨waiting, rfl⟩

-- An upload that has the object and keeps it.
theorem attends_of_kept (hw : s.Waiting o)
    (hk : ∀ {u x}, s.sessions.lookup u = some x → x.state = .finalizing → x.storageObjectId = some o →
      ∃ x', s'.sessions.lookup u = some x' ∧ x'.state = .finalizing ∧ x'.storageObjectId = some o) :
    s'.finalizing o ∨ s.Waiting o ∧ s.finalizing o = false := by
  cases hf : s.finalizing o
  case false => exact .inr ⟨hw, rfl⟩
  case true  =>
    obtain ⟨u, x, hx, ho, hs⟩ := finalizing_iff.mp hf
    obtain ⟨x', hx', hs', ho'⟩ := hk hx hs ho
    exact .inl (finalizing_iff.mpr ⟨u, x', hx', ho', hs'⟩)

theorem Attends.createUpload {session : Session} {bytes : List UInt8} (h : s.Proper)
    (hs : s.createUpload session bytes = some s') : s.Attends s' := by
  obtain ⟨y, -, -, -, -, rfl⟩ := createUpload_some hs
  intro o hw
  have waiting : s.Waiting o := hw
  apply attends_of_kept waiting
  intro u x hx hs ho
  have old : u ≠ s.next + 1 := Nat.ne_of_lt (Nat.lt_succ_of_lt (h.sessionIds hx))
  exact ⟨x, (Table.lookup_set.trans (if_neg old)).trans hx, hs, ho⟩

theorem Attends.reserve [Collation] {env : Env} {owner upload : Id}
    (hx : s.sessions.lookup upload = some x) (ha : x.state = .active)
    (hs : s.reserve env owner upload x = .ok s') : s.Attends s' := by
  obtain ⟨-, files, f, rfl, -⟩ := reserve_ok hs
  rintro o ⟨⟨y, hy, hp'⟩, hr⟩
  by_cases he : o = s.next
  case pos =>
    subst he
    left
    refine finalizing_iff.mpr ⟨upload, { x with
      state := .finalizing, storageObjectId := some s.next, finalFileId := some f }, ?_, rfl, rfl⟩
    simp [reservation, hx]
  case neg =>
    have row : s.objects.lookup o = some y := (Table.lookup_set.trans (if_neg he)).symm.trans hy
    have referenced : s.referenced o := by
      obtain ⟨v, w, hv, rfl⟩ := referenced_iff.mp hr
      simp only [reservation, Table.lookup_set] at hv
      split at hv
      case isTrue  => cases hv; exact absurd rfl he
      case isFalse => exact referenced_iff.mpr ⟨v, w, hv, rfl⟩
    apply attends_of_kept ⟨⟨y, row, hp'⟩, referenced⟩
    intro u z hz hs ho
    have other : u ≠ upload := by
      rintro rfl
      cases hx.symm.trans hz
      cases ha.symm.trans hs
    exact ⟨z, by simp [reservation, hz, other], hs, ho⟩

theorem Attends.complete {owner upload : Id} {t : Target} {checksum : String} {r : Option Id}
    (hs : s.complete owner upload t checksum = .ok (s', r)) : s.Attends s' := by
  obtain ⟨x, hx, ⟨-, rfl, -⟩ | ⟨-, -, hk, -, rfl⟩⟩ := complete_ok hs
  case inl => exact .of_rows rfl rfl rfl
  case inr =>
    rintro o ⟨⟨y, hy, hp⟩, hr⟩
    have hy : (s.readied t.objectId checksum).objects.lookup o = some y := hy
    have hr : (s.readied t.objectId checksum).referenced o := hr
    have other : o ≠ t.objectId := by
      rintro rfl
      obtain ⟨hn, he⟩ | ⟨z, -, -, he⟩ := readied_cases s t.objectId checksum <;> rw [he] at hy
      case inl => exact (hn y hy).left hp
      case inr =>
        cases (Table.lookup_set.trans (if_pos rfl)).symm.trans hy
        contradiction
    have row : s.objects.lookup o = some y := (object_readied other).symm.trans hy
    have referenced : s.referenced o := by
      obtain ⟨-, he⟩ | ⟨z, -, -, he⟩ := readied_cases s t.objectId checksum <;> rw [he] at hr <;>
        exact hr
    apply attends_of_kept ⟨⟨y, row, hp⟩, referenced⟩
    intro u z hz hs ho
    have hu : u ≠ upload := by
      rintro rfl
      cases hx.symm.trans hz
      exact other (Option.some.inj (ho.symm.trans hk))
    refine ⟨z, ?_, hs, ho⟩
    rw [lookup_updateSession, sessions_readied, hz, Option.map_some, if_neg hu]

-- An upload whose row goes with the file of a rejected one had a version of that file only.
theorem Attends.reject {row : Option Id} {owner upload : Id} {t : Target} (hc : s.Carried)
    (hb : s.Backed)
    (hs : s.rejectMismatchedUpload row owner upload t = some (.ok (some s'))) : s.Attends s' := by
  have deleted : s'.objects.lookup t.objectId = none := by
    obtain ⟨-, -, -, -, -, y, z, hz, rfl, -⟩ := rejectMismatchedUpload_ok hs
    obtain ⟨-, -, rfl⟩ := deleteObject_ok hz
    exact Table.lookup_erase.trans (if_pos rfl)
  have recedes : s.Recedes s' := .reject hs
  obtain ⟨x, hx, -, -, hk, r⟩ := rejects_of_reject hc hs
  rintro o ⟨⟨y, hy, hp⟩, hr⟩
  have other : o ≠ t.objectId := by
    rintro rfl
    cases deleted.symm.trans hy
  obtain ⟨v, w, hv, hw⟩ := referenced_iff.mp hr
  have waiting : s.Waiting o :=
    ⟨⟨y, (r.object other).symm.trans hy, hp⟩, referenced_iff.mpr ⟨v, w, recedes.version hv, hw⟩⟩
  apply attends_of_kept waiting
  intro u z hz hs ho
  have hu : u ≠ upload := by
    rintro rfl
    cases hx.symm.trans hz
    exact other (Option.some.inj (ho.symm.trans hk))
  obtain ⟨z', hz', hs', ho'⟩ | ⟨hf, gone⟩ := r.kept hz hs hu
  case inl => exact ⟨z', hz', hs', ho'.trans ho⟩
  case inr =>
    obtain ⟨-, hf'⟩ := hb.version hz hs ho (recedes.version hv) hw
    exact absurd (Option.some.inj (hf'.symm.trans hf)) (gone v w hv)

end MyDrive.Transfers.Store

namespace MyDrive.Transfers

theorem Finalize.Moves.attends [Collation] [Digest] {s s' : Store} {env : Env} {c : Finalize}
    {k : Option Finalize} (h : s.Regular) (m : c.Moves s env s' k) : s.Attends s' := by
  cases m
  case reserve hx _ ha hs => exact .reserve hx ha hs
  case complete hs        => exact .complete hs
  case index hs _         => exact fun o hw => Store.Attends.complete hs o hw
  case already hs         => exact fun o hw => Store.Attends.complete hs o hw
  case reject hs          => exact .reject h.carried h.backed hs
  all_goals exact .of_rows rfl rfl rfl

end MyDrive.Transfers

namespace MyDrive.Google

open Transfers Execution

-- A process that can be resumed.
inductive Owner
  | upload (id : Id)
  | item (id : Id)

namespace Rows

def Owns (s : Rows) (o : Id) : Owner → Prop
  | .upload u => ∃ x, s.store.sessions.lookup u = some x ∧ x.state = .finalizing ∧
    x.storageObjectId = some o
  | .item i   => ∃ x, s.items.lookup i = some x ∧ x.state = .committing ∧ x.storageObjectId = some o

def Guarded (s : Rows) : Prop :=
  ∀ o, s.store.Waiting o → ∃ w, s.Owns o w

-- The items that are being committed stay as they are.
def Stays (s s' : Rows) : Prop :=
  ∀ i x, s.items.lookup i = some x → x.state = .committing → s'.items.lookup i = some x

variable {s s' : Rows} {o id : Id}

theorem owns_of_finalizing (h : s.store.finalizing o) : ∃ w, s.Owns o w := by
  obtain ⟨u, x, hx, ho, hs⟩ := Store.finalizing_iff.mp h
  exact ⟨.upload u, x, hx, hs, ho⟩

theorem Guarded.attend (h : s.Guarded) (ha : s.store.Attends s'.store) (hs : s.Stays s') :
    s'.Guarded := by
  intro o hw
  obtain hf | ⟨hw, hf⟩ := ha o hw
  case inl => exact owns_of_finalizing hf
  case inr =>
    obtain ⟨w, hw⟩ := h o hw
    cases w
    case item i   =>
      obtain ⟨x, hx, hc, ho⟩ := hw
      exact ⟨.item i, x, hs i x hx hc, hc, ho⟩
    case upload u =>
      obtain ⟨x, hx, hc, ho⟩ := hw
      exact absurd (Store.finalizing_iff.mpr ⟨u, x, hx, ho, hc⟩) (by simp [hf])

theorem Guarded.of_items (h : s.Guarded) (ho : s'.store.objects = s.store.objects)
    (hv : s'.store.versions = s.store.versions) (hx : s'.store.sessions = s.store.sessions)
    (hs : s.Stays s') : s'.Guarded :=
  h.attend (.of_rows ho hv hx) hs

theorem Stays.refl : s.Stays s :=
  fun _ _ hx _ => hx

-- An update of an item that is not being committed.
theorem Stays.updateItem {g : Item → Item}
    (hg : ∀ x, s.items.lookup id = some x → x.state = .committing → g x = x) :
    s.Stays (s.updateItem id g) := by
  intro i x hx hc
  rw [lookup_updateItem, hx, Option.map_some]
  split
  case isTrue he => subst he; rw [hg x hx hc]
  case isFalse   => rfl

theorem Stays.removeStaging {key : Option Id} : s.Stays (s.removeStaging key) := by
  cases key <;> exact .refl

theorem Guarded.removeStaging {key : Option Id} (h : s.Guarded) : (s.removeStaging key).Guarded := by
  cases key <;> exact h.of_items rfl rfl rfl .refl

theorem Guarded.updateItem {g : Item → Item} (h : s.Guarded)
    (hg : ∀ x, s.items.lookup id = some x → x.state = .committing → g x = x) :
    (s.updateItem id g).Guarded :=
  h.of_items rfl rfl rfl (.updateItem hg)

theorem Guarded.failItem (h : s.Guarded) : (s.failItem id).Guarded :=
  h.removeStaging.updateItem fun x _ hc => by simp [hc]

theorem Stays.deleteSources {p : Id → Source → Bool}
    (h : ∀ i x, s.items.lookup i = some x → (s.sources.lookup x.sourceId).any (p x.sourceId) →
      x.state ≠ .committing) : s.Stays (s.deleteSources p) := by
  intro i x hx hc
  have spared : ¬(s.sources.lookup x.sourceId).any (p x.sourceId) := fun hp => h i x hx hp hc
  simp [Rows.deleteSources, hx, spared]

theorem Guarded.removeSource {r : Removal} (h : s.Guarded)
    (hr : r.committing = false → ∀ i x, s.items.lookup i = some x → x.sourceId = r.source →
      x.state ≠ .committing) : (s.removeSource r).Guarded := by
  let t : Rows := { s with items := s.items.filterMap fun _ i =>
    if i.sourceId = r.source ∧ i.state = .pending then none else some i }
  have pending : s.Stays t := by
    intro i x hx hc
    simp [t, hx, hc]
  have old {i : Id} {x : Item} (hx : t.items.lookup i = some x) : s.items.lookup i = some x := by
    simp only [t, Table.lookup_filterMap, Option.bind_eq_some_iff] at hx
    obtain ⟨y, hy, he⟩ := hx
    split at he <;> cases he
    exact hy
  have kept : t.Guarded := h.of_items rfl rfl rfl pending
  rw [Rows.removeSource]
  split
  case isTrue  => exact kept.of_items rfl rfl rfl .refl
  case isFalse hn =>
    refine kept.of_items rfl rfl rfl (.deleteSources fun i x hx hp => ?_)
    have source : x.sourceId = r.source := by
      cases hy : t.sources.lookup x.sourceId <;> simp_all
    exact hr (by simpa using hn) i x (old hx) source

theorem Guarded.finishReady {k : Id} {c : String} {n : Nat} (h : s.Guarded)
    (hh : s.Handles id o k c n) : (s.finishReady id o c n).Guarded := by
  have store : (s.finishReady id o c n).store =
    { s.store with objects := (readyObject s.store o c n).objects } := readyObject_rows s.store o c n
  rintro o' ⟨⟨y, hy, hp⟩, hr⟩
  have hy : (readyObject s.store o c n).objects.lookup o' = some y := hy
  have other : o' ≠ o := by
    rintro rfl
    obtain ⟨hn, he⟩ | ⟨z, -, he⟩ := readyObject_cases s.store o' c n <;> rw [he] at hy
    case inl => exact hn y hy hp
    case inr =>
      cases (Table.lookup_set.trans (if_pos rfl)).symm.trans hy
      contradiction
  have referenced : s.store.referenced o' := by
    rw [store] at hr
    exact hr
  obtain ⟨w, hw⟩ := h o' ⟨⟨y, (object_readyObject other).symm.trans hy, hp⟩, referenced⟩
  refine ⟨w, ?_⟩
  cases w
  case upload u =>
    obtain ⟨x, hx, hw⟩ := hw
    refine ⟨x, ?_, hw⟩
    rw [store]
    exact hx
  case item i   =>
    obtain ⟨x, hx, hc, ho⟩ := hw
    have hi : i ≠ id := by
      rintro rfl
      exact other (Option.some.inj (ho.symm.trans (hh.row hx).right.left))
    refine ⟨x, ?_, hc, ho⟩
    rw [Rows.finishReady, lookup_updateItem, hx, Option.map_some, if_neg hi]

theorem Guarded.commitment {a : Answer} {staged : StagedFile} {files : Table Id File} {f : Id}
    (h : s.Guarded) (hc : s.Claimed id) (hx : (s.items.lookup id).isSome) :
    (s.commitment a id staged files f).Guarded := by
  rintro o ⟨⟨y, hy, hp⟩, hr⟩
  by_cases he : o = s.store.next
  case pos =>
    subst he
    obtain ⟨x, hx⟩ := Option.isSome_iff_exists.mp hx
    refine ⟨.item id, x.commit s.store.next f staged, ?_, rfl, rfl⟩
    rw [Rows.commitment, lookup_updateItem, hx, Option.map_some, if_pos rfl, if_pos (hc x hx)]
  case neg =>
    have row : s.store.objects.lookup o = some y :=
      (Table.lookup_set.trans (if_neg he)).symm.trans hy
    have referenced : s.store.referenced o := by
      obtain ⟨v, w, hv, rfl⟩ := Store.referenced_iff.mp hr
      simp only [Rows.commitment, Rows.updateItem, Store.intake, Table.lookup_set] at hv
      split at hv
      case isTrue  => cases hv; exact absurd rfl he
      case isFalse => exact Store.referenced_iff.mpr ⟨v, w, hv, rfl⟩
    obtain ⟨w, hw⟩ := h o ⟨⟨y, row, hp⟩, referenced⟩
    refine ⟨w, ?_⟩
    cases w
    case upload u => exact hw
    case item i   =>
      obtain ⟨x, hx', hc', ho⟩ := hw
      have hi : i ≠ id := by
        rintro rfl
        cases (hc x hx').symm.trans hc'
      refine ⟨x, ?_, hc', ho⟩
      rw [Rows.commitment, lookup_updateItem, hx', Option.map_some, if_neg hi]

theorem Guarded.promote {k : Id} (h : s.Guarded) (hp : s.promote k o = .ok s') : s'.Guarded := by
  rw [Rows.promote] at hp
  split at hp <;> cases hp
  case h_1 => exact h.of_items rfl rfl rfl .refl
  case h_2 => exact h

section

variable [Digest]

theorem Stays.withStore {store : Store} (h : s.Sound) (hs : s.store.Spares store) :
    s.Stays (s.withStore store) := by
  intro i x hx hc
  have row : (s.withStore store).items.lookup i = some { x with
      storageObjectId := x.storageObjectId.filter fun o => (store.objects.lookup o).isSome
      localFileId     := x.localFileId.filter fun f => (store.files.lookup f).isSome } := by
    simp [Rows.withStore, hx]
  obtain ⟨y, hy, hf⟩ := (Keeps.withStore h hs).item row
  cases hx.symm.trans hy
  rw [row, hf.committing hc]

theorem Guarded.abandonCommit {key row : Option Id} {r : Except SyncError Rows} (h : s.Guarded)
    (hs : s.Sound) (hn : ∀ x, s.items.lookup id = some x → x.state ≠ .committing)
    (hr : s.abandonCommit id key none row = some r) : ∃ s', r = .ok s' ∧ s'.Guarded := by
  cases hr
  have removed : (s.removeStaging key).Sound := hs.removeStaging
  have items : (s.removeStaging key).items = s.items := by cases key <;> rfl
  have cleared : (s.removeStaging key).Guarded := h.removeStaging
  have linked : ((s.removeStaging key).withStore (s.removeStaging key).store).Guarded :=
    cleared.of_items rfl rfl rfl (.withStore removed .refl)
  refine ⟨_, rfl, linked.updateItem fun x' hx' hc => ?_⟩
  obtain ⟨x, hx, hf⟩ := (Keeps.withStore removed .refl).item hx'
  cases hf.committing hc
  exact absurd hc (hn _ (items ▸ hx))

variable {a : Answer} {item : Item}

theorem Guarded.resume {stage : ResumeStage} {p : Progress} (h : s.Guarded) (hs : s.Sound)
    (hw : (Work.resume id item stage).Holds s) (hr : s.resume a id item stage = some (s', p)) :
    s'.Guarded := by
  obtain ⟨-, o, k, c, ho, hk, hc, hh, hst⟩ := hw
  cases stage <;> simp only [Rows.resume] at hr
  case selected =>
    split at hr
    case h_2 => cases hr; exact h
    case h_1 hn =>
      -- The row of the item is gone, or else its object would be there.
      have gone : ∀ x, s.items.lookup id = some x → x.state ≠ .committing := by
        intro x hx hc
        obtain ⟨o', k', f, c', hi⟩ := hs.committing hx hc
        obtain ⟨y, hy, -⟩ := hi.row
        cases hi.object.symm.trans (hh.row hx).right.left
        simp [ho, Option.filter_some, hy] at hn
      obtain ⟨r, hr, he⟩ := Option.map_eq_some_iff.mp hr
      obtain ⟨t, rfl, ht⟩ := h.abandonCommit hs gone hr
      cases he
      exact ht
  case known o' =>
    split at hr
    case isTrue => cases hr; exact h.removeStaging
    case isFalse =>
      rw [hk] at hr
      simp only at hr
      split at hr <;> cases hr
      case h_1    => exact h
      case h_2 hp => exact h.promote hp
  case finishing o' =>
    cases hst
    rw [hc] at hr
    cases hr
    exact h.finishReady hh

variable [Collation]

theorem Guarded.download {stage : DownloadStage} (h : s.Guarded) (hw : stage.Holds s id)
    (hc : ∀ f, stage = .staged f → (s.items.lookup id).isSome) :
    (s.download a id item stage).1.Guarded := by
  cases stage <;> simp only [DownloadStage.Holds] at hw <;> simp only [Rows.download]
  case claimed =>
    split
    case h_1 => exact h.failItem
    case h_2 => exact h.updateItem fun x _ hc => by simp [hc]
    case h_3 => exact h.failItem
    case h_4 => exact h.of_items rfl rfl rfl .refl
  case created k =>
    refine h.updateItem fun x hx hc => ?_
    cases (hw.left x hx).symm.trans hc
  case keyed =>
    split
    case h_1 => exact h.removeStaging.failItem
    case h_2 => exact h.of_items rfl rfl rfl .refl
  case staged f =>
    split
    case h_1 => exact h.removeStaging.failItem
    case h_2 hs =>
      obtain ⟨files, g, -, rfl⟩ := commitStaged_ok hs
      exact h.commitment hw.left.claimed (hc f rfl)
  case committed =>
    split
    case h_1 => exact h
    case h_2 => split <;> exact h
  case located =>
    split
    case h_1    => exact h
    case h_2 hp => exact h.promote hp
  case promoted => exact h.finishReady hw

end
end Rows

namespace Server

-- The removals do not take an item away between the two transactions of its commit, and the first of
-- them finds the row of its item.
structure Careful (s : Server) (l : Label) : Prop where
  commit {a id item f} : l = .work a → s.worker = some (.download id item (.staged f)) →
    (s.rows.items.lookup id).isSome
  removal {i r j x} : l = .nextRemoval i → s.removals.lookup i = some r → r.committing = false →
    s.rows.items.lookup j = some x → x.sourceId = r.source → x.state ≠ .committing
  disconnect {owner j x} : l = .disconnect owner → s.rows.items.lookup j = some x →
    (s.rows.sources.lookup x.sourceId).any (·.ownerId = owner) → x.state ≠ .committing

variable [Digest] {s s' : Server} {o : Id}

-- An object has at most one owner, whatever happens.
theorem Sound.owner {w w' : Owner} (h : s.Sound) (hw : s.rows.Owns o w) (hw' : s.rows.Owns o w') :
    w = w' := by
  have recorded := h.rows.regular.recorded
  cases w <;> cases w' <;> obtain ⟨x, hx, -, ho⟩ := hw <;> obtain ⟨y, hy, -, ho'⟩ := hw'
  case upload.upload =>
    obtain ⟨v, f, hr⟩ := recorded.storage hx ho
    obtain ⟨v', f', hr'⟩ := recorded.storage hy ho'
    rw [recorded.object hr hr']
  case upload.item => exact absurd (recorded.reserved hx ho) (h.rows.object hy ho').right
  case item.upload => exact absurd (recorded.reserved hy ho') (h.rows.object hx ho).right
  case item.item   => rw [h.rows.objects hx hy ho ho']

variable [Collation]

theorem guarded_step {l : Label} (h : s.rows.Guarded) (hi : s.Sound) (hk : s.Careful l)
    (hs : s.step l = some s') : s'.rows.Guarded := by
  have regular := hi.rows.regular
  cases l <;> simp only [Server.step] at hs
  case createUpload =>
    obtain ⟨store, hc, rfl⟩ := Option.map_eq_some_iff.mp hs
    exact h.attend (.createUpload regular.proper hc) (.withStore hi.rows (.createUpload hc))
  case nextUpload i env =>
    split at hs <;> try contradiction
    case h_2 c hc =>
      obtain ⟨⟨store, k⟩, hn, rfl⟩ := Option.map_eq_some_iff.mp hs
      have m := Finalize.next_moves hn
      exact h.attend (m.attends regular) (.withStore hi.rows
        (m.spares regular.carried regular.proper regular.recorded (hi.uploads hc)))
  case list =>
    split at hs <;> cases hs
    refine h.of_items rfl rfl rfl fun i x hx _ => ?_
    exact (Table.lookup_set.trans (if_neg (Nat.ne_of_lt (hi.rows.ids hx)))).trans hx
  case recover removed =>
    split at hs <;> cases hs
    refine h.of_items rfl rfl rfl fun i x hx hc => ?_
    simp [Rows.recoverDownloads, hx, hc]
  case claim id =>
    split at hs <;> try contradiction
    case h_1 item _ hx =>
      split at hs
      case isFalse   => cases hs
      case isTrue hp =>
        cases hs
        refine h.updateItem fun x hx' hc => ?_
        cases hx.symm.trans hx'
        cases hp.left.symm.trans hc
  case resume id =>
    split at hs <;> try contradiction
    split at hs <;> cases hs
    exact h
  case work a =>
    split at hs <;> try contradiction
    case h_2 w hw =>
      obtain ⟨⟨rows, p⟩, hn, rfl⟩ := Option.map_eq_some_iff.mp hs
      have holds := hi.worker hw
      cases w
      case download id item stage =>
        have kept : (s.rows.download a id item stage).1.Guarded :=
          h.download holds.right fun f hf => hk.commit rfl (hf ▸ hw)
        rw [Option.some.inj hn] at kept
        exact kept
      case resume => exact h.resume hi.rows holds hn
  case nextRemoval i =>
    split at hs <;> cases hs
    case h_2 r hr => exact h.removeSource fun hc j x => hk.removal rfl hr hc
  case disconnect owner =>
    cases hs
    exact h.of_items rfl rfl rfl (.deleteSources fun j x => hk.disconnect rfl)
  case removeSource =>
    split at hs <;> try contradiction
    split at hs <;> cases hs
    exact h
  case finalize    => split at hs <;> cases hs; exact h
  case dropUpload  => cases hs; exact h
  case dropRemoval => cases hs; exact h
  case crash       => cases hs; exact h
  case loseStaging => cases hs; exact h.removeStaging
  case addSource   => cases hs; exact h.of_items rfl rfl rfl .refl

theorem guarded_reaches (e : Steps Server.step Careful {} s) : s.Sound ∧ s.rows.Guarded := by
  apply e.invariant (I := fun s => s.Sound ∧ s.rows.Guarded)
  case h  =>
    refine ⟨.init, ?_⟩
    rintro o ⟨⟨y, hy, -⟩, -⟩
    contradiction
  case hi => exact fun h hk hs => ⟨h.left.step hs, guarded_step h.right h.left hk hs⟩

theorem pending_object_owned {y : StorageObject} (e : Steps Server.step Careful {} s)
    (ho : s.rows.store.objects.lookup o = some y) (hp : y.state = .pending)
    (hr : s.rows.store.referenced o) : ∃! w, s.rows.Owns o w := by
  obtain ⟨sound, guarded⟩ := guarded_reaches e
  obtain ⟨w, hw⟩ := guarded o ⟨⟨y, ho, hp⟩, hr⟩
  exact ⟨w, hw, fun w' hw' => sound.owner hw' hw⟩

end Server

section

attribute [local instance] Collation.binary Digest.hi

def careful (s : Server) : Label → Bool
  | .work _           =>
    match s.worker with
    | some (.download id _ (.staged _)) => (s.rows.items.lookup id).isSome
    | _                                 => true
  | .nextRemoval i    => (s.removals.lookup i).all fun r => r.committing || !s.rows.committing r.source
  | .disconnect owner => !s.rows.items.any fun _ x =>
    (s.rows.sources.lookup x.sourceId).any (·.ownerId = owner) && x.state = .committing
  | _                 => true

theorem careful_of_check {s : Server} {l : Label} (h : careful s l) : s.Careful l where
  commit hl hw := by
    subst hl
    simpa [careful, hw] using h
  removal {i r j x} hl hr hc hx he hs := by
    subst hl
    simp only [careful, hr, Option.all_some, hc, Bool.false_or, Bool.not_eq_true'] at h
    have counted : s.rows.committing r.source := Table.any_iff.mpr ⟨j, x, hx, by simp [he, hs]⟩
    simp [counted] at h
  disconnect {owner j x} hl hx ho hs := by
    subst hl
    simp only [careful, Bool.not_eq_true'] at h
    have some : s.rows.items.any fun _ x =>
        (s.rows.sources.lookup x.sourceId).any (·.ownerId = owner) && x.state = .committing :=
      Table.any_iff.mpr ⟨j, x, hx, by simp [ho, hs]⟩
    simp [some] at h

-- The import of a file up to the transaction that refers to its object, and what comes before it.
def downloadedImport : List Label :=
  [.addSource 7, .list 0 "g" "a.txt" (some 9), .claim 1, .work {}, .work {},
    .work { bytes := [104, 105] }]

def waiting (s : Server) : Bool :=
  (s.rows.store.objects.lookup 5).any (·.state = .pending) && s.rows.store.referenced 5

theorem pending_object_owned_import : ∃ s, Steps Server.step Server.Careful {} s ∧
    waiting s ∧ ∃! w, s.rows.Owns 5 w := by
  have run : (run (fun s l => if careful s l then Server.step s l else none) {}
      (downloadedImport ++ [.removeSource 0 7 0, .work { name := "a.txt" }, .crash])).map (fun s =>
        (waiting s, (s.rows.store.objects.lookup 5).map (·.state), s.rows.store.referenced 5)) =
      some (true, some .pending, true) := by
    decide +kernel
  obtain ⟨s, hs, he⟩ := Option.map_eq_some_iff.mp run
  simp only [Prod.mk.injEq] at he
  obtain ⟨hw, state, hr⟩ := he
  obtain ⟨y, hy, hp⟩ := Option.map_eq_some_iff.mp state
  have steps : Steps Server.step Server.Careful {} s := steps_of_run (fun _ _ => careful_of_check) hs
  exact ⟨s, steps, hw, Server.pending_object_owned steps hy hp hr⟩

-- The source is removed while its item is being downloaded: nobody has the object of the commit.
theorem pending_object_unowned : ∃ s y, Reaches Server.step {} s ∧
    s.rows.store.objects.lookup 5 = some y ∧ y.state = .pending ∧ s.rows.store.referenced 5 ∧
    ¬∃ w, s.rows.Owns 5 w := by
  have run : (run Server.step {} (downloadedImport ++
      [.removeSource 0 7 0, .nextRemoval 0, .work { name := "a.txt" }])).map (fun s =>
        ((s.rows.store.objects.lookup 5).map (·.state), s.rows.store.referenced 5,
          s.rows.items.rows.length, s.rows.store.sessions.rows.length)) =
      some (some .pending, true, 0, 0) := by
    decide +kernel
  obtain ⟨s, hs, he⟩ := Option.map_eq_some_iff.mp run
  simp only [Prod.mk.injEq, List.length_eq_zero_iff] at he
  obtain ⟨state, hr, items, sessions⟩ := he
  obtain ⟨y, hy, hp⟩ := Option.map_eq_some_iff.mp state
  refine ⟨s, y, reaches_of_run hs, hy, hp, hr, ?_⟩
  rintro ⟨w, hw⟩
  cases w <;> obtain ⟨x, hx, -⟩ := hw
  case upload => simp [Table.lookup, sessions] at hx
  case item   => simp [Table.lookup, items] at hx

end
end MyDrive.Google
