import MyDrive.Google.Theorems.Worker

-- The steps of the worker on its own item.

namespace MyDrive.Google

open Transfers

-- The row of an item whose commit has begun.
def Item.commit (x : Item) (o f : Id) (staged : StagedFile) : Item :=
  { x with
    state           := .committing
    storageObjectId := some o
    localFileId     := some f
    checksum        := some staged.checksum
    bytesDownloaded := staged.size }

namespace Rows

-- The file of a commit is the linked one, or a new one.
def Target (s : Rows) (files : Table Id File) (f : Id) : Prop :=
  files = s.store.files ∧ (s.store.files.lookup f).isSome ∧ (∃ g, s.links.lookup g = some f) ∨
  f = s.store.next + 2 ∧ ∃ x : File, x.currentVersion = none ∧ files = s.store.files.set f x

def commitment (s : Rows) (a : Answer) (id : Id) (staged : StagedFile) (files : Table Id File)
    (f : Id) : Rows :=
  let t := { s with store := s.store.intake staged.size a.env.startedAt files f }
  t.updateItem id fun x =>
    if x.state = .downloading then x.commit s.store.next f staged else x

theorem commitStaged_ok [Collation] {s s' : Rows} {a : Answer} {id : Id} {item : Item}
    {staged : StagedFile} (h : s.commitStaged a id item staged = .ok s') :
    ∃ files f, s.Target files f ∧ s' = s.commitment a id staged files f := by
  simp only [commitStaged, Except.bind_eq_ok_iff, Except.ite_throw_eq_ok_iff] at h
  obtain ⟨-, -, ⟨t, f⟩, ht, h⟩ := h
  rw [commitTarget] at ht
  split at h
  case h_1 => cases h
  case h_2 store hv =>
    obtain ⟨-, -, rfl⟩ := Store.insertVersion_ok hv
    cases h
    split at ht
    case h_1 g hg =>
      cases ht
      obtain ⟨hl, hf⟩ := Option.filter_eq_some_iff.mp hg
      have row : (s.store.files.lookup f).isSome := by
        cases he : s.store.files.lookup f
        case none => simp [he] at hf
        case some => rfl
      exact ⟨_, f, .inl ⟨rfl, row, _, hl⟩, rfl⟩
    case h_2 =>
      simp only at ht
      split at ht <;> cases ht
      case h_1 hi =>
        cases Store.insertFile_ok hi
        exact ⟨_, _, .inr ⟨rfl, _, rfl, rfl⟩, rfl⟩

theorem readyObject_cases (s : Store) (o : Id) (c : String) (n : Nat) :
    (∀ x, s.objects.lookup o = some x → x.state ≠ .pending) ∧ readyObject s o c n = s ∨
    ∃ x, s.objects.lookup o = some x ∧ readyObject s o c n = { s with
      objects := s.objects.set o { x with checksum := some c, size := n, state := .ready } } := by
  rw [readyObject]
  split
  case h_1 ho => exact .inl ⟨by simp [ho], rfl⟩
  case h_2 x ho =>
    split
    case isTrue     => exact .inr ⟨x, ho, rfl⟩
    case isFalse hs => exact .inl ⟨by simpa [ho] using (not_or.mp hs).left, rfl⟩

theorem object_readyObject {s : Store} {o o' : Id} {c : String} {n : Nat} (h : o' ≠ o) :
    (readyObject s o c n).objects.lookup o' = s.objects.lookup o' := by
  obtain ⟨-, he⟩ | ⟨x, -, he⟩ := readyObject_cases s o c n
  case inl => rw [he]
  case inr => rw [he]; exact Table.lookup_set.trans (if_neg h)

theorem regular_readyObject {s : Store} {o : Id} {c : String} {n : Nat} (h : s.Regular) :
    (readyObject s o c n).Regular := by
  obtain ⟨-, he⟩ | ⟨x, hx, he⟩ := readyObject_cases s o c n
  case inl => rw [he]; exact h
  case inr =>
    rw [he]
    refine h.of_rows (Nat.le_refl _) rfl rfl rfl rfl (fun o' y hy => ?_) fun o' y hy => ?_
    case refine_1 =>
      simp only [Table.lookup_set] at hy
      split at hy
      case isTrue ho => exact ⟨x, ho ▸ hx⟩
      case isFalse   => exact ⟨y, hy⟩
    case refine_2 =>
      simp only [Table.lookup_set]
      split
      case isTrue  => exact ⟨_, rfl⟩
      case isFalse => exact ⟨y, hy⟩

-- Nothing else of the store changes.
theorem readyObject_rows (s : Store) (o : Id) (c : String) (n : Nat) :
    readyObject s o c n = { s with objects := (readyObject s o c n).objects } := by
  obtain ⟨-, he⟩ | ⟨x, -, he⟩ := readyObject_cases s o c n <;> rw [he]

variable {s s' : Rows} {id o k f : Id} {c : String} {n : Nat}

theorem lookup_finishReady {i : Id} {x' : Item}
    (h : (s.finishReady id o c n).items.lookup i = some x') :
    ∃ x, s.items.lookup i = some x ∧ (x' = x ∧ (i = id → x.state ≠ .committing) ∨
      i = id ∧ x.state = .committing ∧ x' = { x with state := .stored, stagingKey := none }) := by
  obtain ⟨x, hx, rfl⟩ := Option.map_eq_some_iff.mp (lookup_updateItem.symm.trans h)
  refine ⟨x, hx, ?_⟩
  split
  case isFalse hi => exact .inl ⟨rfl, fun he => absurd he hi⟩
  case isTrue hi  =>
    split
    case isTrue hs  => exact .inr ⟨hi, hs, rfl⟩
    case isFalse hs => exact .inl ⟨rfl, fun _ => hs⟩

theorem imported_finishReady (h : (s.finishReady id o c n).Imported f) : s.Imported f := by
  obtain ⟨i, x', hx', hf⟩ | ⟨g, hg⟩ := h
  case inl =>
    obtain ⟨x, hx, ⟨rfl, -⟩ | ⟨-, -, rfl⟩⟩ := lookup_finishReady hx' <;> exact .inl ⟨i, _, hx, hf⟩
  case inr =>
    simp only [finishReady, updateItem] at hg
    split at hg
    case h_1 => exact .inr ⟨g, hg⟩
    case h_2 y f' he =>
      simp only [Option.bind_eq_some_iff, Option.map_eq_some_iff] at he
      obtain ⟨x, hx, f'', hf, he⟩ := he
      cases he
      rw [Table.lookup_set] at hg
      split at hg
      case isTrue  => cases hg; exact .inl ⟨id, y, hx, hf⟩
      case isFalse => exact .inr ⟨g, hg⟩

theorem Fetches.setKey (hc : s.Claimed id) (hk : s.Unkeyed k) :
    (s.updateItem id fun i => { i with stagingKey := some k }).Fetches id k where
  bound := hk.left
  claimed x' hx' := by
    obtain ⟨x, hx, rfl⟩ := Option.map_eq_some_iff.mp (lookup_updateItem.symm.trans hx')
    simp only [if_true]
    exact hc x hx
  row hx' := by
    obtain ⟨x, hx, rfl⟩ := Option.map_eq_some_iff.mp (lookup_updateItem.symm.trans hx')
    simp
  key hx' he := by
    obtain ⟨x, hx, rfl⟩ := Option.map_eq_some_iff.mp (lookup_updateItem.symm.trans hx')
    split at he
    case isTrue hi => exact hi
    case isFalse   => exact absurd he (hk.right _ _ hx)

theorem Aside.promote (hp : s.promote k o = .ok s') : s.Aside s' := by
  rw [Rows.promote] at hp
  split at hp <;> cases hp
  case h_2 => exact ⟨Nat.le_refl _, .inl, fun hx => .inl ⟨_, hx, .refl, rfl, rfl⟩⟩
  case h_1 =>
    refine ⟨Nat.le_refl _, fun {j b} hb => ?_, fun hx => .inl ⟨_, hx, .refl, rfl, rfl⟩⟩
    simp only [Table.lookup_erase] at hb
    split at hb
    case isTrue  => contradiction
    case isFalse => exact .inl hb

-- The rows of the items once the commit of the item `id` has begun.
theorem lookup_commitment {a : Answer} {staged : StagedFile} {files : Table Id File} {i : Id}
    {x' : Item} (hc : s.Claimed id)
    (h : (s.commitment a id staged files f).items.lookup i = some x') :
    ∃ x, s.items.lookup i = some x ∧
      (i ≠ id ∧ x' = x ∨ i = id ∧ x' = x.commit s.store.next f staged) := by
  obtain ⟨x, hx, rfl⟩ := Option.map_eq_some_iff.mp (lookup_updateItem.symm.trans h)
  refine ⟨x, hx, ?_⟩
  split
  case isFalse hi => exact .inl ⟨hi, rfl⟩
  case isTrue hi  =>
    subst hi
    exact .inr ⟨rfl, if_pos (hc x hx)⟩

variable [Digest]

theorem Sound.insertItem {item : Item} (h : s.Sound) (hs : item.state = .pending)
    (ho : item.storageObjectId = none) (hk : item.stagingKey = none) (hf : item.localFileId = none) :
    (s.insertItem item).Sound := by
  have grown {i : Id} (hi : i < s.store.next) : i < s.store.next + 1 := Nat.lt_succ_of_lt hi
  have row {i : Id} {x : Item} (hx : (s.insertItem item).items.lookup i = some x) :
      x = item ∧ i = s.store.next ∨ s.items.lookup i = some x := by
    rw [Rows.insertItem, Table.lookup_set] at hx
    split at hx
    case isTrue he => exact .inl ⟨(Option.some.inj hx).symm, he⟩
    case isFalse   => exact .inr hx
  have object {i o : Id} {x : Item} (hx : (s.insertItem item).items.lookup i = some x)
      (he : x.storageObjectId = some o) : s.items.lookup i = some x := by
    obtain ⟨rfl, -⟩ | hx := row hx
    case inl => cases ho.symm.trans he
    case inr => exact hx
  have key {i k : Id} {x : Item} (hx : (s.insertItem item).items.lookup i = some x)
      (he : x.stagingKey = some k) : s.items.lookup i = some x := by
    obtain ⟨rfl, -⟩ | hx := row hx
    case inl => cases hk.symm.trans he
    case inr => exact hx
  constructor
  case regular =>
    have regular : Store.Regular { s.store with next := s.store.next + 1 } :=
      h.regular.of_rows (Nat.le_succ _) rfl rfl rfl rfl (fun _ x h => ⟨x, h⟩) fun _ x h => ⟨x, h⟩
    exact regular
  case ids =>
    intro i x hx
    obtain ⟨-, rfl⟩ | hx := row hx
    case inl => exact Nat.lt_succ_self _
    case inr => exact grown (h.ids hx)
  case object =>
    intro i x o hx he
    obtain ⟨hn, hr⟩ := h.object (object hx he) he
    exact ⟨grown hn, hr⟩
  case key  => exact fun hx he => grown (h.key (key hx he) he)
  case path => exact fun hb => grown (h.path hb)
  case imported =>
    rintro f (⟨i, x, hx, he⟩ | hl)
    case inl =>
      obtain ⟨rfl, -⟩ | hx := row hx
      case inl => cases hf.symm.trans he
      case inr =>
        obtain ⟨hn, hu⟩ := h.imported (.inl ⟨i, x, hx, he⟩)
        exact ⟨grown hn, hu⟩
    case inr =>
      obtain ⟨hn, hu⟩ := h.imported (.inr hl)
      exact ⟨grown hn, hu⟩
  case objects => exact fun hx hy he he' => h.objects (object hx he) (object hy he') he he'
  case keys    => exact fun hx hy he he' => h.keys (key hx he) (key hy he') he he'
  case committing =>
    intro i x hx hc
    obtain ⟨rfl, -⟩ | hx := row hx
    case inl => cases hs.symm.trans hc
    case inr =>
      obtain ⟨o, k, f, c, hi⟩ := h.committing hx hc
      exact ⟨o, k, f, c, hi.object, hi.key, hi.checksum, hi.file, hi.row, hi.version, hi.entry,
        hi.staged, hi.payload⟩

theorem Sound.setKey (h : s.Sound) (hc : s.Claimed id) (hk : s.Unkeyed k) :
    (s.updateItem id fun i => { i with stagingKey := some k }).Sound := by
  have row {i : Id} {x' : Item}
      (hx' : (s.updateItem id fun i => { i with stagingKey := some k }).items.lookup i = some x') :
      ∃ x, s.items.lookup i = some x ∧
        (i = id ∧ x' = { x with stagingKey := some k } ∨ i ≠ id ∧ x' = x) := by
    obtain ⟨x, hx, rfl⟩ := Option.map_eq_some_iff.mp (lookup_updateItem.symm.trans hx')
    refine ⟨x, hx, ?_⟩
    split
    case isTrue he  => exact .inl ⟨he, rfl⟩
    case isFalse he => exact .inr ⟨he, rfl⟩
  constructor
  case regular => exact h.regular
  case path    => exact h.path
  case ids =>
    intro i x' hx'
    obtain ⟨x, hx, -⟩ := row hx'
    exact h.ids hx
  case object =>
    intro i x' o hx' ho
    obtain ⟨x, hx, ⟨-, rfl⟩ | ⟨-, rfl⟩⟩ := row hx' <;> exact h.object hx ho
  case key =>
    intro i x' j hx' hj
    obtain ⟨x, hx, ⟨-, rfl⟩ | ⟨-, rfl⟩⟩ := row hx'
    case inl => cases hj; exact hk.left
    case inr => exact h.key hx hj
  case imported =>
    rintro f (⟨i, x', hx', he⟩ | hl)
    case inl =>
      obtain ⟨x, hx, ⟨-, rfl⟩ | ⟨-, rfl⟩⟩ := row hx' <;> exact h.imported (.inl ⟨i, _, hx, he⟩)
    case inr => exact h.imported (.inr hl)
  case objects =>
    intro i j x' y' o hx' hy' ho ho'
    obtain ⟨x, hx, ⟨-, rfl⟩ | ⟨-, rfl⟩⟩ := row hx' <;>
      obtain ⟨y, hy, ⟨-, rfl⟩ | ⟨-, rfl⟩⟩ := row hy' <;> exact h.objects hx hy ho ho'
  case keys =>
    intro i j x' y' l hx' hy' hl hl'
    obtain ⟨x, hx, ⟨rfl, rfl⟩ | ⟨-, rfl⟩⟩ := row hx' <;>
      obtain ⟨y, hy, ⟨rfl, rfl⟩ | ⟨-, rfl⟩⟩ := row hy'
    case inl.inl => rfl
    case inl.inr => cases hl; exact absurd hl' (hk.right _ _ hy)
    case inr.inl => cases hl'; exact absurd hl (hk.right _ _ hx)
    case inr.inr => exact h.keys hx hy hl hl'
  case committing =>
    intro i x' hx' hs
    obtain ⟨x, hx, ⟨rfl, rfl⟩ | ⟨-, rfl⟩⟩ := row hx'
    case inl => cases (hc x hx).symm.trans hs
    case inr =>
      obtain ⟨o, k, f, c, hi⟩ := h.committing hx hs
      exact ⟨o, k, f, c, hi.object, hi.key, hi.checksum, hi.file, hi.row, hi.version, hi.entry,
        hi.staged, hi.payload⟩

-- The download overwrites the file of its own item, which is not being committed.
theorem Sound.fetch {staging : Table Id (List UInt8)} (h : s.Sound) (hf : s.Fetches id k)
    (hs : ∀ {j b}, j ≠ k → staging.lookup j = some b → s.store.staging.lookup j = some b) :
    Sound { s with store.staging := staging } := by
  refine h.derive ⟨Nat.le_refl _, .inl, .inl, fun hx => ⟨_, hx, .refl⟩, fun hi => hi,
    fun hb => .inl (hb ▸ rfl)⟩ (h.regular.of_rows (Nat.le_refl _) rfl rfl rfl rfl
      (fun _ x h => ⟨x, h⟩) fun _ x h => ⟨x, h⟩) fun {i x} hx hc => ?_
  obtain ⟨o, j, f, c, hi⟩ := h.committing hx hc
  refine ⟨o, j, f, c, hi.object, hi.key, hi.checksum, hi.file, hi.row, hi.version, hi.entry, ?_,
    hi.payload⟩
  intro b hb
  have other : j ≠ k := by
    rintro rfl
    cases hf.key hx hi.key
    cases (hf.claimed x hx).symm.trans hc
  exact hi.staged (hs other hb)

theorem Sound.promote (h : s.Sound) (hh : s.Handles id o k c n) (hp : s.promote k o = .ok s') :
    s'.Sound := by
  rw [Rows.promote] at hp
  split at hp <;> cases hp
  case h_2 => exact h
  case h_1 bytes hb hn =>
    refine h.derive ⟨Nat.le_refl _, .inl, .inl, fun hx => ⟨_, hx, .refl⟩, fun hi => hi,
      fun {o' b} hb' => ?_⟩ (h.regular.of_rows (Nat.le_refl _) rfl rfl rfl rfl
        (fun _ x h => ⟨x, h⟩) fun _ x h => ⟨x, h⟩) fun {i x} hx hc => ?_
    case refine_1 =>
      simp only [Table.lookup_set] at hb'
      split at hb'
      case isTrue he => exact .inr (he ▸ hh.objectBound)
      case isFalse   => exact .inl (hb' ▸ rfl)
    case refine_2 =>
      obtain ⟨o', j, f, c', hi⟩ := h.committing hx hc
      refine ⟨o', j, f, c', hi.object, hi.key, hi.checksum, hi.file, hi.row, hi.version, hi.entry,
        fun {b} hb' => ?_, fun {b} hb' => ?_⟩
      case refine_1 =>
        simp only [Table.lookup_erase] at hb'
        split at hb'
        case isTrue  => contradiction
        case isFalse => exact hi.staged hb'
      case refine_2 =>
        simp only [Table.lookup_set] at hb'
        split at hb'
        case isFalse => exact hi.payload hb'
        case isTrue he =>
          -- The object and the staging file are those of the worker's item.
          subst he
          cases hb'
          cases hh.object hx hi.object
          obtain ⟨-, -, hk, -⟩ := hh.row hx
          cases hk.symm.trans hi.key
          exact hi.staged hb

theorem Sound.finishReady (h : s.Sound) (hh : s.Handles id o k c n) :
    (s.finishReady id o c n).Sound := by
  have store : (s.finishReady id o c n).store =
    { s.store with objects := (readyObject s.store o c n).objects } := readyObject_rows s.store o c n
  refine h.derive ⟨?_, ?_, ?_, fun hx' => ?_, imported_finishReady, ?_⟩ ?_ fun {i x'} hx' hc => ?_
  case refine_1 => exact Nat.le_of_eq (by rw [store])
  case refine_2 => rw [store]; exact .inl
  case refine_3 => rw [store]; exact .inl
  case refine_4 =>
    obtain ⟨x, hx, ⟨rfl, -⟩ | ⟨-, -, rfl⟩⟩ := lookup_finishReady hx'
    case inl => exact ⟨_, hx, .refl⟩
    case inr => exact ⟨x, hx, fun h => h, by simp, fun h => h⟩
  case refine_5 => rw [store]; exact fun hb => .inl (hb ▸ rfl)
  case refine_6 => exact regular_readyObject h.regular
  case refine_7 =>
    obtain ⟨x, hx, ⟨rfl, hn⟩ | ⟨-, -, rfl⟩⟩ := lookup_finishReady hx'
    case inr => contradiction
    case inl =>
      obtain ⟨o', k', f, c', hi⟩ := h.committing hx hc
      have other : o' ≠ o := by
        rintro rfl
        exact hn (hh.object hx hi.object) hc
      obtain ⟨y, hy, hp⟩ := hi.row
      refine ⟨o', k', f, c', hi.object, hi.key, hi.checksum, hi.file,
        ⟨y, (object_readyObject other).trans hy, hp⟩, ?_, ?_, ?_, ?_⟩
      case refine_1 => rw [store]; exact hi.version
      case refine_2 => rw [store]; exact hi.entry
      case refine_3 => rw [store]; exact hi.staged
      case refine_4 => rw [store]; exact hi.payload

theorem Sound.commitment {a : Answer} {staged : StagedFile} {files : Table Id File} (h : s.Sound)
    (hh : s.Fetches id staged.stagingKey) (hb : staged.Staged s) (ht : s.Target files f) :
    (s.commitment a id staged files f).Sound := by
  have table : files = s.store.files ∨ f = s.store.next + 2 ∧ ∃ x : File, x.currentVersion = none ∧
      files = s.store.files.set f x := ht.imp_left And.left
  have spares : s.store.Spares (s.commitment a id staged files f).store := by
    apply Store.Spares.intake h.regular.proper
    obtain he | ⟨-, x, -, he⟩ := table
    case inl => exact .inl he
    case inr => exact .inr ⟨x, he⟩
  have grown {i : Id} (hi : i < s.store.next) : i < s.store.next + 3 := Nat.lt_add_right 3 hi
  have unreserved : ¬s.store.Reserved s.store.next := by
    rintro ⟨u, v, g, hr⟩
    exact Nat.lt_irrefl _ (h.regular.recorded.bound hr).right
  have target : f < s.store.next + 3 ∧ ¬s.store.Uploaded f := by
    obtain ⟨-, -, hl⟩ | ⟨rfl, -⟩ := ht
    case inl =>
      obtain ⟨hf, hu⟩ := h.imported (.inr hl)
      exact ⟨grown hf, hu⟩
    case inr =>
      refine ⟨Nat.add_lt_add_left (by decide : 2 < 3) _, ?_⟩
      rintro ⟨u, x, hx, -, -, hi⟩
      exact Nat.not_lt_of_le (Nat.le_add_right _ 2) (h.regular.backed.fileIds hx hi)
  have entry : ((s.commitment a id staged files f).store.files.lookup f).isSome := by
    have row : (files.lookup f).isSome := by
      obtain ⟨rfl, hf, -⟩ | ⟨-, x, -, rfl⟩ := ht
      case inl => exact hf
      case inr => simp
    obtain ⟨y, hy⟩ := Option.isSome_iff_exists.mp row
    simp [Rows.commitment, Rows.updateItem, Store.intake, hy]
  constructor
  case regular => exact h.regular.intake table
  case path    => exact fun hb => grown (h.path hb)
  case ids =>
    intro i x' hx'
    obtain ⟨x, hx, -⟩ := lookup_commitment hh.claimed hx'
    exact grown (h.ids hx)
  case object =>
    intro i x' o hx' ho
    obtain ⟨x, hx, ⟨-, rfl⟩ | ⟨-, rfl⟩⟩ := lookup_commitment hh.claimed hx'
    case inl => exact ⟨grown (h.object hx ho).left, (h.object hx ho).right⟩
    case inr =>
      cases ho
      exact ⟨Nat.lt_add_of_pos_right (by decide), unreserved⟩
  case key =>
    intro i x' k hx' hk
    obtain ⟨x, hx, ⟨-, rfl⟩ | ⟨-, rfl⟩⟩ := lookup_commitment hh.claimed hx' <;>
      exact grown (h.key hx hk)
  case imported =>
    rintro g (⟨i, x', hx', hg⟩ | hl)
    case inl =>
      obtain ⟨x, hx, ⟨-, rfl⟩ | ⟨-, rfl⟩⟩ := lookup_commitment hh.claimed hx'
      case inl =>
        obtain ⟨hn, hu⟩ := h.imported (.inl ⟨i, _, hx, hg⟩)
        exact ⟨grown hn, hu⟩
      case inr => cases hg; exact target
    case inr =>
      obtain ⟨hn, hu⟩ := h.imported (.inr hl)
      exact ⟨grown hn, hu⟩
  case objects =>
    intro i j x' y' o hx' hy' ho ho'
    obtain ⟨x, hx, ⟨-, rfl⟩ | ⟨rfl, rfl⟩⟩ := lookup_commitment hh.claimed hx' <;>
      obtain ⟨y, hy, ⟨-, rfl⟩ | ⟨rfl, rfl⟩⟩ := lookup_commitment hh.claimed hy'
    case inl.inl => exact h.objects hx hy ho ho'
    case inl.inr => cases ho'; exact absurd (h.object hx ho).left (Nat.lt_irrefl _)
    case inr.inl => cases ho; exact absurd (h.object hy ho').left (Nat.lt_irrefl _)
    case inr.inr => rfl
  case keys =>
    intro i j x' y' k hx' hy' hk hk'
    obtain ⟨x, hx, ⟨-, rfl⟩ | ⟨rfl, rfl⟩⟩ := lookup_commitment hh.claimed hx' <;>
      obtain ⟨y, hy, ⟨-, rfl⟩ | ⟨rfl, rfl⟩⟩ := lookup_commitment hh.claimed hy' <;>
        exact h.keys hx hy hk hk'
  case committing =>
    intro i x' hx' hc
    obtain ⟨x, hx, ⟨-, rfl⟩ | ⟨rfl, rfl⟩⟩ := lookup_commitment hh.claimed hx'
    case inl => exact h.keep_interrupted spares hx hc
    case inr =>
      have key : x.stagingKey = some staged.stagingKey := hh.row hx
      refine ⟨s.store.next, staged.stagingKey, f, staged.checksum, rfl, key, rfl, rfl,
        ⟨_, Table.lookup_set.trans (if_pos rfl), rfl⟩,
        ⟨_, _, Table.lookup_set.trans (if_pos rfl), rfl, rfl⟩, entry, fun hb' => hb _ hb', ?_⟩
      intro b hb'
      have old : s.store.next < s.store.next := h.path (hb' ▸ rfl)
      exact absurd old (Nat.lt_irrefl _)

theorem Handles.commitment {a : Answer} {staged : StagedFile} {files : Table Id File} (h : s.Sound)
    (hh : s.Fetches id staged.stagingKey) : (s.commitment a id staged files f).Handles id
      s.store.next staged.stagingKey staged.checksum staged.size where
  objectBound := Nat.lt_add_of_pos_right (by decide)
  keyBound    := Nat.lt_add_right 3 hh.bound
  row hx'     := by
    obtain ⟨x, hx, ⟨hn, -⟩ | ⟨-, rfl⟩⟩ := lookup_commitment hh.claimed hx'
    case inl => exact absurd rfl hn
    case inr =>
      have key : x.stagingKey = some staged.stagingKey := hh.row hx
      exact ⟨rfl, rfl, key, rfl, rfl⟩
  object hx' ho := by
    obtain ⟨x, hx, ⟨-, rfl⟩ | ⟨rfl, -⟩⟩ := lookup_commitment hh.claimed hx'
    case inl => exact absurd (h.object hx ho).left (Nat.lt_irrefl _)
    case inr => rfl
  key hx' hk  := by
    obtain ⟨x, hx, ⟨-, rfl⟩ | ⟨rfl, -⟩⟩ := lookup_commitment hh.claimed hx'
    case inl => exact hh.key hx hk
    case inr => rfl

end Rows
end MyDrive.Google
