import MyDrive.Transfers.Theorems.Finalize

namespace MyDrive.Transfers
namespace Store

-- Ids are given out once, and the foreign keys hold. The current version of a file is one of its own.
structure Proper (s : Store) : Prop where
  fileIds {f x} : s.files.lookup f = some x → f < s.next
  versionIds {v x} : s.versions.lookup v = some x → v < s.next
  objectIds {o x} : s.objects.lookup o = some x → o < s.next
  sessionIds {u x} : s.sessions.lookup u = some x → u < s.next
  object {v x} : s.versions.lookup v = some x → ∃ o, s.objects.lookup x.objectId = some o
  current {f x v} : s.files.lookup f = some x → x.currentVersion = some v →
    ∃ w, s.versions.lookup v = some w ∧ w.fileId = f

namespace Proper

variable {s s' : Store} {i f : Id}

theorem log {e : Event} (h : s.Proper) : (s.log e).Proper where
  fileIds hx    := h.fileIds hx
  versionIds hx := h.versionIds hx
  objectIds hx  := h.objectIds hx
  sessionIds hx := h.sessionIds hx
  object hx     := h.object hx
  current hx hv := h.current hx hv

theorem updateSession {g : Session → Session} (h : s.Proper) : (s.updateSession i g).Proper where
  fileIds hx    := h.fileIds hx
  versionIds hx := h.versionIds hx
  objectIds hx  := h.objectIds hx
  sessionIds hx := by
    rw [lookup_updateSession] at hx
    obtain ⟨x, hx, -⟩ := Option.map_eq_some_iff.mp hx
    exact h.sessionIds hx
  object hx     := h.object hx
  current hx hv := h.current hx hv

theorem setCurrent {v : Option Id} (h : s.Proper)
    (hv : ∀ x, v = some x → ∃ w, s.versions.lookup x = some w ∧ w.fileId = f) :
    (s.setCurrent f v).Proper where
  fileIds hx    := by
    rw [lookup_setCurrent] at hx
    obtain ⟨x, hx, -⟩ := Option.map_eq_some_iff.mp hx
    exact h.fileIds hx
  versionIds hx := h.versionIds hx
  objectIds hx  := h.objectIds hx
  sessionIds hx := h.sessionIds hx
  object hx     := h.object hx
  current {g x w} hx hw := by
    rw [lookup_setCurrent] at hx
    obtain ⟨y, hy, rfl⟩ := Option.map_eq_some_iff.mp hx
    split at hw
    case isTrue hg  => subst hg; exact hv w hw
    case isFalse hg => exact h.current hy hw

theorem deleteVersions {p : Id → FileVersion → Bool} (h : s.Proper) : (s.deleteVersions p).Proper where
  fileIds hx    := by
    simp only [Store.deleteVersions, Table.lookup_filterMap, Option.bind_eq_some_iff] at hx
    obtain ⟨x, hx, -⟩ := hx
    exact h.fileIds hx
  versionIds hx := by
    simp only [Store.deleteVersions, Table.lookup_filterMap, Option.bind_eq_some_iff] at hx
    obtain ⟨x, hx, -⟩ := hx
    exact h.versionIds hx
  objectIds hx  := h.objectIds hx
  sessionIds hx := h.sessionIds hx
  object hx     := by
    simp only [Store.deleteVersions, Table.lookup_filterMap, Option.bind_eq_some_iff] at hx
    obtain ⟨x, hx, hp⟩ := hx
    split at hp <;> cases hp
    exact h.object hx
  current {g x v} hx hv := by
    simp only [Store.deleteVersions, Table.lookup_filterMap, Option.bind_eq_some_iff,
      Option.some.injEq] at hx
    obtain ⟨y, hy, rfl⟩ := hx
    obtain ⟨hv, hp⟩ := Option.filter_eq_some_iff.mp hv
    obtain ⟨w, hw, hf⟩ := h.current hy hv
    refine ⟨w, ?_, hf⟩
    simp only [hw, Option.any_some, Bool.not_eq_true'] at hp
    simp [Store.deleteVersions, hw, hp]

theorem deleteFiles {ids : List Id} (h : s.Proper) (hs : s.deleteFiles ids = .ok s') : s'.Proper := by
  obtain ⟨-, rfl⟩ := deleteFiles_ok hs
  constructor
  case fileIds =>
    intro g x hx
    simp only [Table.lookup_filterMap, Option.bind_eq_some_iff] at hx
    obtain ⟨y, hy, -⟩ := hx
    exact h.fileIds hy
  case versionIds => exact h.versionIds
  case objectIds  => exact h.objectIds
  case sessionIds =>
    intro u x hx
    simp only [Table.lookup_filterMap, Option.bind_eq_some_iff] at hx
    obtain ⟨y, hy, -⟩ := hx
    exact h.sessionIds hy
  case object     => exact h.object
  case current    =>
    intro g x v hx hv
    simp only [Table.lookup_filterMap, Option.bind_eq_some_iff] at hx
    obtain ⟨y, hy, he⟩ := hx
    split at he <;> cases he
    exact h.current hy hv

theorem mapSessions {g : Session → Session} (h : s.Proper) :
    Proper { s with sessions := s.sessions.filterMap fun _ u => some (g u) } where
  fileIds       := h.fileIds
  versionIds    := h.versionIds
  objectIds     := h.objectIds
  sessionIds hx := by
    simp only [Table.lookup_filterMap, Option.bind_eq_some_iff] at hx
    obtain ⟨y, hy, -⟩ := hx
    exact h.sessionIds hy
  object        := h.object
  current       := h.current

theorem deleteFolders {ids : List Id} (h : s.Proper) (hs : s.deleteFolders ids = .ok s') :
    s'.Proper := by
  cases deleteFolders_ok hs
  exact h.mapSessions

-- The rows of the objects that versions refer to stay.
theorem objects {t : Table Id StorageObject} (h : s.Proper)
    (hi : ∀ o x, t.lookup o = some x → ∃ y, s.objects.lookup o = some y)
    (hr : ∀ v x, s.versions.lookup v = some x → ∃ o, t.lookup x.objectId = some o) :
    Proper { s with objects := t } where
  fileIds      := h.fileIds
  versionIds   := h.versionIds
  objectIds hx := by
    obtain ⟨y, hy⟩ := hi _ _ hx
    exact h.objectIds hy
  sessionIds   := h.sessionIds
  object hx    := hr _ _ hx
  current      := h.current

theorem deleteObject (h : s.Proper) (hs : s.deleteObject i = .ok s') : s'.Proper := by
  obtain ⟨hn, -, rfl⟩ := deleteObject_ok hs
  have erased : Proper { s with objects := s.objects.erase i } := by
    apply h.objects
    case hi =>
      intro o x hx
      rw [Table.lookup_erase] at hx
      split at hx
      case isTrue  => contradiction
      case isFalse => exact ⟨x, hx⟩
    case hr =>
      intro v x hx
      simpa [hn v x hx] using h.object hx
  exact erased.mapSessions

theorem setObject {o o' : StorageObject} (h : s.Proper) (ho : s.objects.lookup i = some o) :
    Proper { s with objects := s.objects.set i o' } := by
  apply h.objects
  case hi =>
    intro j x hx
    rw [Table.lookup_set] at hx
    split at hx
    case isTrue hj => subst hj; exact ⟨o, ho⟩
    case isFalse   => exact ⟨x, hx⟩
  case hr =>
    intro v x hx
    rw [Table.lookup_set]
    split
    case isTrue  => exact ⟨o', rfl⟩
    case isFalse => exact h.object hx

theorem readied {checksum : String} (h : s.Proper) : (s.readied i checksum).Proper := by
  obtain ⟨-, he⟩ | ⟨o, ho, -, he⟩ := readied_cases s i checksum
  case inl => rw [he]; exact h
  case inr => rw [he]; exact (h.setObject ho).log

theorem markDeleting {cutoff : Option Time} {candidates : List Id} (h : s.Proper) :
    (s.markDeleting cutoff candidates).1.Proper := by
  apply h.objects
  case hi =>
    intro o x hx
    obtain ⟨y, hy, -⟩ := lookup_markDeleting hx
    exact ⟨y, hy⟩
  case hr =>
    intro v x hx
    obtain ⟨o, ho⟩ := h.object hx
    exact ⟨o, lookup_markDeleting_of_used ho (.inl (referenced_iff.mpr ⟨v, x, hx, rfl⟩))⟩

theorem setEntry {parentId : Option Id} {name : String} {deletedAt : Option Time} (h : s.Proper) :
    (s.setEntry i parentId name deletedAt).Proper where
  fileIds hx    := by
    simp only [Store.setEntry, Table.lookup_filterMap, Option.bind_eq_some_iff] at hx
    obtain ⟨y, hy, -⟩ := hx
    exact h.fileIds hy
  versionIds    := h.versionIds
  objectIds     := h.objectIds
  sessionIds    := h.sessionIds
  object        := h.object
  current hx hv := by
    simp only [Store.setEntry, Table.lookup_filterMap, Option.bind_eq_some_iff, Option.some.injEq] at hx
    obtain ⟨y, hy, rfl⟩ := hx
    apply h.current hy
    split at hv <;> exact hv

-- A row with a new i.
theorem insertFile {x : File} {n : Id} (h : s.Proper) (hi : s.next ≤ i) (hn : i < n)
    (hx : x.currentVersion = none) : Proper { s with next := n, files := s.files.set i x } where
  fileIds {f y} hy := by
    rw [Table.lookup_set] at hy
    split at hy
    case isTrue hf => exact hf ▸ hn
    case isFalse   => exact Nat.lt_trans (Nat.lt_of_lt_of_le (h.fileIds hy) hi) hn
  versionIds hy := Nat.lt_trans (Nat.lt_of_lt_of_le (h.versionIds hy) hi) hn
  objectIds hy  := Nat.lt_trans (Nat.lt_of_lt_of_le (h.objectIds hy) hi) hn
  sessionIds hy := Nat.lt_trans (Nat.lt_of_lt_of_le (h.sessionIds hy) hi) hn
  object        := h.object
  current hy hv := by
    rw [Table.lookup_set] at hy
    split at hy
    case isTrue  => cases hy; rw [hx] at hv; contradiction
    case isFalse => exact h.current hy hv

theorem insertObject {x : StorageObject} {n : Id} (h : s.Proper) (hi : s.next ≤ i) (hn : i < n) :
    Proper { s with next := n, objects := s.objects.set i x } where
  fileIds hy    := Nat.lt_trans (Nat.lt_of_lt_of_le (h.fileIds hy) hi) hn
  versionIds hy := Nat.lt_trans (Nat.lt_of_lt_of_le (h.versionIds hy) hi) hn
  objectIds hy  := by
    rw [Table.lookup_set] at hy
    split at hy
    case isTrue ho => exact ho ▸ hn
    case isFalse   => exact Nat.lt_trans (Nat.lt_of_lt_of_le (h.objectIds hy) hi) hn
  sessionIds hy := Nat.lt_trans (Nat.lt_of_lt_of_le (h.sessionIds hy) hi) hn
  object hy     := by
    rw [Table.lookup_set]
    split
    case isTrue  => exact ⟨x, rfl⟩
    case isFalse => exact h.object hy
  current       := h.current

theorem insertVersion {x : FileVersion} {o : StorageObject} (h : s.Proper) (hi : i < s.next)
    (hf : s.versions.lookup i = none) (ho : s.objects.lookup x.objectId = some o) :
    Proper { s with versions := s.versions.set i x } where
  fileIds          := h.fileIds
  versionIds hy    := by
    rw [Table.lookup_set] at hy
    split at hy
    case isTrue hv => exact hv ▸ hi
    case isFalse   => exact h.versionIds hy
  objectIds        := h.objectIds
  sessionIds       := h.sessionIds
  object hy        := by
    rw [Table.lookup_set] at hy
    split at hy
    case isTrue  => cases hy; exact ⟨o, ho⟩
    case isFalse => exact h.object hy
  current hy hv    := by
    obtain ⟨w, hw, hf'⟩ := h.current hy hv
    refine ⟨w, ?_, hf'⟩
    rw [Table.lookup_set]
    split
    case isTrue he => rw [he, hf] at hw; contradiction
    case isFalse   => exact hw

theorem next {n : Id} (h : s.Proper) (hn : s.next ≤ n) : Proper { s with next := n } where
  fileIds hy    := Nat.lt_of_lt_of_le (h.fileIds hy) hn
  versionIds hy := Nat.lt_of_lt_of_le (h.versionIds hy) hn
  objectIds hy  := Nat.lt_of_lt_of_le (h.objectIds hy) hn
  sessionIds hy := Nat.lt_of_lt_of_le (h.sessionIds hy) hn
  object        := h.object
  current       := h.current

theorem fresh (h : s.Proper) (hi : s.next ≤ i) : s.versions.lookup i = none := by
  apply Option.eq_none_iff_forall_ne_some.mpr
  intro x hx
  exact Nat.not_lt_of_le hi (h.versionIds hx)

theorem attach {files : Table Id File} {v : FileVersion} {o : StorageObject} (h : s.Proper)
    (ho : s.objects.lookup v.objectId = some o) (hv : v.fileId = f)
    (hf : files = s.files ∨ f = s.next + 1 ∧ ∃ x : File, x.currentVersion = none ∧
      files = s.files.set f x) : (s.attachment files f v).Proper := by
  have base : Proper { s with next := s.next + 3, files } := by
    obtain rfl | ⟨rfl, x, hx, rfl⟩ := hf
    case inl => exact h.next (Nat.le_add_right _ _)
    case inr => exact h.insertFile (Nat.le_add_right _ _) (Nat.add_lt_add_left (by decide) _) hx
  have version := base.insertVersion (i := s.next) (x := v) (by exact Nat.lt_add_of_pos_right (by decide))
    (h.fresh (Nat.le_refl _)) ho
  apply (version.setCurrent (f := f) (v := some s.next) _).log
  rintro _ ⟨⟩
  exact ⟨v, by simp, hv⟩

theorem createUpload {session : Session} {bytes : List UInt8} (h : s.Proper)
    (hs : s.createUpload session bytes = some s') : s'.Proper := by
  obtain ⟨x, -, -, -, -, rfl⟩ := createUpload_some hs
  constructor
  case fileIds    => intro g y hy; exact Nat.lt_add_right 3 (h.fileIds hy)
  case versionIds => intro v y hy; exact Nat.lt_add_right 3 (h.versionIds hy)
  case objectIds  => intro o y hy; exact Nat.lt_add_right 3 (h.objectIds hy)
  case sessionIds =>
    intro u y hy
    rw [Table.lookup_set] at hy
    split at hy
    case isTrue hu => rw [hu]; exact Nat.add_lt_add_left (by decide : 1 < 3) s.next
    case isFalse   => exact Nat.lt_add_right 3 (h.sessionIds hy)
  case object     => exact h.object
  case current    => exact h.current

theorem restorePrevious {new previous : Option Id} (h : s.Proper)
    (hp : ∀ x, previous = some x → ∃ w, s.versions.lookup x = some w ∧ w.fileId = f) :
    (s.restorePrevious f new previous).Proper := by
  cases new
  case none => exact h.setCurrent hp
  case some => exact (h.setCurrent hp).deleteVersions

-- The object, the file if it is new, the version, and then the row that refers to it.
theorem intake {size : Nat} {createdAt : Time} {files : Table Id File} (h : s.Proper)
    (hf : files = s.files ∨ f = s.next + 2 ∧ ∃ x : File, x.currentVersion = none ∧
      files = s.files.set f x) : (s.intake size createdAt files f).Proper := by
  let object : StorageObject := { size, createdAt }
  have objects := h.insertObject (x := object) (Nat.le_refl s.next) (Nat.lt_succ_self s.next)
  have rows : Proper { s with
      next := s.next + 3, objects := s.objects.set s.next object, files := files } := by
    obtain rfl | ⟨rfl, x, hx, rfl⟩ := hf
    case inl => exact objects.next (Nat.add_le_add_left (by decide : 1 ≤ 3) s.next)
    case inr =>
      exact objects.insertFile (Nat.add_le_add_left (by decide : 1 ≤ 2) s.next)
        (Nat.add_lt_add_left (by decide : 2 < 3) s.next) hx
  let version : FileVersion := { fileId := f, objectId := s.next, size, createdAt }
  have versions := rows.insertVersion (i := s.next + 1) (x := version) (o := object)
    (Nat.add_lt_add_left (by decide : 1 < 3) s.next) (h.fresh (Nat.le_add_right _ _)) (by simp [version])
  exact versions.setCurrent (f := f) (v := some (s.next + 1))
    (by rintro _ ⟨⟩; exact ⟨version, by simp, rfl⟩)

theorem reservation {env : Env} {upload : Id} {session : Session} {files : Table Id File} (h : s.Proper)
    (hf : files = s.files ∨ f = s.next + 2 ∧ ∃ x : File, x.currentVersion = none ∧
      files = s.files.set f x) : (s.reservation env upload session files f).Proper := by
  have rows : (s.intake session.expectedSize env.startedAt files f).Proper := h.intake hf
  exact (rows.updateSession (i := upload) (g := fun u =>
    { u with state := .finalizing, storageObjectId := some s.next, finalFileId := some f })).log

end Proper

theorem version_of_mem_latestVersions {s : Store} {f v : Id} {except : Option Id}
    (h : v ∈ s.latestVersions f except) :
    some v ≠ except ∧ ∃ w, s.versions.lookup v = some w ∧ w.fileId = f := by
  simp only [latestVersions, List.mem_map, List.mem_filter, Bool.and_eq_true, decide_eq_true_eq] at h
  obtain ⟨⟨x, w⟩, ⟨⟨hm, hf, hn⟩, -⟩, rfl⟩ := h
  exact ⟨by simpa using hn, w, Table.lookup_eq_some_iff.mpr hm, hf⟩

namespace Proper

variable {s s' : Store} {owner upload : Id}

theorem complete {t : Target} {checksum : String} {r : Option Id} (h : s.Proper)
    (hs : s.complete owner upload t checksum = .ok (s', r)) : s'.Proper := by
  obtain ⟨x, -, ⟨-, rfl, -⟩ | ⟨-, -, -, -, rfl⟩⟩ := complete_ok hs
  case inl => exact h
  case inr => exact h.readied.updateSession

theorem reject {row : Option Id} {t : Target} (h : s.Proper)
    (hs : s.rejectMismatchedUpload row owner upload t = some (.ok (some s'))) : s'.Proper := by
  obtain ⟨x, -, -, -, -, u, w, hw, rfl, hu⟩ := rejectMismatchedUpload_ok hs
  suffices u.Proper from (this.deleteObject hw).log
  have failed : (s.failUpload upload).Proper := h.updateSession
  obtain ⟨previous, -, hp, rfl⟩ | ⟨-, hr⟩ | ⟨-, -, rfl⟩ := hu
  case inl =>
    apply failed.restorePrevious
    rintro v rfl
    exact (version_of_mem_latestVersions (limitOne_mem hp)).right
  case inr.inl =>
    rw [removeFile] at hr
    exact (failed.setCurrent (by simp)).deleteVersions.deleteFiles hr
  case inr.inr => exact failed

variable [Collation]

theorem reserve {env : Env} {session : Session} (h : s.Proper)
    (hs : s.reserve env owner upload session = .ok s') : s'.Proper := by
  obtain ⟨-, files, f, rfl, ⟨-, rfl, -⟩ | ⟨-, rfl, rfl⟩⟩ := reserve_ok hs
  case inl => exact h.reservation (.inl rfl)
  case inr => exact h.reservation (.inr ⟨rfl, _, rfl, rfl⟩)

theorem linkObject {env : Env} {c : Link} {objectId : Id} (h : s.Proper)
    (hs : s.linkObject env c objectId = .ok (some s')) : s'.Proper := by
  obtain ⟨⟨o, ho⟩, files, f, rfl, hf⟩ := linkObject_ok hs
  apply h.attach ho rfl
  obtain ⟨-, rfl⟩ | ⟨-, rfl, rfl⟩ := hf
  case inl => exact .inl rfl
  case inr => exact .inr ⟨rfl, _, rfl, rfl⟩

theorem insertCopy {env : Env} {f : CopiedFile} (h : s.Proper)
    (hs : Store.insertCopy owner env s f = .ok s') : s'.Proper := by
  obtain ⟨-, rfl⟩ | ⟨o, n, -, ⟨x, hx⟩, rfl⟩ := insertCopy_ok hs
  case inl =>
    exact h.insertFile (Nat.le_add_right _ _) (Nat.add_lt_add_left (by decide : 1 < 3) s.next) rfl
  case inr => exact h.attach hx rfl (.inr ⟨rfl, _, rfl, rfl⟩)

theorem insertCopies {env : Env} {c : Copy} (h : s.Proper) (hs : s.insertCopies env c = .ok s') :
    s'.Proper :=
  Except.foldlM_invariant hs h fun _ _ _ _ => insertCopy

end Proper
end Store

open Store

section

variable {s s' : Store} {env : Env}

theorem Sweep.next_proper {c : Sweep} (h : s.Proper) : (c.next s env).1.Proper := by
  rw [Sweep.next]
  split
  case h_1 => exact h
  case h_2 =>
    split
    case isTrue  => exact ⟨h.fileIds, h.versionIds, h.objectIds, h.sessionIds, h.object, h.current⟩
    case isFalse => split <;> exact h
  case h_3 =>
    split
    case h_1 => exact h
    case h_2 hd =>
      obtain rfl | hd := deleteMarked_ok hd
      case inl => exact h
      case inr => exact h.deleteObject hd

theorem Request.start_proper {r : Request} {k : Option Call} (h : s.Proper)
    (hr : r.start s = some (s', k)) : s'.Proper := by
  cases r <;> simp only [Request.start] at hr
  case upload =>
    obtain ⟨t, ht, he⟩ := Option.map_eq_some_iff.mp hr
    cases he
    exact h.createUpload ht
  case entry => cases hr; exact h.setEntry
  case link  => split at hr <;> cases hr <;> exact h
  all_goals
    cases hr
    exact h

variable [Collation] [Digest]

theorem Finalize.Moves.proper {c : Finalize} {k : Option Finalize} (h : s.Proper)
    (m : c.Moves s env s' k) : s'.Proper := by
  cases m
  case reserve hr    => exact h.reserve hr
  case complete hc   => exact h.complete hc
  case index hc _    => exact (h.complete hc).log
  case already hc    => exact (h.complete hc).log
  case reject hr     => exact h.reject hr
  case again         => exact h.log
  case answer        => exact h.log
  all_goals exact ⟨h.fileIds, h.versionIds, h.objectIds, h.sessionIds, h.object, h.current⟩

theorem Call.next_proper {c : Call} {k : Option Call} (h : s.Proper) (hc : c.next s env = some (s', k)) :
    s'.Proper := by
  cases c <;> simp only [Call.next] at hc
  case finalize c =>
    obtain ⟨⟨t, k'⟩, hm, he⟩ := Option.map_eq_some_iff.mp hc
    cases he
    exact (Finalize.next_moves hm).proper h
  case link c =>
    obtain ⟨⟨t, k'⟩, hm, he⟩ := Option.map_eq_some_iff.mp hc
    cases he
    obtain rfl | ⟨o, -, hl⟩ := Link.next_cases hm
    case inl => exact h
    case inr => exact h.linkObject hl
  case copy c =>
    cases hc
    obtain he | ⟨-, hi⟩ := Copy.next_cases s env c
    case inl => rw [he]; exact h
    case inr => exact h.insertCopies hi
  case purge => cases hc; exact h
  case purgeObjects tree objects =>
    split at hc <;> cases hc
    case h_1 => exact h
    case h_2 hp =>
      obtain ⟨t, ht, hf⟩ := Except.bind_eq_ok_iff.mp hp
      exact (h.deleteVersions.deleteFiles ht).deleteFolders hf
  case mark  => cases hc; exact h.markDeleting
  case sweep => cases hc; exact Sweep.next_proper h

theorem System.proper_step {s s' : System} {a : Action} (h : s.store.Proper) (hs : s.step a = some s') :
    s'.store.Proper := by
  cases a <;> simp only [System.step, Shared.System.step] at hs
  case start =>
    split at hs <;> try contradiction
    obtain ⟨r, hr, rfl⟩ := Option.map_eq_some_iff.mp hs
    exact Request.start_proper h hr
  case next =>
    split at hs <;> try contradiction
    obtain ⟨r, hr, rfl⟩ := Option.map_eq_some_iff.mp hs
    exact Call.next_proper h hr
  case drop =>
    split at hs <;> cases hs
    exact h

theorem System.proper_reaches {s : System} (e : Execution.Reaches System.step System.init s) :
    s.store.Proper := by
  apply e.invariant (I := fun s => s.store.Proper)
  case h  => constructor <;> intros <;> contradiction
  case hi => exact fun h _ hs => System.proper_step h hs

end
end MyDrive.Transfers
