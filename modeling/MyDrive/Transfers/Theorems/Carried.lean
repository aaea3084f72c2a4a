import MyDrive.Transfers.Theorems.Backed

-- What the finalization of an upload leaves alone: the rows and the files of everybody else's objects.

namespace MyDrive.Transfers.Store

structure Carried (s : Store) : Prop where
  version {u x o} : s.sessions.lookup u = some x → x.state = .finalizing →
    x.storageObjectId = some o → ∃ v w, s.versions.lookup v = some w ∧ w.objectId = o
  replace {u x g} : s.sessions.lookup u = some x → x.state = .finalizing →
    x.replaceFileId = some g → x.finalFileId = some g

-- An object of an upload.
def Reserved (s : Store) (o : Id) : Prop :=
  ∃ u v f, .reserved u o v f ∈ s.history

-- A file that goes if its upload is rejected.
def Uploaded (s : Store) (f : Id) : Prop :=
  ∃ u x, s.sessions.lookup u = some x ∧ x.state = .finalizing ∧ x.replaceFileId = none ∧
    x.finalFileId = some f

structure Spares (s s' : Store) : Prop where
  next : s.next ≤ s'.next
  reserved {o} : s'.Reserved o → s.Reserved o ∨ s.next ≤ o
  uploaded {f} : s'.Uploaded f → s.Uploaded f ∨ s.next ≤ f
  object {o x} : s.objects.lookup o = some x → ¬s.Reserved o → s'.objects.lookup o = some x
  version {v w} : s.versions.lookup v = some w → ¬s.Reserved w.objectId → ¬s.Uploaded w.fileId →
    s'.versions.lookup v = some w
  file {f} : (s.files.lookup f).isSome → ¬s.Uploaded f → (s'.files.lookup f).isSome
  staging {k b} : s'.staging.lookup k = some b → s.staging.lookup k = some b ∨ s.next ≤ k
  payload {o b} : s'.payloads.lookup o = some b → s.payloads.lookup o = some b ∨ s.Reserved o

variable {s s' s'' : Store} {u f o v : Id} {x : Session}

theorem Recorded.reserved (h : s.Recorded) (hx : s.sessions.lookup u = some x)
    (ho : x.storageObjectId = some o) : s.Reserved o := by
  obtain ⟨v, f, hr⟩ := h.storage hx ho
  exact ⟨u, v, f, hr⟩

theorem Spares.of_rows (hn : s.next ≤ s'.next) (ho : s'.objects = s.objects)
    (hv : s'.versions = s.versions) (hf : s'.files = s.files) (hx : s'.sessions = s.sessions)
    (hr : ∀ {o}, s'.Reserved o → s.Reserved o)
    (hs : ∀ {k b}, s'.staging.lookup k = some b → s.staging.lookup k = some b)
    (hp : ∀ {o b}, s'.payloads.lookup o = some b → s.payloads.lookup o = some b ∨ s.Reserved o) :
    s.Spares s' where
  next          := hn
  reserved h    := .inl (hr h)
  uploaded h    := .inl (by simpa only [Uploaded, hx] using h)
  object h _    := ho ▸ h
  version h _ _ := hv ▸ h
  file h _      := hf ▸ h
  staging h     := .inl (hs h)
  payload       := hp

-- The history only grows by events that reserve nothing.
theorem reserved_append (es : List Event) (hh : s'.history = s.history ++ es)
    (he : ∀ {u o v f}, .reserved u o v f ∉ es) (h : s'.Reserved o) : s.Reserved o := by
  obtain ⟨u, v, f, hr⟩ := h
  rw [hh, List.mem_append] at hr
  exact ⟨u, v, f, hr.resolve_right he⟩

theorem Spares.refl : s.Spares s :=
  .of_rows (Nat.le_refl _) rfl rfl rfl rfl id id .inl

theorem Spares.log {e : Event} (h : s.Spares s') (he : ∀ u o v f, e ≠ .reserved u o v f) :
    s.Spares (s'.log e) where
  next        := h.next
  reserved hr :=
    h.reserved (reserved_append [e] rfl (fun hm => he _ _ _ _ (List.mem_singleton.mp hm).symm) hr)
  uploaded    := h.uploaded
  object      := h.object
  version     := h.version
  file        := h.file
  staging     := h.staging
  payload     := h.payload

theorem Carried.of_rows (h : s.Carried) (hv : s'.versions = s.versions)
    (hx : s'.sessions = s.sessions) : s'.Carried where
  version hy hs ho := hv ▸ h.version (hx ▸ hy) hs ho
  replace hy       := h.replace (hx ▸ hy)

theorem Spares.createUpload {session : Session} {bytes : List UInt8}
    (hs : s.createUpload session bytes = some s') : s.Spares s' := by
  obtain ⟨y, ha, -, -, -, rfl⟩ := createUpload_some hs
  constructor
  case next     => exact Nat.le_add_right _ _
  case reserved => exact .inl
  case object   => exact fun h _ => h
  case version  => exact fun h _ _ => h
  case file     => exact fun h _ => h
  case payload  => exact .inl
  case uploaded =>
    rintro g ⟨u, z, hz, hf', hr, hi⟩
    obtain ⟨rfl, rfl⟩ | hz := lookup_sessions_set hz
    case inl => rw [ha] at hf'; contradiction
    case inr => exact .inl ⟨u, z, hz, hf', hr, hi⟩
  case staging  =>
    intro k b hk
    simp only [Table.lookup_set] at hk
    split at hk
    case isTrue he => exact .inr (Nat.le_of_eq he.symm)
    case isFalse   => exact .inl hk

theorem Carried.createUpload {session : Session} {bytes : List UInt8} (h : s.Carried)
    (hs : s.createUpload session bytes = some s') : s'.Carried := by
  obtain ⟨y, ha, -, ho, -, rfl⟩ := createUpload_some hs
  constructor
  case version =>
    intro u z o hz hf
    obtain ⟨rfl, rfl⟩ | hz := lookup_sessions_set hz
    case inl => rw [ha] at hf; contradiction
    case inr => exact h.version hz hf
  case replace =>
    intro u z g hz hf
    obtain ⟨rfl, rfl⟩ | hz := lookup_sessions_set hz
    case inl => rw [ha] at hf; contradiction
    case inr => exact h.replace hz hf

section

variable [Collation] {env : Env} {owner upload : Id}

theorem Carried.reserve (h : s.Carried) (hp : s.Proper) (hx : s.sessions.lookup upload = some x)
    (hs : s.reserve env owner upload x = .ok s') : s'.Carried := by
  obtain ⟨-, files, f, rfl, hg⟩ := reserve_ok hs
  constructor
  case version =>
    intro u y o hy hf ho
    obtain ⟨-, rfl⟩ | ⟨-, hy⟩ := lookup_sessions_reservation hx hy
    case inl =>
      cases ho
      exact ⟨s.next + 1, _, Table.lookup_set.trans (if_pos rfl), rfl⟩
    case inr =>
      obtain ⟨v, w, hv, hw⟩ := h.version hy hf ho
      have old : v ≠ s.next + 1 := Nat.ne_of_lt (Nat.lt_succ_of_lt (hp.versionIds hv))
      exact ⟨v, w, (Table.lookup_set.trans (if_neg old)).trans hv, hw⟩
  case replace =>
    intro u y g hy hf hi
    obtain ⟨-, rfl⟩ | ⟨-, hy⟩ := lookup_sessions_reservation hx hy
    case inr => exact h.replace hy hf hi
    case inl =>
      obtain ⟨hr, -⟩ | ⟨hr, -⟩ := hg
      case inl => exact hr.symm.trans hi
      case inr => cases hr.symm.trans hi

theorem Spares.reserve (hp : s.Proper) (hx : s.sessions.lookup upload = some x)
    (hs : s.reserve env owner upload x = .ok s') : s.Spares s' := by
  obtain ⟨-, files, f, rfl, hg⟩ := reserve_ok hs
  constructor
  case next     => exact Nat.le_add_right _ _
  case staging  => exact .inl
  case payload  => exact .inl
  case reserved =>
    rintro o ⟨u, v, g, hr⟩
    obtain hr | ⟨-, rfl, -⟩ := mem_reservation.mp hr
    case inl => exact .inl ⟨u, v, g, hr⟩
    case inr => exact .inr (Nat.le_refl _)
  case uploaded =>
    rintro g ⟨u, y, hy, hf, hr, hi⟩
    obtain ⟨-, rfl⟩ | ⟨-, hy⟩ := lookup_sessions_reservation hx hy
    case inr => exact .inl ⟨u, y, hy, hf, hr, hi⟩
    case inl =>
      obtain ⟨he, -⟩ | ⟨-, rfl, -⟩ := hg
      case inl => cases he.symm.trans hr
      case inr => cases hi; exact .inr (Nat.le_add_right _ _)
  case object   =>
    intro o y ho _
    exact (Table.lookup_set.trans (if_neg (Nat.ne_of_lt (hp.objectIds ho)))).trans ho
  case version  =>
    intro v w hv _ _
    have old : v ≠ s.next + 1 := Nat.ne_of_lt (Nat.lt_succ_of_lt (hp.versionIds hv))
    exact (Table.lookup_set.trans (if_neg old)).trans hv
  case file     =>
    intro g hg' _
    have row : (files.lookup g).isSome := by
      obtain ⟨-, rfl, -⟩ | ⟨-, rfl, rfl⟩ := hg
      case inl => exact hg'
      case inr =>
        rw [Table.lookup_set]
        split
        case isTrue  => rfl
        case isFalse => exact hg'
    obtain ⟨y, hy⟩ := Option.isSome_iff_exists.mp row
    simp [reservation, hy]

end
section

variable {owner upload : Id} {t : Target}

theorem history_readied {checksum : String} (h : (s.readied o checksum).Reserved v) : s.Reserved v := by
  obtain ⟨-, he⟩ | ⟨x, -, -, he⟩ := readied_cases s o checksum
  case inl => rwa [he] at h
  case inr =>
    rw [he] at h
    exact reserved_append [.readied o] rfl (by simp) h

theorem object_readied {checksum : String} (hv : v ≠ o) :
    (s.readied o checksum).objects.lookup v = s.objects.lookup v := by
  obtain ⟨-, he⟩ | ⟨x, -, -, he⟩ := readied_cases s o checksum
  case inl => rw [he]
  case inr => rw [he]; exact Table.lookup_set.trans (if_neg hv)

theorem Carried.complete {checksum : String} {r : Option Id} (h : s.Carried)
    (hs : s.complete owner upload t checksum = .ok (s', r)) : s'.Carried := by
  have versions : s'.versions = s.versions := by
    obtain ⟨x, -, ⟨-, rfl, -⟩ | ⟨-, -, -, -, rfl⟩⟩ := complete_ok hs
    case inl => rfl
    case inr =>
      obtain ⟨-, he⟩ | ⟨x, -, -, he⟩ := readied_cases s t.objectId checksum <;> rw [he] <;> rfl
  have recedes : s.Recedes s' := .complete hs
  constructor
  case version =>
    intro u x' o hx' hf ho
    obtain ⟨x, hx, hr⟩ := recedes.session hx'
    rw [versions]
    exact h.version hx (hr.state hf).left (hr.object ho)
  case replace =>
    intro u x' g hx' hf hg
    obtain ⟨x, hx, hr⟩ := recedes.session hx'
    obtain ⟨hs, hi⟩ := hr.state hf
    rw [hi]
    exact h.replace hx hs (hr.replace hg)

theorem Spares.complete {checksum : String} {r : Option Id} (hr : s.Recorded)
    (hs : s.complete owner upload t checksum = .ok (s', r)) : s.Spares s' := by
  obtain ⟨x, hx, ⟨-, rfl, -⟩ | ⟨-, -, ho, -, rfl⟩⟩ := complete_ok hs
  case inl => exact .refl
  case inr =>
    have own : s.Reserved t.objectId := hr.reserved hx ho
    have rows : (s.readied t.objectId checksum).versions = s.versions ∧
        (s.readied t.objectId checksum).files = s.files ∧
        (s.readied t.objectId checksum).staging = s.staging ∧
        (s.readied t.objectId checksum).payloads = s.payloads ∧
        (s.readied t.objectId checksum).next = s.next := by
      obtain ⟨-, he⟩ | ⟨x, -, -, he⟩ := readied_cases s t.objectId checksum <;>
        rw [he] <;> exact ⟨rfl, rfl, rfl, rfl, rfl⟩
    obtain ⟨versions, files, staging, payloads, next⟩ := rows
    constructor
    case next     => exact Nat.le_of_eq next.symm
    case reserved => exact fun h => .inl (history_readied h)
    case version  => exact fun h _ _ => versions ▸ h
    case file     => exact fun h _ => files ▸ h
    case staging  => exact fun h => .inl (staging ▸ h)
    case payload  => exact fun h => .inl (payloads ▸ h)
    case object   =>
      intro o y hy hn
      have other : o ≠ t.objectId := by
        rintro rfl
        exact hn own
      exact (object_readied other).trans hy
    case uploaded =>
      rintro f ⟨u, x', hx', hf, hn, hi⟩
      rw [lookup_updateSession, sessions_readied] at hx'
      obtain ⟨y, hy, rfl⟩ := Option.map_eq_some_iff.mp hx'
      split at hf
      case isTrue => contradiction
      case isFalse he =>
        rw [if_neg he] at hn hi
        exact .inl ⟨u, y, hy, hf, hn, hi⟩

-- What a rejection takes away is its own: the version of its object, or the file that it has made.
structure Rejects (s s' : Store) (upload : Id) (t : Target) (x : Session) : Prop where
  next     : s'.next = s.next
  staging  : s'.staging = s.staging
  payloads : s'.payloads = s.payloads
  reserved {i} : s'.Reserved i → s.Reserved i
  object {i} : i ≠ t.objectId → s'.objects.lookup i = s.objects.lookup i
  version {i w} : s.versions.lookup i = some w → s'.versions.lookup i = some w ∨
    w.objectId = t.objectId ∨ x.replaceFileId = none ∧ w.fileId = t.fileId
  file {g} : (s.files.lookup g).isSome → (s'.files.lookup g).isSome ∨
    x.replaceFileId = none ∧ g = t.fileId
  session {i y'} : s'.sessions.lookup i = some y' → y'.state = .finalizing →
    ∃ y, s.sessions.lookup i = some y ∧ y'.storageObjectId = y.storageObjectId ∧
      y'.finalFileId = y.finalFileId ∧ y'.replaceFileId = y.replaceFileId ∧
      y.state = .finalizing ∧ i ≠ upload
  others {i y'} : s'.sessions.lookup i = some y' → y'.state = .finalizing →
    x.replaceFileId = none → y'.finalFileId ≠ some t.fileId
  kept {i y} : s.sessions.lookup i = some y → y.state = .finalizing → i ≠ upload →
    (∃ y', s'.sessions.lookup i = some y' ∧ y'.state = .finalizing ∧
      y'.storageObjectId = y.storageObjectId) ∨
    y.finalFileId = some t.fileId ∧ ∀ v w, s'.versions.lookup v = some w → w.fileId ≠ t.fileId

theorem lookup_failUpload_of_ne (h : s.sessions.lookup u = some x) (hu : u ≠ upload) :
    (s.failUpload upload).sessions.lookup u = some x := by
  rw [failUpload, lookup_updateSession, h, Option.map_some, if_neg hu]

theorem lookup_failUpload_finalizing {y' : Session}
    (h : (s.failUpload upload).sessions.lookup u = some y') (hf : y'.state = .finalizing) :
    s.sessions.lookup u = some y' ∧ u ≠ upload := by
  rw [failUpload, lookup_updateSession] at h
  obtain ⟨y, hy, rfl⟩ := Option.map_eq_some_iff.mp h
  split at hf
  case isTrue    => contradiction
  case isFalse hu => rw [if_neg hu]; exact ⟨hy, hu⟩

-- The version that a rejected replacement deletes is the one of its object, or the object's row could
-- not go.
theorem deleted_own {y z : Store} {new previous : Option Id} {w : FileVersion} (hc : s.Carried)
    (hx : s.sessions.lookup upload = some x) (hf : x.state = .finalizing)
    (ho : x.storageObjectId = some t.objectId) (hz : y.deleteObject t.objectId = .ok z)
    (hy : y = (s.failUpload upload).restorePrevious t.fileId new previous)
    (hv : s.versions.lookup v = some w) :
    y.versions.lookup v = some w ∨ w.objectId = t.objectId := by
  obtain ⟨unreferenced, -, -⟩ := deleteObject_ok hz
  obtain ⟨v₀, w₀, hv₀, ho₀⟩ := hc.version hx hf ho
  subst hy
  cases new
  case none   => exact .inl hv
  case some n =>
    have kept (i : Id) (e : FileVersion) (hi : s.versions.lookup i = some e) :
        ((s.failUpload upload).restorePrevious t.fileId (some n) previous).versions.lookup i = some e ∨
          i = n := by
      by_cases he : i = n
      case pos => exact .inr he
      case neg =>
        left
        simp only [restorePrevious, Store.deleteVersions, Table.lookup_filterMap, Store.setCurrent]
        simp [failUpload, updateSession, hi, he]
    obtain hk | rfl := kept v₀ w₀ hv₀
    case inl => exact absurd ho₀ (unreferenced _ _ hk)
    case inr =>
      obtain hk | rfl := kept v w hv
      case inl => exact .inl hk
      case inr =>
        rw [hv] at hv₀
        cases hv₀
        exact .inr ho₀

theorem isSome_setCurrent {g : Id} {n : Option Id} :
    ((s.setCurrent f n).files.lookup g).isSome = (s.files.lookup g).isSome := by
  rw [lookup_setCurrent, Option.isSome_map]

theorem isSome_deleteVersions {g : Id} {p : Id → FileVersion → Bool} :
    ((s.deleteVersions p).files.lookup g).isSome = (s.files.lookup g).isSome := by
  simp only [Store.deleteVersions, Table.lookup_filterMap]
  cases s.files.lookup g <;> rfl

theorem Rejects.restore {y z : Store} {new previous : Option Id} (hc : s.Carried)
    (hx : s.sessions.lookup upload = some x) (hf : x.state = .finalizing)
    (ho : x.storageObjectId = some t.objectId) (hr : x.replaceFileId.isSome)
    (hz : y.deleteObject t.objectId = .ok z)
    (hy : y = (s.failUpload upload).restorePrevious t.fileId new previous) :
    s.Rejects y upload t x where
  next      := by subst hy; cases new <;> rfl
  staging   := by subst hy; cases new <;> rfl
  payloads  := by subst hy; cases new <;> rfl
  reserved  := by subst hy; cases new <;> exact id
  object _  := by subst hy; cases new <;> rfl
  version h := (deleted_own hc hx hf ho hz hy h).imp_right .inl
  file h    := by
    subst hy
    left
    cases new
    case none => exact isSome_setCurrent.trans h
    case some => exact isSome_deleteVersions.trans (isSome_setCurrent.trans h)
  session {i y'} h hs := by
    have row : (s.failUpload upload).sessions.lookup i = some y' := by
      subst hy
      cases new <;> exact h
    obtain ⟨hk, hu⟩ := lookup_failUpload_finalizing row hs
    exact ⟨y', hk, rfl, rfl, rfl, hs, hu⟩
  others _ _ hn := by simp [hn] at hr
  kept {i z} h hs hu := by
    have row := lookup_failUpload_of_ne h hu
    refine .inl ⟨z, ?_, hs, rfl⟩
    subst hy
    cases new <;> exact row

theorem Rejects.remove {y : Store} (hc : s.Carried) (hr : x.replaceFileId = none)
    (hy : (s.failUpload upload).removeFile t.fileId = .ok y) : s.Rejects y upload t x := by
  obtain ⟨-, he⟩ := deleteFiles_ok hy
  have row {i : Id} {y' : Session} (h : y.sessions.lookup i = some y') (hs : y'.state = .finalizing) :
      ∃ w, s.sessions.lookup i = some w ∧ i ≠ upload ∧ w.state = .finalizing ∧
        w.finalFileId ≠ some t.fileId ∧
        y' = { w with replaceFileId := w.replaceFileId.filter (· ∉ [t.fileId]) } := by
    obtain ⟨w, hw, hn, rfl⟩ := lookup_deleteFiles hy h
    obtain ⟨hk, hu⟩ := lookup_failUpload_finalizing hw hs
    refine ⟨w, hk, hu, hs, ?_, rfl⟩
    intro hi
    simp [hi] at hn
  constructor
  case next     => rw [he]; rfl
  case staging  => rw [he]; rfl
  case payloads => rw [he]; rfl
  case reserved => rw [he]; exact id
  case object   => rw [he]; exact fun _ => rfl
  case version  =>
    intro i w hi
    by_cases hw : w.fileId = t.fileId
    case pos => exact .inr (.inr ⟨hr, hw⟩)
    case neg =>
      left
      rw [he]
      simp only [Store.deleteVersions, Table.lookup_filterMap, Store.setCurrent]
      simp [failUpload, updateSession, hi, hw]
  case file     =>
    intro g hg
    by_cases hi : g = t.fileId
    case pos => exact .inr ⟨hr, hi⟩
    case neg =>
      left
      have kept : (((s.failUpload upload).setCurrent t.fileId none).deleteVersions
          fun _ v => v.fileId = t.fileId).files.lookup g |>.isSome :=
        isSome_deleteVersions.trans (isSome_setCurrent.trans hg)
      obtain ⟨z, hz⟩ := Option.isSome_iff_exists.mp kept
      rw [he]
      simp [hz, hi]
  case session  =>
    intro i y' h hs
    obtain ⟨w, hw, hu, hf, hn, rfl⟩ := row h hs
    refine ⟨w, hw, rfl, rfl, ?_, hf, hu⟩
    -- The replaced file of an upload that is being finalized is its file.
    cases hg : w.replaceFileId
    case none   => simp
    case some g =>
      have : g ≠ t.fileId := by
        rintro rfl
        exact hn (hc.replace hw hf hg)
      simp [this]
  case others   =>
    intro i y' h hs _
    obtain ⟨w, -, -, -, hn, rfl⟩ := row h hs
    exact hn
  case kept     =>
    intro i z h hs hu
    by_cases hz : z.finalFileId = some t.fileId
    case pos =>
      refine .inr ⟨hz, fun v w hv => ?_⟩
      rw [he] at hv
      simp only [Store.deleteVersions, Table.lookup_filterMap, Option.bind_eq_some_iff] at hv
      obtain ⟨w', -, hw⟩ := hv
      split at hw <;> cases hw
      case isFalse hn => simpa using hn
    case neg =>
      have row : y.sessions.lookup i =
          some { z with replaceFileId := z.replaceFileId.filter (· ∉ [t.fileId]) } := by
        have old := lookup_failUpload_of_ne h hu
        have other : z.finalFileId.any (· ∈ [t.fileId]) = false := by
          cases hf : z.finalFileId
          case none   => rfl
          case some g =>
            have : g ≠ t.fileId := fun hg => hz (hg ▸ hf)
            simpa using this
        rw [he]
        simp only [Table.lookup_filterMap, Store.deleteVersions, Store.setCurrent, old,
          Option.bind_some, other]
        rfl
      exact .inl ⟨_, row, hs, rfl⟩

theorem Rejects.fail (hc : s.Carried) (hx : s.sessions.lookup upload = some x)
    (hf : x.state = .finalizing) (ho : x.storageObjectId = some t.objectId) {z : Store}
    (hz : (s.failUpload upload).deleteObject t.objectId = .ok z) : False := by
  obtain ⟨unreferenced, -, -⟩ := deleteObject_ok hz
  obtain ⟨v, w, hv, hw⟩ := hc.version hx hf ho
  exact unreferenced v w hv hw

theorem Rejects.deleteObject {y z : Store} (h : s.Rejects y upload t x)
    (hz : y.deleteObject t.objectId = .ok z) : s.Rejects (z.log (.rejected upload)) upload t x := by
  obtain ⟨-, idle, rfl⟩ := deleteObject_ok hz
  have row {i : Id} {y' : Session}
      (hy : (y.sessions.filterMap fun _ u => some { u with
        storageObjectId := u.storageObjectId.filter (· ≠ t.objectId) }).lookup i = some y')
      (hs : y'.state = .finalizing) : y.sessions.lookup i = some y' := by
    simp only [Table.lookup_filterMap, Option.bind_eq_some_iff, Option.some.injEq] at hy
    obtain ⟨w, hw, rfl⟩ := hy
    have other : w.storageObjectId.filter (· ≠ t.objectId) = w.storageObjectId := by
      cases ho : w.storageObjectId
      case none   => rfl
      case some o =>
        have : o ≠ t.objectId := by
          rintro rfl
          exact idle i w hw ho hs
        simp [this]
    rw [other]
    exact hw
  constructor
  case next       => exact h.next
  case staging    => exact h.staging
  case payloads   => exact h.payloads
  case reserved   => exact fun hr => h.reserved (reserved_append [.rejected upload] rfl (by simp) hr)
  case object     => exact fun hi => (Table.lookup_erase.trans (if_neg hi)).trans (h.object hi)
  case version    => exact h.version
  case file       => exact h.file
  case session    => exact fun hy hs => h.session (row hy hs) hs
  case others     => exact fun hy hs => h.others (row hy hs) hs
  case kept       =>
    intro i z hz hs hu
    obtain ⟨y', hy', hs', ho'⟩ | hr := h.kept hz hs hu
    case inr => exact .inr hr
    case inl =>
      refine .inl ⟨{ y' with storageObjectId := y'.storageObjectId.filter (· ≠ t.objectId) },
        ?_, hs', ?_⟩
      case refine_1 => simp [hy', Store.log]
      case refine_2 =>
        cases ho : y'.storageObjectId
        case none   => rw [← ho', ho]; rfl
        case some o =>
          have : o ≠ t.objectId := by
            rintro rfl
            exact idle i y' hy' ho hs'
          simp [← ho', ho, this]

theorem rejects_of_reject {row : Option Id} (hc : s.Carried)
    (h : s.rejectMismatchedUpload row owner upload t = some (.ok (some s'))) :
    ∃ x, s.sessions.lookup upload = some x ∧ x.state = .finalizing ∧
      x.finalFileId = some t.fileId ∧ x.storageObjectId = some t.objectId ∧
      s.Rejects s' upload t x := by
  obtain ⟨x, hx, hf, hi, ho, y, z, hz, rfl, hy⟩ := rejectMismatchedUpload_ok h
  refine ⟨x, hx, hf, hi, ho, ?_⟩
  obtain ⟨previous, hr, -, hy⟩ | ⟨hr, hy⟩ | ⟨-, -, rfl⟩ := hy
  case inl     => exact (Rejects.restore hc hx hf ho hr hz hy).deleteObject hz
  case inr.inl => exact (Rejects.remove hc hr hy).deleteObject hz
  case inr.inr => exact (Rejects.fail hc hx hf ho hz).elim

theorem Carried.reject {row : Option Id} (h : s.Carried) (hb : s.Backed) (hr : s.Recorded)
    (hs : s.rejectMismatchedUpload row owner upload t = some (.ok (some s'))) : s'.Carried := by
  obtain ⟨x, hx, hf, -, ho, r⟩ := rejects_of_reject h hs
  constructor
  case replace =>
    intro u y' g hy' hs hg
    obtain ⟨y, hy, -, hi, he, hs, -⟩ := r.session hy' hs
    exact hi.trans (h.replace hy hs (he.symm.trans hg))
  case version =>
    intro u y' o hy' hs' hy'o
    obtain ⟨y, hy, he, hi, -, hs, hu⟩ := r.session hy' hs'
    obtain ⟨v, w, hv, hw⟩ := h.version hy hs (he.symm.trans hy'o)
    obtain hv' | hw' | ⟨hn, hw'⟩ := r.version hv
    case inl     => exact ⟨v, w, hv', hw⟩
    case inr.inl =>
      -- Another upload does not have the object.
      obtain ⟨v₁, f₁, h₁⟩ := hr.storage hy (he.symm.trans hy'o)
      obtain ⟨v₂, f₂, h₂⟩ := hr.storage hx ho
      rw [← hw, hw'] at h₁
      exact absurd (hr.object h₁ h₂) hu
    case inr.inr =>
      obtain ⟨-, hk⟩ := hb.version hy hs (he.symm.trans hy'o) hv hw
      exact absurd (hi.trans (hw' ▸ hk)) (r.others hy' hs' hn)

theorem Spares.reject {row : Option Id} (hc : s.Carried) (hr : s.Recorded)
    (hs : s.rejectMismatchedUpload row owner upload t = some (.ok (some s'))) : s.Spares s' := by
  obtain ⟨x, hx, hf, hi, ho, r⟩ := rejects_of_reject hc hs
  have own : s.Reserved t.objectId := hr.reserved hx ho
  have made (hn : x.replaceFileId = none) : s.Uploaded t.fileId := ⟨upload, x, hx, hf, hn, hi⟩
  constructor
  case next     => exact Nat.le_of_eq r.next.symm
  case reserved => exact fun h => .inl (r.reserved h)
  case staging  => exact fun h => .inl (r.staging ▸ h)
  case payload  => exact fun h => .inl (r.payloads ▸ h)
  case uploaded =>
    rintro g ⟨u, y', hy', hs, hn, hg⟩
    obtain ⟨y, hy, -, he, hk, hs, -⟩ := r.session hy' hs
    exact .inl ⟨u, y, hy, hs, hk.symm.trans hn, he.symm.trans hg⟩
  case object   =>
    intro o y hy hn
    have other : o ≠ t.objectId := by
      rintro rfl
      exact hn own
    exact (r.object other).trans hy
  case version  =>
    intro v w hv hn hu
    obtain hv' | hw | ⟨hk, hw⟩ := r.version hv
    case inl     => exact hv'
    case inr.inl => exact absurd (hw ▸ own) hn
    case inr.inr => exact absurd (hw ▸ made hk) hu
  case file     =>
    intro g hg hu
    obtain hg' | ⟨hk, rfl⟩ := r.file hg
    case inl => exact hg'
    case inr => exact absurd (made hk) hu

end
end MyDrive.Transfers.Store

namespace MyDrive.Transfers.Finalize

variable [Collation] [Digest] {s s' : Store} {env : Env} {c : Finalize} {k : Option Finalize}

theorem Moves.carried (h : s.Carried) (hp : s.Proper) (hb : s.Backed) (hr : s.Recorded)
    (m : c.Moves s env s' k) : s'.Carried := by
  cases m
  case reserve hx _ _ hs => exact h.reserve hp hx hs
  case complete hs       => exact h.complete hs
  case index hs _        => exact (h.complete hs).of_rows rfl rfl
  case already hs        => exact (h.complete hs).of_rows rfl rfl
  case reject hs         => exact h.reject hb hr hs
  all_goals exact h.of_rows rfl rfl

theorem Moves.spares (hc : s.Carried) (hp : s.Proper) (hr : s.Recorded) (hb : c.Bound s)
    (m : c.Moves s env s' k) : s.Spares s' := by
  cases m <;> simp only [Bound, *] at hb
  case again              => exact Store.Spares.refl.log (by simp)
  case reserve hx _ _ hs  => exact .reserve hp hx hs
  case complete hs        => exact .complete hr hs
  case index hs _         => exact (Store.Spares.complete hr hs).log (by simp)
  case already hs         => exact (Store.Spares.complete hr hs).log (by simp)
  case answer             => exact Store.Spares.refl.log (by simp)
  case reject hs          => exact .reject hc hr hs
  case rename t bytes _ _ =>
    obtain ⟨-, v, own⟩ := hb
    refine .of_rows (Nat.le_refl _) rfl rfl rfl rfl id (fun hk => ?_) fun ho => ?_
    case refine_1 =>
      rw [Table.lookup_erase] at hk
      split at hk
      case isTrue  => contradiction
      case isFalse => exact hk
    case refine_2 =>
      rw [Table.lookup_set] at ho
      split at ho
      case isTrue he => exact .inr (he ▸ ⟨c.upload, v, t.fileId, own⟩)
      case isFalse   => exact .inl ho
  case unlink t _         =>
    refine .of_rows (Nat.le_refl _) rfl rfl rfl rfl id id fun ho => ?_
    rw [Table.lookup_erase] at ho
    split at ho
    case isTrue  => contradiction
    case isFalse => exact .inl ho
  all_goals exact .refl

end MyDrive.Transfers.Finalize
